import AwaitGlibc.Utf8Codec
import AwaitGlibc.Utf8Form

/-!
# UTF-8 is accepted in its shortest forms only

The body of `utf8_internal_loop` takes a character exactly where the shortest
form of a value that is no surrogate begins, and the body of
`internal_utf8_loop` writes that form.
-/
namespace AwaitGlibc.Gconv
open Utf8

/-! ### Bytes -/

variable {rest : List UInt8}

theorem length_le_of_take {form : List UInt8} (h : rest.take form.length = form) :
    form.length ≤ rest.length :=
  (congrArg List.length h).ge.trans (List.length_take_le' _ _)

theorem readAt_ok {i : ℕ} (h : i < rest.length) :
    readAt rest i = .ok rest[i] := by
  rw [readAt, List.getElem?_eq_getElem h]

variable {n : ℕ}

theorem toNat_byte (h : n < 256) : (UInt8.ofNat n).toNat = n := by
  exact Nat.mod_eq_of_lt h

theorem isTrail_iff (b : UInt8) : isTrail b = true ↔ IsTrail b.toNat := by
  have hall : ∀ n, n < 256 → (n &&& 0xc0 = 0x80 ↔ 128 ≤ n ∧ n < 192) := by
    decide +kernel
  rw [isTrail, decide_eq_true_eq, ← UInt8.toNat_inj, UInt8.toNat_and]
  exact hall b.toNat b.toNat_lt

variable {b : UInt8} {c ch : UInt32}

theorem leadByte_some (h : leadByte b.toUInt32 = some (n, c)) (hb : 128 ≤ b.toNat) :
    2 ≤ n ∧ n ≤ 6 ∧ c.toNat < 2 ^ (7 - n) ∧ b.toNat = mark n + c.toNat ∧ (n = 2 → 2 ≤ c.toNat) := by
  have hall : ∀ k, k < 256 → 128 ≤ k → ∀ p ∈ leadByte (UInt32.ofNat k),
      2 ≤ p.1 ∧ p.1 ≤ 6 ∧ p.2.toNat < 2 ^ (7 - p.1) ∧ k = mark p.1 + p.2.toNat ∧
        (p.1 = 2 → 2 ≤ p.2.toNat) := by decide +kernel
  have hk : UInt32.ofNat b.toNat = b.toUInt32 := by
    simp
  exact hall b.toNat b.toNat_lt hb (n, c) (by rw [hk]; exact h)

theorem leadByte_mark {c : ℕ} (hn : 2 ≤ n) (hle : n ≤ 6) (hc : c < 2 ^ (7 - n))
    (htwo : n = 2 → 2 ≤ c) :
    leadByte (UInt8.ofNat (mark n + c)).toUInt32 = some (n, UInt32.ofNat c) := by
  have hall : ∀ (n : Fin 7) (c : Fin 32), 2 ≤ n.val → c.val < 2 ^ (7 - n.val) →
      (n.val = 2 → 2 ≤ c.val) → leadByte (UInt8.ofNat (mark n.val + c.val)).toUInt32 =
        some (n.val, UInt32.ofNat c.val) := by decide +kernel
  have hc32 : c < 32 := hc.trans_le (Nat.pow_le_pow_right (by decide) (by omega : 7 - n ≤ 5))
  exact hall ⟨n, by omega⟩ ⟨c, hc32⟩ hn hc htwo

theorem toNat_combine (h : ch.toNat < 2 ^ 26) (b : UInt8) :
    (ch <<< 6 ||| (b.toUInt32 &&& 0x3f)).toNat = ch.toNat * 64 + b.toNat % 64 := by
  have hmask : b.toNat &&& 63 = b.toNat % 64 := Nat.and_two_pow_sub_one_eq_mod b.toNat 6
  have hshift : ch.toNat <<< 6 % 2 ^ 32 = 2 ^ 6 * ch.toNat := by
    rw [Nat.shiftLeft_eq, Nat.mod_eq_of_lt (by omega), mul_comm]
  change ch.toNat <<< 6 % 2 ^ 32 ||| (b.toNat &&& 63) = _
  rw [hmask, hshift, ← Nat.two_pow_add_eq_or_of_lt (by omega)]
  ring

/-- Reading trail bytes stops at the first byte that is none; if there is none
before the end, their bits have been gathered. -/
theorem readTrail_ok (rest : List UInt8) (left i : ℕ) (ch : UInt32) (h : i + left ≤ rest.length)
    (hch : (ch.toNat + 1) * 64 ^ left ≤ 2 ^ 32) :
    ∃ j c, readTrail rest left i ch = .ok (j, c) ∧ i ≤ j ∧ j ≤ i + left ∧
      (j = i + left ↔ ∀ b ∈ (rest.drop i).take left, IsTrail b.toNat) ∧
      (j = i + left → c.toNat = gather ch.toNat (((rest.drop i).take left).map UInt8.toNat)) := by
  induction left generalizing i ch with
  | zero => exact ⟨i, ch, rfl, le_rfl, le_rfl, by simp, fun _ => rfl⟩
  | succ left ih =>
    have hi : i < rest.length := by omega
    have hdrop : (rest.drop i).take (left + 1) = rest[i] :: (rest.drop (i + 1)).take left := by
      rw [List.drop_eq_getElem_cons hi, List.take_succ_cons]
    rw [readTrail, readAt_ok hi]
    by_cases htrail : isTrail rest[i] = true
    · have hlt : ch.toNat < 2 ^ 26 := by
        rw [pow_succ] at hch
        have hpos : 1 ≤ 64 ^ left := Nat.one_le_pow _ _ (by decide)
        nlinarith
      have hcomb := toNat_combine hlt rest[i]
      obtain ⟨j, c, hrun, hij, hj, hiff, hval⟩ := ih (i + 1)
        (ch <<< 6 ||| (rest[i].toUInt32 &&& 0x3f)) (by omega) (by
          rw [hcomb]
          calc (ch.toNat * 64 + rest[i].toNat % 64 + 1) * 64 ^ left
              ≤ ((ch.toNat + 1) * 64) * 64 ^ left := Nat.mul_le_mul_right _ (by omega)
            _ = (ch.toNat + 1) * 64 ^ (left + 1) := by ring
            _ ≤ 2 ^ 32 := hch)
      refine ⟨j, c, ?_, by omega, by omega, ?_, ?_⟩
      · change (if isTrail rest[i] = true then _ else _) = _
        rw [if_pos htrail]
        exact hrun
      · rw [hdrop, List.forall_mem_cons, ← hiff]
        rw [isTrail_iff] at htrail
        constructor
        · intro h
          exact ⟨htrail, by omega⟩
        · intro h
          omega
      · intro h
        rw [hdrop, List.map_cons, hval (by omega), hcomb]
        rfl
    · refine ⟨i, ch, ?_, le_rfl, by omega, ?_, by omega⟩
      · change (if isTrail rest[i] = true then _ else _) = _
        rw [if_neg htrail]
      · rw [hdrop, List.forall_mem_cons]
        constructor
        · omega
        · intro h
          exact absurd ((isTrail_iff _).mpr h.1) htrail

/-- The bits of a first byte and of the trail bytes it announces fit. -/
theorem bits_le {c : ℕ} (hn : 2 ≤ n) (hn6 : n ≤ 6) (hc : c < 2 ^ (7 - n)) :
    (c + 1) * 64 ^ (n - 1) ≤ 2 ^ 32 := by
  have hcap : capacity n ≤ 2 ^ 31 := capacity_mono hn6
  have hmul : (c + 1) * 64 ^ (n - 1) ≤ 2 ^ (7 - n) * 64 ^ (n - 1) := Nat.mul_le_mul_right _ hc
  rw [← capacity_eq hn hn6] at hmul
  omega

theorem firstNoTrail_ok (rest : List UInt8) (fuel i : ℕ) (h : i ≤ rest.length)
    (hfuel : rest.length - i < fuel) :
    ∃ j, firstNoTrail rest fuel i = .ok j ∧ i ≤ j ∧ j ≤ rest.length := by
  induction fuel generalizing i with
  | zero => exact absurd hfuel (Nat.not_lt_zero _)
  | succ fuel ih =>
    unfold firstNoTrail
    by_cases hi : i < rest.length
    · rw [if_pos hi, readAt_ok hi]
      by_cases htrail : isTrail rest[i] = true
      · obtain ⟨j, hrun, hij, hj⟩ := ih (i + 1) hi (by omega)
        exact ⟨j, (if_pos htrail).trans hrun, by omega, hj⟩
      · exact ⟨i, if_neg htrail, le_rfl, h⟩
    · exact ⟨i, if_neg hi, le_rfl, h⟩

theorem illFormed_ok (rest : List UInt8) (fuel i : ℕ) (h : i ≤ rest.length)
    (hfuel : 5 < fuel + i) (hi5 : i ≤ 5) :
    ∃ j, illFormed rest fuel i = .ok j ∧ i ≤ j ∧ j ≤ rest.length := by
  induction fuel generalizing i with
  | zero => omega
  | succ fuel ih =>
    unfold illFormed
    by_cases hi : i < rest.length
    · rw [if_pos hi, readAt_ok hi]
      by_cases htrail : isTrail rest[i] = true ∧ i < 5
      · obtain ⟨j, hrun, hij, hj⟩ := ih (i + 1) hi (by omega) (by omega)
        exact ⟨j, (if_pos htrail).trans hrun, by omega, hj⟩
      · exact ⟨i, if_neg htrail, le_rfl, h⟩
    · exact ⟨i, if_neg hi, le_rfl, h⟩

/-! ### Characters -/

def Valid (wc : UInt32) : Prop := wc.toNat < 2 ^ 31 ∧ ¬ (0xd800 ≤ wc.toNat ∧ wc.toNat ≤ 0xdfff)

instance (wc : UInt32) : Decidable (Valid wc) := inferInstanceAs (Decidable (_ ∧ _))

def utf8 (wc : UInt32) : List UInt8 := (encode wc.toNat).map UInt8.ofNat

theorem rejected_iff (hn : n ≤ 6) :
    rejected n ch = false ↔
      (2 < n → capacity (n - 1) ≤ ch.toNat) ∧ ¬ (0xd800 ≤ ch.toNat ∧ ch.toNat ≤ 0xdfff) := by
  have hshift : 2 < n → (ch >>> (5 * n - 4).toUInt32 = 0 ↔ ch.toNat < capacity (n - 1)) := by
    intro h2
    have hk : (5 * n - 4).toUInt32.toNat % 32 = 5 * (n - 1) + 1 := by
      have hk32 : (5 * n - 4).toUInt32.toNat = 5 * n - 4 := by
        exact Nat.mod_eq_of_lt (by omega)
      omega
    rw [← UInt32.toNat_inj, UInt32.toNat_shiftRight, hk, Nat.shiftRight_eq_div_pow, UInt32.toNat_zero,
      Nat.div_eq_zero_iff_lt (Nat.two_pow_pos _), capacity, if_neg (by omega)]
  simp only [rejected, decide_eq_false_iff_not, not_or, not_and]
  constructor
  · rintro ⟨hover, hsur⟩
    refine ⟨fun h2 => not_lt.mp fun hlt => hover h2 ((hshift h2).mpr hlt), ?_⟩
    intro hlo hhi
    exact hsur (UInt32.le_iff_toNat_le.mpr hlo) (UInt32.le_iff_toNat_le.mpr hhi)
  · rintro ⟨hover, hsur⟩
    refine ⟨fun h2 h0 => absurd ((hshift h2).mp h0) (not_lt.mpr (hover h2)), ?_⟩
    intro hlo hhi
    exact hsur (UInt32.le_iff_toNat_le.mp hlo) (UInt32.le_iff_toNat_le.mp hhi)

/-- What the body does where a character begins, in terms of the forms. -/
inductive Decodes (ignoreErrors : Bool) (rest : List UInt8) : Body UInt32 → Prop where
  | char (wc : UInt32) (hv : Valid wc) (htake : rest.take (utf8 wc).length = utf8 wc) :
      Decodes ignoreErrors rest (.next (utf8 wc).length [wc])
  | incomplete : Decodes ignoreErrors rest (.stop .incompleteInput)
  | illegal (n : ℕ) (hpos : 0 < n) (hle : n ≤ rest.length) :
      Decodes ignoreErrors rest (fromLoopError ignoreErrors n)

variable {wc : UInt32}

theorem utf8_of_shortest (h : Shortest wc.toNat n) :
    utf8 wc = (form n wc.toNat).map UInt8.ofNat := by
  rw [utf8, encode, width_eq h]

theorem length_utf8 (h : Shortest wc.toNat n) : (utf8 wc).length = n := by
  rw [utf8_of_shortest h, List.length_map, length_form h.pos]

theorem map_ofNat_toNat (bs : List UInt8) : (bs.map UInt8.toNat).map UInt8.ofNat = bs := by
  simp [Function.comp_def]

/-- A first byte with the trail bytes it announces is a form. -/
theorem form_of_gather {bs : List UInt8} {c : ℕ}
    (hlead : b.toNat = mark (bs.length + 1) + c) (htrail : ∀ x ∈ bs, IsTrail x.toNat) :
    (form (bs.length + 1) (gather c (bs.map UInt8.toNat))).map UInt8.ofNat = b :: bs := by
  obtain ⟨hbytes, hdiv⟩ := trail_gather (List.forall_mem_map.mpr htrail) c
  rw [List.length_map] at hbytes hdiv
  rw [form, Nat.add_sub_cancel, hbytes, hdiv, ← hlead, List.map_cons, map_ofNat_toNat,
    UInt8.ofNat_toNat]

/-- A first byte, the trail bytes it announces and a character that is not
rejected: the bytes are its shortest form. -/
theorem char_of_trail {bs : List UInt8} (hn : 2 ≤ n) (hn6 : n ≤ 6) (hlen : bs.length = n - 1)
    (hc : c.toNat < 2 ^ (7 - n)) (hmark : b.toNat = mark n + c.toNat) (htwo : n = 2 → 2 ≤ c.toNat)
    (htrail : ∀ x ∈ bs, IsTrail x.toNat) (hch : ch.toNat = gather c.toNat (bs.map UInt8.toNat))
    (hok : rejected n ch = false) : Shortest ch.toNat n ∧ Valid ch ∧ utf8 ch = b :: bs := by
  obtain ⟨hover, hsur⟩ := (rejected_iff hn6).mp hok
  have hfits : ch.toNat < capacity n := by
    have hlt := gather_lt (bs.map UInt8.toNat) hc
    rw [← hch, List.length_map, hlen, ← capacity_eq hn hn6] at hlt
    exact hlt
  have hpred : 2 ≤ n → capacity (n - 1) ≤ ch.toNat := by
    intro _
    by_cases h2 : n = 2
    · -- Two bytes: the first one is at least 0xc2.
      have hdiv := (trail_gather (List.forall_mem_map.mpr htrail) c.toNat).2
      rw [List.length_map, hlen, ← hch, h2] at hdiv
      rw [h2]
      change 128 ≤ ch.toNat
      omega
    · exact hover (by omega)
  have hshort := shortest_of_pred (by omega) hn6 hfits hpred
  refine ⟨hshort, ⟨hfits.trans_le (capacity_mono hn6), hsur⟩, ?_⟩
  have hn1 : n = bs.length + 1 := by omega
  rw [utf8_of_shortest hshort, hch, hn1]
  rw [hn1] at hmark
  exact form_of_gather hmark htrail

variable {ignoreErrors : Bool}

theorem multiByte_decodes (hlead : leadByte b.toUInt32 = some (n, c)) (hb : 128 ≤ b.toNat) :
    ∃ out, multiByte ignoreErrors (b :: rest) n c = .ok out ∧
      Decodes ignoreErrors (b :: rest) out := by
  obtain ⟨hn, hn6, hc, hmark, htwo⟩ := leadByte_some hlead hb
  unfold multiByte
  by_cases hlen : (b :: rest).length < n
  · obtain ⟨i, hrun, hpos, hle⟩ := firstNoTrail_ok (b :: rest) ((b :: rest).length + 1) 1
      (by simp) (by omega)
    rw [if_pos hlen, hrun]
    by_cases hend : i = (b :: rest).length
    · exact ⟨_, if_pos hend, .incomplete⟩
    · exact ⟨_, if_neg hend, .illegal i hpos hle⟩
  · rw [if_neg hlen]
    rw [not_lt, List.length_cons] at hlen
    obtain ⟨j, ch, hrun, hj, hjle, hiff, hval⟩ := readTrail_ok (b :: rest) (n - 1) 1 c
      (by rw [List.length_cons]; omega) (bits_le hn hn6 hc)
    rw [hrun]
    by_cases hbad : j < n ∨ rejected n ch = true
    · exact ⟨_, if_pos hbad, .illegal j hj (by rw [List.length_cons]; omega)⟩
    · have hjn : j = 1 + (n - 1) := by omega
      have hok : rejected n ch = false := by
        rw [not_or, Bool.not_eq_true] at hbad
        exact hbad.2
      have hlenbs : (rest.take (n - 1)).length = n - 1 := by
        rw [List.length_take]
        omega
      have htrail := hiff.mp hjn
      have hgather := hval hjn
      obtain ⟨hshort, hv, hform⟩ := char_of_trail hn hn6 hlenbs hc hmark
        htwo htrail hgather hok
      refine ⟨_, if_neg hbad, ?_⟩
      have htake : (b :: rest).take (utf8 ch).length = utf8 ch := by
        rw [length_utf8 hshort, hform]
        obtain _ | m := n
        · omega
        rw [List.take_succ_cons, Nat.add_sub_cancel]
      have hchar : Decodes ignoreErrors (b :: rest) _ := .char ch hv htake
      rw [length_utf8 hshort] at hchar
      exact hchar

theorem utf8_single (h : wc.toNat < 128) :
    Shortest wc.toNat 1 ∧ Valid wc ∧ utf8 wc = [UInt8.ofNat wc.toNat] := by
  have hshort : Shortest wc.toNat 1 := shortest_of_pred le_rfl (by decide) h (by omega)
  refine ⟨hshort, ⟨by omega, by omega⟩, ?_⟩
  rw [utf8_of_shortest hshort]
  simp [form, mark, trail]

theorem utf8InternalBody_decodes (ignoreErrors : Bool) (room : ℕ) (h : 0 < rest.length) :
    ∃ out, utf8InternalBody ignoreErrors rest room = .ok out ∧ Decodes ignoreErrors rest out := by
  cases rest with
  | nil => exact absurd h (lt_irrefl 0)
  | cons b rest =>
    change ∃ out, (if b < 0x80 then _ else _) = _ ∧ _
    by_cases hb : b < 0x80
    · have hlt : b.toUInt32.toNat < 128 := by
        exact UInt8.lt_iff_toNat_lt.mp hb
      obtain ⟨-, hv, hutf⟩ := utf8_single hlt
      rw [UInt8.toNat_toUInt32, UInt8.ofNat_toNat] at hutf
      have hchar : Decodes ignoreErrors (b :: rest) _ := .char b.toUInt32 hv (by rw [hutf]; rfl)
      rw [hutf] at hchar
      exact ⟨_, if_pos hb, hchar⟩
    · rw [if_neg hb]
      rw [UInt8.lt_iff_toNat_lt, not_lt] at hb
      cases hlead : leadByte b.toUInt32 with
      | none =>
        obtain ⟨i, hrun, hpos, hle⟩ := illFormed_ok (b :: rest) 5 1 (by simp) (by decide)
          (by decide)
        simp only [hrun]
        exact ⟨_, rfl, .illegal i hpos hle⟩
      | some p => exact multiByte_decodes hlead hb

theorem map_toNat_ofNat {bs : List ℕ} (h : ∀ b ∈ bs, b < 256) :
    (bs.map UInt8.ofNat).map UInt8.toNat = bs := by
  rw [List.map_map]
  exact (List.map_congr_left fun b hb => toNat_byte (h b hb)).trans (List.map_id' bs)

/-- The first byte of a longer form and the trail bytes behind it. -/
theorem utf8_long (h : Shortest wc.toNat n) :
    utf8 wc = UInt8.ofNat (mark n + wc.toNat / 64 ^ (n - 1)) ::
      (trail (n - 1) wc.toNat).map UInt8.ofNat := by
  rw [utf8_of_shortest h, form, List.map_cons]

theorem multiByte_utf8 (ignoreErrors : Bool) (hv : Valid wc)
    (h : Shortest wc.toNat n) (hn : 2 ≤ n) (tail : List UInt8) :
    multiByte ignoreErrors (utf8 wc ++ tail) n (UInt32.ofNat (wc.toNat / 64 ^ (n - 1))) =
      .ok (.next n [wc]) := by
  have hlead := lead_lt h hn
  have hlen := length_utf8 h
  have hc : (UInt32.ofNat (wc.toNat / 64 ^ (n - 1))).toNat = wc.toNat / 64 ^ (n - 1) := by
    apply UInt32.toNat_ofNat_of_lt
    exact lt_of_le_of_lt (Nat.div_le_self _ _) wc.toNat_lt
  have hbytes : ((utf8 wc ++ tail).drop 1).take (n - 1) =
      (trail (n - 1) wc.toNat).map UInt8.ofNat := by
    rw [utf8_long h, List.cons_append, List.drop_succ_cons, List.drop_zero]
    apply List.take_left'
    rw [List.length_map, length_trail]
  have hsmall : ∀ b ∈ trail (n - 1) wc.toNat, b < 256 := by
    intro b hb
    have htrail := isTrail_of_mem_trail hb
    unfold IsTrail at htrail
    omega
  obtain ⟨j, ch, hrun, -, -, hiff, hval⟩ := readTrail_ok (utf8 wc ++ tail) (n - 1) 1
    (UInt32.ofNat (wc.toNat / 64 ^ (n - 1))) (by rw [List.length_append, hlen]; omega)
    (bits_le hn h.le (hc.symm ▸ hlead))
  rw [hbytes] at hiff hval
  have hj : j = 1 + (n - 1) := by
    apply hiff.mpr
    intro b hb
    obtain ⟨x, hx, rfl⟩ := List.mem_map.mp hb
    rw [toNat_byte (hsmall x hx)]
    exact isTrail_of_mem_trail hx
  have hch : ch = wc := by
    rw [← UInt32.toNat_inj, hval hj, map_toNat_ofNat hsmall, hc, gather_trail]
  have hok : rejected n ch = false := by
    rw [rejected_iff h.le, hch]
    exact ⟨fun h2 => h.least (n - 1) (by omega) (by omega), hv.2⟩
  unfold multiByte
  rw [if_neg (by rw [List.length_append, hlen]; omega), hrun]
  change (if j < n ∨ rejected n ch = true then _ else _) = _
  rw [if_neg (by rw [hok]; simp; omega), hch]

theorem utf8InternalBody_utf8 (ignoreErrors : Bool) (hv : Valid wc) (tail : List UInt8) (room : ℕ) :
    utf8InternalBody ignoreErrors (utf8 wc ++ tail) room = .ok (.next (utf8 wc).length [wc]) := by
  have h := shortest_width hv.1
  obtain ⟨n, hn⟩ : ∃ n, n = width wc.toNat := ⟨_, rfl⟩
  rw [← hn] at h
  rw [length_utf8 h]
  by_cases h2 : 2 ≤ n
  · have hlead := lead_lt h h2
    have hlt := mark_add_lt h2 h.le hlead
    have htwo : n = 2 → 2 ≤ wc.toNat / 64 ^ (n - 1) := by
      intro he
      have hle := h.least 1 le_rfl (by omega)
      rw [he]
      change 128 ≤ wc.toNat at hle
      omega
    have hmark : 128 ≤ mark n := by
      have hall : ∀ n, n ≤ 6 → 2 ≤ n → 128 ≤ mark n := by decide
      exact hall n h.le h2
    have hmulti := multiByte_utf8 ignoreErrors hv h h2 tail
    have hbyte := leadByte_mark h2 h.le hlead htwo
    rw [utf8_long h] at hmulti ⊢
    change (if UInt8.ofNat (mark n + wc.toNat / 64 ^ (n - 1)) < 0x80 then _ else _) = _
    rw [if_neg, hbyte]
    · exact hmulti
    · rw [UInt8.lt_iff_toNat_lt, toNat_byte hlt, not_lt]
      exact hmark.trans (Nat.le_add_right _ _)
  · have hn1 : n = 1 := by
      have hpos := h.pos
      omega
    have hfits : wc.toNat < 128 := by
      have hlt := h.fits
      rw [hn1] at hlt
      exact hlt
    obtain ⟨-, -, hutf⟩ := utf8_single hfits
    rw [hutf, hn1]
    change (if UInt8.ofNat wc.toNat < 0x80 then _ else _) = _
    rw [if_pos]
    · have hwc : (UInt8.ofNat wc.toNat).toUInt32 = wc := by
        rw [← UInt32.toNat_inj, UInt8.toNat_toUInt32, toNat_byte (by omega)]
      rw [hwc]
    · rw [UInt8.lt_iff_toNat_lt, toNat_byte (by omega)]
      exact hfits

/-! ### Writing -/

theorem testBit_mask {k i : ℕ} (hk : k < 32) :
    (~~~(0 : UInt32) <<< k.toUInt32).toNat.testBit i = (decide (k ≤ i) && decide (i < 32)) := by
  have hk32 : k.toUInt32.toNat % 32 = k := by
    rw [Nat.toUInt32, UInt32.toNat_ofNat', Nat.mod_eq_of_lt (hk.trans (by decide))]
    exact Nat.mod_eq_of_lt hk
  have hones : (~~~(0 : UInt32)).toNat = 2 ^ 32 - 1 := by decide
  rw [UInt32.toNat_shiftLeft, hk32, hones, Nat.testBit_mod_two_pow, Nat.testBit_shiftLeft,
    Nat.testBit_two_pow_sub_one]
  by_cases h1 : k ≤ i <;> by_cases h2 : i < 32 <;> simp [h1, h2]
  omega

theorem and_mask_eq_zero_iff {k : ℕ} (hk : k < 32) :
    wc &&& (~~~(0 : UInt32) <<< k.toUInt32) = 0 ↔ wc.toNat < 2 ^ k := by
  rw [← UInt32.toNat_inj, UInt32.toNat_and, UInt32.toNat_zero]
  constructor
  · intro h
    apply Nat.lt_pow_two_of_testBit
    intro i hi
    by_cases h32 : i < 32
    · have hbit : (wc.toNat &&& (~~~(0 : UInt32) <<< k.toUInt32).toNat).testBit i = false := by
        rw [h, Nat.zero_testBit]
      rw [Nat.testBit_and, testBit_mask hk] at hbit
      simpa [hi, h32] using hbit
    · exact Nat.testBit_lt_two_pow (wc.toNat_lt.trans_le (Nat.pow_le_pow_right (by decide) (by omega)))
  · intro h
    apply Nat.eq_of_testBit_eq
    intro i
    rw [Nat.testBit_and, testBit_mask hk, Nat.zero_testBit]
    by_cases hi : k ≤ i
    · rw [Nat.testBit_lt_two_pow (h.trans_le (Nat.pow_le_pow_right (by decide) hi)), Bool.false_and]
    · simp [hi]

theorem findStep_eq (hwc : wc.toNat < 2 ^ 31) (h : 128 ≤ wc.toNat) :
    findStep wc 4 2 = width wc.toNat := by
  unfold width
  simp only [findStep, and_mask_eq_zero_iff (show 5 * 2 + 1 < 32 by decide),
    and_mask_eq_zero_iff (show 5 * (2 + 1) + 1 < 32 by decide),
    and_mask_eq_zero_iff (show 5 * (2 + 1 + 1) + 1 < 32 by decide),
    and_mask_eq_zero_iff (show 5 * (2 + 1 + 1 + 1) + 1 < 32 by decide)]
  rw [if_neg (show ¬ wc.toNat < 2 ^ 7 by omega)]

theorem toNat_shiftRight_six (wc : UInt32) : (wc >>> 6).toNat = wc.toNat / 64 := by
  rw [UInt32.toNat_shiftRight, Nat.shiftRight_eq_div_pow]
  rfl

theorem trailByte_eq (wc : UInt32) :
    (0x80 ||| (wc &&& 0x3f)).toUInt8 = UInt8.ofNat (128 + wc.toNat % 64) := by
  have hmask : wc.toNat &&& 63 = wc.toNat % 64 := Nat.and_two_pow_sub_one_eq_mod wc.toNat 6
  have hor : 128 ||| wc.toNat % 64 = 128 + wc.toNat % 64 :=
    (Nat.two_pow_add_eq_or_of_lt (i := 7) (by omega) 1).symm
  rw [← UInt8.toNat_inj, UInt32.toNat_toUInt8, UInt32.toNat_or, UInt32.toNat_and,
    toNat_byte (by omega)]
  change (128 ||| (wc.toNat &&& 63)) % 256 = _
  rw [hmask, hor]
  omega

theorem writeTrail_eq (n : ℕ) (wc : UInt32) (bytes : List UInt8) :
    (writeTrail n wc bytes).1.toNat = wc.toNat / 64 ^ n ∧
      (writeTrail n wc bytes).2 = (trail n wc.toNat).map UInt8.ofNat ++ bytes := by
  induction n generalizing wc bytes with
  | zero => simp [writeTrail, trail]
  | succ n ih =>
    obtain ⟨hwc, hbytes⟩ := ih (wc >>> 6) ((0x80 ||| (wc &&& 0x3f)).toUInt8 :: bytes)
    rw [toNat_shiftRight_six] at hwc hbytes
    rw [writeTrail]
    constructor
    · rw [hwc, Nat.div_div_eq_div_mul, pow_succ']
    · rw [hbytes, trail_concat, trailByte_eq, List.map_append]
      simp

theorem writeChar_eq (h : Shortest wc.toNat n) (hn : 2 ≤ n) :
    writeChar wc n = utf8 wc := by
  have hlead := lead_lt h hn
  obtain ⟨hwc, hbytes⟩ := writeTrail_eq (n - 1) wc []
  have hall : ∀ (n : Fin 7) (c : Fin 32), 2 ≤ n.val → c.val < 2 ^ (7 - n.val) →
      leadMark n.val ||| UInt8.ofNat c.val = UInt8.ofNat (mark n.val + c.val) := by decide +kernel
  have hc32 : wc.toNat / 64 ^ (n - 1) < 32 :=
    hlead.trans_le (Nat.pow_le_pow_right (by decide) (by omega : 7 - n ≤ 5))
  have hbyte : (writeTrail (n - 1) wc []).1.toUInt8 = UInt8.ofNat (wc.toNat / 64 ^ (n - 1)) := by
    rw [← UInt8.ofNat_uInt32ToNat, hwc]
  rw [List.append_nil] at hbytes
  change (leadMark n ||| (writeTrail (n - 1) wc []).1.toUInt8) :: (writeTrail (n - 1) wc []).2 = _
  have hle := h.le
  rw [hbyte, hbytes, utf8_long h]
  congr 1
  exact hall ⟨n, by omega⟩ ⟨_, hc32⟩ hn hlead

theorem internalUtf8Body_eq (errors : ToErrors UInt32 UInt8) (hv : Valid wc)
    (rest : List UInt32) {room : ℕ} (hroom : 1 ≤ room) :
    internalUtf8Body errors (wc :: rest) room =
      .ok (if room < (utf8 wc).length then .stop .fullOutput else .next 1 (utf8 wc)) := by
  have h := shortest_width hv.1
  change (if wc < 0x80 then Except.ok (Body.next 1 [wc.toUInt8])
    else if wc ≤ 0x7fffffff ∧ (wc < 0xd800 ∨ 0xdfff < wc) then
      if room < findStep wc 4 2 then Except.ok (Body.stop .fullOutput)
      else Except.ok (Body.next 1 (writeChar wc (findStep wc 4 2)))
    else _) = _
  by_cases h1 : wc < 0x80
  · have hlt : wc.toNat < 128 := UInt32.lt_iff_toNat_lt.mp h1
    obtain ⟨-, -, hutf⟩ := utf8_single hlt
    rw [if_pos h1, hutf, if_neg (by simp; omega), UInt8.ofNat_uInt32ToNat]
  · have hge : 128 ≤ wc.toNat := by
      rw [UInt32.lt_iff_toNat_lt, not_lt] at h1
      exact h1
    have hrange : wc ≤ 0x7fffffff ∧ (wc < 0xd800 ∨ 0xdfff < wc) := by
      change wc.toNat ≤ 2147483647 ∧ (wc.toNat < 55296 ∨ 57343 < wc.toNat)
      have h31 := hv.1
      have hsur := hv.2
      omega
    have hn : 2 ≤ width wc.toNat := by
      by_contra hlt
      have hone : width wc.toNat = 1 := by
        have hpos := h.pos
        omega
      have hfits := h.fits
      rw [hone] at hfits
      change wc.toNat < 128 at hfits
      omega
    rw [if_neg h1, if_pos hrange, findStep_eq hv.1 hge, length_utf8 h, writeChar_eq h hn]
    by_cases hfull : room < width wc.toNat
    · rw [if_pos hfull, if_pos hfull]
    · rw [if_neg hfull, if_neg hfull]

/-! ### The loops -/

theorem length_utf8_pos (hv : Valid wc) : 0 < (utf8 wc).length := by
  have h := shortest_width hv.1
  rw [length_utf8 h]
  exact h.pos

theorem Decodes.within {room : ℕ} {b : Body UInt32}
    (h : Decodes ignoreErrors rest b) (hroom : 1 ≤ room) : Within rest room b := by
  cases h with
  | char wc hv htake =>
    exact .next (length_utf8_pos hv) (length_le_of_take htake) hroom
  | incomplete => exact .stop _
  | illegal n hpos hle =>
    unfold fromLoopError
    split_ifs
    · exact .ignored hpos hle
    · exact .stop _

theorem utf8Internal_sound (ignoreErrors : Bool) :
    Sound oneUnit (utf8InternalBody ignoreErrors) := by
  intro rest room hlen hroom
  obtain ⟨b, hrun, hb⟩ := utf8InternalBody_decodes ignoreErrors room hlen
  exact ⟨b, hrun, hb.within hroom⟩

/-- What a run of the decoder tells about its input. A result of
`__GCONV_EMPTY_INPUT` means that all of it was shortest forms, and so is all that
was taken if errors are not ignored. -/
structure Decoded (ignoreErrors : Bool) (rest : List UInt8) (start : Status)
    (r : Loop UInt32) : Prop where
  complete : r.result = .emptyInput → start = .emptyInput ∧ (∀ wc ∈ r.out, Valid wc) ∧
    rest = r.out.flatMap utf8 ∧ r.consumed = rest.length
  strict : ignoreErrors = false →
    (∀ wc ∈ r.out, Valid wc) ∧ rest.take r.consumed = r.out.flatMap utf8

theorem Decoded.stopped {start st : Status}
    (h : st ≠ .emptyInput) : Decoded ignoreErrors rest start ⟨0, [], 0, st⟩ where
  complete := fun hst => absurd hst h
  strict := fun _ => ⟨nofun, rfl⟩

theorem Decoded.after_char {start : Status} {r : Loop UInt32} (hv : Valid wc)
    (htake : rest.take (utf8 wc).length = utf8 wc)
    (h : Decoded ignoreErrors (rest.drop (utf8 wc).length) start r) :
    Decoded ignoreErrors rest start (r.after (utf8 wc).length [wc] 0) where
  complete := by
    intro hres
    obtain ⟨hstart, hvalid, hrest, hcons⟩ := h.complete hres
    have hsplit := List.take_append_drop (utf8 wc).length rest
    refine ⟨hstart, List.forall_mem_cons.mpr ⟨hv, hvalid⟩, ?_, ?_⟩
    · rw [← hsplit, htake, hrest]
      rfl
    · have hlen := congrArg List.length hsplit
      rw [htake, List.length_append] at hlen
      simp only [Loop.after]
      omega
  strict := by
    intro hig
    obtain ⟨hvalid, hprefix⟩ := h.strict hig
    refine ⟨List.forall_mem_cons.mpr ⟨hv, hvalid⟩, ?_⟩
    change rest.take ((utf8 wc).length + r.consumed) = utf8 wc ++ r.out.flatMap utf8
    rw [List.take_add, htake, hprefix]

theorem decode_run (ignoreErrors : Bool) (fuel : ℕ) (rest : List UInt8) (room : ℕ)
    (start : Status) (hfuel : rest.length < fuel) :
    ∃ r, loopFrom oneUnit (utf8InternalBody ignoreErrors) fuel rest room start = .ok r ∧
      Decoded ignoreErrors rest start r := by
  induction fuel generalizing rest room start with
  | zero => exact absurd hfuel (Nat.not_lt_zero _)
  | succ fuel ih =>
    by_cases hnil : rest.length = 0
    · refine ⟨_, if_pos hnil, ?_⟩
      rw [List.length_eq_zero_iff] at hnil
      subst hnil
      exact ⟨fun h => ⟨h, nofun, rfl, rfl⟩,
        fun _ => ⟨nofun, rfl⟩⟩
    have hlen : oneUnit.minInput ≤ rest.length := Nat.pos_of_ne_zero hnil
    by_cases hroom : room < 1
    · exact ⟨_, loopFrom_full hlen hroom, .stopped (by decide)⟩
    rw [not_lt] at hroom
    obtain ⟨b, hrun, hb⟩ := utf8InternalBody_decodes ignoreErrors room hlen
    cases hb with
    | incomplete => exact ⟨_, loopFrom_stop hlen hroom hrun, .stopped (by decide)⟩
    | illegal n hpos hle =>
      cases ignoreErrors with
      | false => exact ⟨_, loopFrom_stop hlen hroom hrun, .stopped (by decide)⟩
      | true =>
        obtain ⟨r, hr, hdec⟩ := ih (rest.drop n) room .illegalInput
          (by rw [List.length_drop]; omega)
        refine ⟨_, loopFrom_ignored hlen hroom hrun hle hr, ?_, fun h => absurd h (by decide)⟩
        intro hres
        exact absurd (hdec.complete hres).1 (by decide)
    | char wc hv htake =>
      have hpos := length_utf8_pos hv
      have hle := length_le_of_take htake
      obtain ⟨r, hr, hdec⟩ := ih (rest.drop (utf8 wc).length) (room - [wc].length) start
        (by rw [List.length_drop]; omega)
      exact ⟨_, loopFrom_next hlen hroom hrun hle hroom hr, hdec.after_char hv htake⟩

theorem decode_utf8 (ignoreErrors : Bool) (fuel : ℕ) (vs : List UInt32) (room : ℕ)
    (hv : ∀ wc ∈ vs, Valid wc) (hroom : vs.length ≤ room) (hfuel : (vs.flatMap utf8).length < fuel) :
    loopFrom oneUnit (utf8InternalBody ignoreErrors) fuel (vs.flatMap utf8) room .emptyInput =
      .ok ⟨(vs.flatMap utf8).length, vs, 0, .emptyInput⟩ := by
  induction vs generalizing fuel room with
  | nil =>
    obtain _ | k := fuel
    · omega
    exact loopFrom_nil k room .emptyInput
  | cons wc vs ih =>
    obtain _ | k := fuel
    · omega
    have hwc := hv wc List.mem_cons_self
    have hpos := length_utf8_pos hwc
    have hflat : (wc :: vs).flatMap utf8 = utf8 wc ++ vs.flatMap utf8 := List.flatMap_cons
    rw [List.length_cons] at hroom
    rw [hflat, List.length_append] at hfuel
    have htail := ih k (room - 1) (fun x hx => hv x (List.mem_cons_of_mem _ hx)) (by omega)
      (by omega)
    have hlen : oneUnit.minInput ≤ (utf8 wc ++ vs.flatMap utf8).length := by
      rw [List.length_append]
      exact hpos.trans_le (Nat.le_add_right _ _)
    have hone : oneUnit.minOutput ≤ room := by
      change 1 ≤ room
      omega
    have hnext : loopFrom oneUnit (utf8InternalBody ignoreErrors) (k + 1)
        (utf8 wc ++ vs.flatMap utf8) room .emptyInput =
        .ok (Loop.after (utf8 wc).length [wc] 0 ⟨(vs.flatMap utf8).length, vs, 0, .emptyInput⟩) := by
      apply loopFrom_next hlen hone
        (utf8InternalBody_utf8 ignoreErrors hwc (vs.flatMap utf8) room) _ hone
      · rw [List.drop_left]
        exact htail
      · rw [List.length_append]
        exact Nat.le_add_right _ _
    rw [hflat, hnext, List.length_append]
    rfl

theorem encode_run (errors : ToErrors UInt32 UInt8) (fuel : ℕ) (vs : List UInt32) (room : ℕ)
    (hv : ∀ wc ∈ vs, Valid wc) (hroom : (vs.flatMap utf8).length ≤ room)
    (hfuel : vs.length < fuel) :
    loopFrom oneUnit (internalUtf8Body errors) fuel vs room .emptyInput =
      .ok ⟨vs.length, vs.flatMap utf8, 0, .emptyInput⟩ := by
  induction vs generalizing fuel room with
  | nil =>
    obtain _ | k := fuel
    · omega
    exact loopFrom_nil k room .emptyInput
  | cons wc vs ih =>
    obtain _ | k := fuel
    · omega
    have hwc := hv wc List.mem_cons_self
    have hpos := length_utf8_pos hwc
    rw [List.length_cons] at hfuel
    rw [List.flatMap_cons, List.length_append] at hroom
    have htail := ih k (room - (utf8 wc).length) (fun x hx => hv x (List.mem_cons_of_mem _ hx))
      (by omega) (by omega)
    have hone : oneUnit.minOutput ≤ room := by
      change 1 ≤ room
      omega
    have hbody := internalUtf8Body_eq errors hwc vs hone
    rw [if_neg (by omega)] at hbody
    have hlen : oneUnit.minInput ≤ (wc :: vs).length := Nat.succ_pos _
    rw [loopFrom_next hlen hone hbody hlen (by omega) htail, List.flatMap_cons, List.length_cons,
      Nat.add_comm vs.length 1]
    rfl

theorem length_le_flatMap (vs : List UInt32) (hv : ∀ wc ∈ vs, Valid wc) :
    vs.length ≤ (vs.flatMap utf8).length := by
  induction vs with
  | nil => exact Nat.zero_le _
  | cons wc vs ih =>
    have hpos := length_utf8_pos (hv wc List.mem_cons_self)
    have hle := ih fun x hx => hv x (List.mem_cons_of_mem _ hx)
    rw [List.flatMap_cons, List.length_append, List.length_cons]
    omega

/-- The decoder returns on every input and for every output buffer, without a
read at or past the end, at a position inside the input; what it has taken is
shortest forms, if errors are not ignored. Given room, it takes the whole input
without an error exactly if that is a sequence of shortest forms of characters,
and then the encoder gives the input back. On every list of characters decoding
undoes encoding. -/
theorem utf8_codec (ignoreErrors : Bool) (errors : ToErrors UInt32 UInt8) :
    (∀ input room, ∃ r, utf8InternalLoop ignoreErrors input room = .ok r ∧
      r.consumed ≤ input.length ∧ r.out.length ≤ room ∧
      (ignoreErrors = false →
        (∀ wc ∈ r.out, Valid wc) ∧ input.take r.consumed = r.out.flatMap utf8) ∧
      (input.length ≤ room → ((r.result = .emptyInput ∧ r.consumed = input.length) ↔
        ∃ vs : List UInt32, (∀ wc ∈ vs, Valid wc) ∧ input = vs.flatMap utf8)) ∧
      (r.result = .emptyInput → ∀ room', input.length ≤ room' →
        internalUtf8Loop errors r.out room' = .ok ⟨r.out.length, input, 0, .emptyInput⟩)) ∧
    ∀ vs : List UInt32, (∀ wc ∈ vs, Valid wc) → ∀ room room',
      (vs.flatMap utf8).length ≤ room → vs.length ≤ room' →
      internalUtf8Loop errors vs room = .ok ⟨vs.length, vs.flatMap utf8, 0, .emptyInput⟩ ∧
      utf8InternalLoop ignoreErrors (vs.flatMap utf8) room' =
        .ok ⟨(vs.flatMap utf8).length, vs, 0, .emptyInput⟩ := by
  refine ⟨fun input room => ?_, fun vs hv room room' hroom hroom' => ?_⟩
  swap
  · exact ⟨encode_run errors _ vs room hv hroom (Nat.lt_succ_self _),
      decode_utf8 ignoreErrors _ vs room' hv hroom' (Nat.lt_succ_self _)⟩
  obtain ⟨r, hrun, hdec⟩ := decode_run ignoreErrors (input.length + 1) input room .emptyInput
    (Nat.lt_succ_self _)
  obtain ⟨r', hrun', hinside⟩ := loopFrom_inside (utf8Internal_sound ignoreErrors)
    (input.length + 1) input room .emptyInput (Nat.lt_succ_self _)
  cases hrun.symm.trans hrun'
  refine ⟨r, hrun, hinside.consumed, hinside.out, hdec.strict, ?_, ?_⟩
  · intro hroom
    constructor
    · rintro ⟨hres, -⟩
      obtain ⟨-, hv, hinput, -⟩ := hdec.complete hres
      exact ⟨r.out, hv, hinput⟩
    · rintro ⟨vs, hv, rfl⟩
      have hall := decode_utf8 ignoreErrors _ vs room hv ((length_le_flatMap _ hv).trans hroom)
        (Nat.lt_succ_self _)
      cases hrun.symm.trans hall
      exact ⟨rfl, rfl⟩
  · intro hres room' hroom'
    obtain ⟨-, hv, hinput, -⟩ := hdec.complete hres
    have henc := encode_run errors _ r.out room' hv (hinput ▸ hroom') (Nat.lt_succ_self _)
    rw [← hinput] at henc
    exact henc

def letterAndEuro : List UInt32 := [0x41, 0x20ac]

theorem utf8_codec_euro :
    (∀ wc ∈ letterAndEuro, Valid wc) ∧
      utf8InternalLoop false (letterAndEuro.flatMap utf8) 2 =
        .ok ⟨(letterAndEuro.flatMap utf8).length, letterAndEuro, 0, .emptyInput⟩ := by
  have hv : ∀ wc ∈ letterAndEuro, Valid wc :=
    List.forall_mem_cons.mpr ⟨⟨by decide, by decide⟩,
      List.forall_mem_singleton.mpr ⟨by decide, by decide⟩⟩
  have hlen : letterAndEuro.length ≤ 2 := by decide
  exact ⟨hv, ((utf8_codec false ⟨false, none, false⟩).2 letterAndEuro hv _ 2 le_rfl hlen).2⟩

end AwaitGlibc.Gconv

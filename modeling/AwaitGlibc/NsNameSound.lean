import AwaitGlibc.CheckedArray
import AwaitGlibc.NsName

/-!
# Packed names unpack to themselves

What a place in the message reads as: labels up to the root or to a compression
pointer, and then what the pointer refers to. A pointer refers to a name that has
ended before the name with the pointer begins. So the octets read for one name are
all different ones, which is what the check for loops in `ns_name_unpack` counts
on.
-/
namespace AwaitGlibc.NsName

/-! ### Names -/

def LabelOk (label : List UInt8) : Prop := 0 < label.length ∧ label.length < 64

def wireLabels (ls : List (List UInt8)) : List UInt8 :=
  ls.flatMap fun l => UInt8.ofNat l.length :: l

def wire (ls : List (List UInt8)) : List UInt8 := wireLabels ls ++ [0]

structure ValidName (ls : List (List UInt8)) : Prop where
  label : ∀ l ∈ ls, LabelOk l
  length : (wire ls).length ≤ maxcdname

/-- Names up to the case of ASCII letters. -/
def fold (ls : List (List UInt8)) : List (List UInt8) := ls.map (List.map mklower)

theorem wireLabels_cons (l : List UInt8) (ls : List (List UInt8)) :
    wireLabels (l :: ls) = UInt8.ofNat l.length :: l ++ wireLabels ls := rfl

theorem wire_nil : wire [] = [0] := rfl

theorem wire_cons (l : List UInt8) (ls : List (List UInt8)) :
    wire (l :: ls) = UInt8.ofNat l.length :: l ++ wire ls := by
  rw [wire, wireLabels_cons, List.append_assoc]
  rfl

theorem length_wire_cons (l : List UInt8) (ls : List (List UInt8)) :
    (wire (l :: ls)).length = l.length + 1 + (wire ls).length := by
  rw [wire_cons, List.length_append, List.length_cons]

theorem length_wire_pos (ls : List (List UInt8)) : 0 < (wire ls).length := by
  rw [wire, List.length_append]
  exact Nat.succ_pos _

theorem length_lt_wire (ls : List (List UInt8)) : ls.length < (wire ls).length := by
  induction ls with
  | nil => exact Nat.one_pos
  | cons l ls ih =>
    rw [length_wire_cons, List.length_cons]
    omega

theorem lengthOctet : ∀ {n : ℕ}, n < 64 →
    (UInt8.ofNat n).toNat = n ∧ UInt8.ofNat n &&& cmprsflgs = 0 ∧ ¬ 64 ≤ UInt8.ofNat n ∧
      (UInt8.ofNat n = 0 ↔ n = 0) := by
  decide +kernel

theorem LabelOk.octet_ne_zero {l : List UInt8} (h : LabelOk l) : UInt8.ofNat l.length ≠ 0 := by
  intro h0
  exact h.1.ne' ((lengthOctet h.2).2.2.2.mp h0)

theorem pointerOctet : ∀ {n : ℕ}, n < 64 →
    UInt8.ofNat n ||| cmprsflgs ≠ 0 ∧ (UInt8.ofNat n ||| cmprsflgs) &&& cmprsflgs ≠ 0 ∧
      (UInt8.ofNat n ||| cmprsflgs) &&& cmprsflgs = cmprsflgs ∧
      ((UInt8.ofNat n ||| cmprsflgs) &&& 0x3f).toNat = n := by
  decide +kernel

theorem high_lt {t : ℕ} (h : t < offsetLimit) : t / 256 < 64 := Nat.div_lt_of_lt_mul h

theorem target_pointer {t : ℕ} (h : t < offsetLimit) :
    target (UInt8.ofNat (t / 256) ||| cmprsflgs) (UInt8.ofNat (t % 256)) = t := by
  have hlow : (UInt8.ofNat (t % 256)).toNat = t % 256 := by
    rw [UInt8.toNat_ofNat']
    omega
  rw [target, (pointerOctet (high_lt h)).2.2.2, hlow]
  omega

/-! ### What a place in the message reads as -/

/-- The labels `ls` are read at `off`. The name there ends before `stop`; what its
pointer refers to, if it has one, has ended before `limit`; `cost` octets are read
in all. -/
inductive At (msg : List UInt8) : ℕ → ℕ → ℕ → List (List UInt8) → ℕ → Prop where
  | root {off : ℕ} (h : msg[off]? = some 0) : At msg off (off + 1) 0 [] 1
  | label {off stop limit cost : ℕ} {l : List UInt8} {ls : List (List UInt8)} (hl : LabelOk l)
      (h : msg[off]? = some (UInt8.ofNat l.length)) (hcopy : (msg.drop (off + 1)).take l.length = l)
      (hlimit : limit ≤ off) (hr : At msg (off + l.length + 1) stop limit ls cost) :
      At msg off stop limit (l :: ls) (l.length + 1 + cost)
  | pointer {off t stop limit cost : ℕ} {ls : List (List UInt8)} (ht : t < offsetLimit)
      (h : msg[off]? = some (UInt8.ofNat (t / 256) ||| cmprsflgs))
      (hlow : msg[off + 1]? = some (UInt8.ofNat (t % 256))) (hstop : stop ≤ off)
      (hr : At msg t stop limit ls cost) : At msg off (off + 2) stop ls (2 + cost)

variable {msg : List UInt8} {off stop limit cost : ℕ} {ls : List (List UInt8)}

section
variable (h : At msg off stop limit ls cost)
include h

theorem At.bounds :
    off < stop ∧ stop ≤ msg.length ∧ limit ≤ off ∧ cost ≤ stop - off + limit ∧ 0 < cost := by
  induction h with
  | root h =>
    have hlt := (List.getElem?_eq_some_iff.mp h).1
    omega
  | label hl h hcopy hlimit hr ih => omega
  | pointer ht h hlow hstop hr ih =>
    have hlt := (List.getElem?_eq_some_iff.mp hlow).1
    omega

theorem At.append (more : List UInt8) : At (msg ++ more) off stop limit ls cost := by
  have hget : ∀ {i : ℕ} {c : UInt8}, msg[i]? = some c → (msg ++ more)[i]? = some c := by
    intro i c hi
    rw [List.getElem?_append_left (List.getElem?_eq_some_iff.mp hi).1, hi]
  induction h with
  | root h => exact .root (hget h)
  | label hl h hcopy hlimit hr ih =>
    have hbound := hr.bounds
    refine .label hl (hget h) ?_ hlimit ih
    rw [List.drop_append_of_le_length (by omega), List.take_append_of_le_length, hcopy]
    rw [List.length_drop]
    omega
  | pointer ht h hlow hstop hr ih => exact .pointer ht (hget h) (hget hlow) hstop ih

theorem At.nil_iff : msg[off]? = some 0 → ls = [] := by
  intro h0
  cases h with
  | root => rfl
  | label hl h =>
    rw [h0, Option.some.injEq] at h
    exact absurd h.symm hl.octet_ne_zero
  | pointer ht h =>
    rw [h0, Option.some.injEq] at h
    exact absurd h.symm (pointerOctet (high_lt ht)).1

end

/-! ### Unpacking -/

variable {i : ℕ}

theorem readMessage_ok {c : UInt8} (h : msg[i]? = some c) : readMessage msg i = .ok c := by
  rw [readMessage, h]

variable {src : List UInt8}

theorem readName_ok {c : UInt8} (h : src[i]? = some c) :
    readName src i = .ok c := by
  rw [readName, h]

theorem unpackLoop_at (h : At msg off stop limit ls cost) (src dstsiz fuel checked : ℕ) (len : ℤ)
    (out : List UInt8) (hchecked : checked + cost ≤ msg.length)
    (hroom : out.length + (wire ls).length ≤ dstsiz) (hfuel : cost ≤ fuel)
    (hsrc : len < 0 → src ≤ off) :
    unpackLoop msg src dstsiz fuel ⟨len, checked, off, out⟩ =
      .ok (some (out ++ wire ls, if len < 0 then (stop : ℤ) - src else len)) := by
  induction h generalizing fuel checked len out with
  | @root off h =>
    obtain _ | fuel := fuel
    · omega
    rw [wire_nil, List.length_singleton] at hroom
    rw [unpackLoop, readMessage_ok h]
    have hfits : ¬ dstsiz ≤ out.length := by omega
    dsimp only [Bind.bind, Except.bind]
    rw [if_pos rfl, if_neg hfits, wire_nil, Nat.cast_add_one]
  | @label off stop limit cost l ls hl h hcopy hlimit hr ih =>
    obtain _ | fuel := fuel
    · omega
    have hbound := hr.bounds
    have hpos := length_wire_pos ls
    rw [length_wire_cons] at hroom
    obtain ⟨hnat, hflags, hsmall, -⟩ := lengthOctet hl.2
    rw [unpackLoop, readMessage_ok h]
    refine (if_neg hl.octet_ne_zero).trans ((if_pos hflags).trans ((if_neg hsmall).trans ?_))
    have hfits : ¬ (dstsiz - out.length ≤ l.length + 1 ∨ msg.length - (off + 1) ≤ l.length) := by
      omega
    rw [hnat]
    refine (if_neg hfits).trans ?_
    rw [hcopy]
    have hnext := ih fuel (checked + (l.length + 1)) len
      (out ++ UInt8.ofNat l.length :: l) (by omega)
      (by rw [List.length_append, List.length_cons]; omega) (by omega) (by omega)
    have hoff : off + 1 + l.length = off + l.length + 1 := by omega
    simp only [hoff]
    rw [hnext, wire_cons, List.append_assoc]
  | @pointer off t stop limit cost ls ht h hlow hstop hr ih =>
    obtain _ | fuel := fuel
    · omega
    have hbound := hr.bounds
    have hlt := (List.getElem?_eq_some_iff.mp hlow).1
    obtain ⟨hne, hflags, hpointer, -⟩ := pointerOctet (high_lt ht)
    rw [unpackLoop, readMessage_ok h]
    have hinside : ¬ msg.length ≤ off + 1 := by omega
    refine (if_neg hne).trans ((if_neg hflags).trans ((if_pos hpointer).trans
      ((if_neg hinside).trans ?_)))
    rw [readMessage_ok hlow, ok_bind, target_pointer ht]
    have hback : ¬ msg.length ≤ t := by omega
    have hloop : ¬ msg.length ≤ checked + 2 := by omega
    refine (if_neg hback).trans ((if_neg hloop).trans ?_)
    -- From here on `len` is known.
    have hlen : ¬ (if len < 0 then ((off + 1 : ℕ) : ℤ) - src + 1 else len) < 0 := by
      split_ifs with hneg
      · omega
      · exact hneg
    refine (ih fuel (checked + 2) _ out (by omega) hroom (by omega)
      fun hneg => absurd hneg hlen).trans ?_
    rw [if_neg hlen]
    push_cast
    split_ifs <;> ring_nf

theorem nsNameUnpack_at (h : At msg off stop limit ls cost) {dstsiz : ℕ}
    (hroom : (wire ls).length ≤ dstsiz) :
    nsNameUnpack msg off dstsiz = .ok (some (wire ls, (stop : ℤ) - off)) := by
  have hbound := h.bounds
  have hinside : ¬ msg.length ≤ off := by omega
  refine (if_neg hinside).trans ?_
  refine (unpackLoop_at h off dstsiz (msg.length + 1) 0 (-1) [] (by omega)
    (by simpa using hroom) (by omega) fun _ => le_rfl).trans ?_
  rfl

variable {α : Type} {ds : List (List UInt8)} {msg : List UInt8} {size : ℕ} {es : List ℕ}

/-! ### Search -/

theorem getElem?_of_drop {xs ys : List α} {x : α} (h : xs.drop i = x :: ys) : xs[i]? = some x := by
  have h0 : (xs.drop i)[0]? = xs[i]? := by rw [List.getElem?_drop, Nat.add_zero]
  rw [← h0, h]
  rfl

theorem drop_of_drop {xs ys zs : List α} (h : xs.drop i = ys ++ zs) :
    xs.drop (i + ys.length) = zs := by
  rw [← List.drop_drop, h, List.drop_left]

theorem drop_succ_of_drop {xs zs : List α} {x : α} (h : xs.drop i = x :: zs) :
    xs.drop (i + 1) = zs := by
  rw [← List.drop_drop, h]
  rfl

theorem sameLabel_ok (src msg a b : List UInt8) (dn cp : ℕ) {as bs : List UInt8}
    (hlen : a.length = b.length) (ha : src.drop dn = a ++ as) (hb : msg.drop cp = b ++ bs) :
    sameLabel src msg b.length dn cp = .ok (decide (a.map mklower = b.map mklower)) := by
  induction b generalizing a dn cp with
  | nil =>
    obtain rfl := List.eq_nil_of_length_eq_zero hlen
    rfl
  | cons y b ih =>
    cases a with
    | nil => cases hlen
    | cons x a =>
      have hx := getElem?_of_drop ha
      have hy := getElem?_of_drop hb
      have ha' : src.drop (dn + 1) = a ++ as := drop_succ_of_drop ha
      have hb' : msg.drop (cp + 1) = b ++ bs := drop_succ_of_drop hb
      rw [List.length_cons, sameLabel, readName_ok hx, ok_bind, readMessage_ok hy, ok_bind]
      by_cases heq : mklower x = mklower y
      · rw [if_neg (not_not.mpr heq), ih a (dn + 1) (cp + 1) (Nat.succ.inj hlen) ha' hb']
        simp [heq]
      · simp [heq]

/-- The labels that follow `dn` in the name that is packed. -/
def Follows (src : List UInt8) (dn : ℕ) (ds : List (List UInt8)) : Prop :=
  src.drop dn = wire ds ∧ ∀ l ∈ ds, LabelOk l

variable {d : List UInt8}

theorem Follows.head {dn : ℕ} (h : Follows src dn (d :: ds)) :
    LabelOk d ∧ src[dn]? = some (UInt8.ofNat d.length) ∧ src.drop (dn + 1) = d ++ wire ds ∧
      Follows src (dn + 1 + d.length) ds := by
  obtain ⟨hdrop, hok⟩ := h
  rw [wire_cons, List.cons_append] at hdrop
  have hnext : src.drop (dn + 1) = d ++ wire ds :=
    drop_succ_of_drop hdrop
  exact ⟨hok d List.mem_cons_self, getElem?_of_drop hdrop, hnext, drop_of_drop hnext,
    fun l hl => hok l (List.mem_cons_of_mem _ hl)⟩

/-- The octet at the end of a label is zero just at the end of the name. -/
theorem Follows.octet {dn : ℕ} (h : Follows src dn ds) :
    ∃ c, src[dn]? = some c ∧ (c = 0 ↔ ds = []) := by
  cases ds with
  | nil => exact ⟨0, getElem?_of_drop (h.1.trans wire_nil), by simp⟩
  | cons d ds =>
    obtain ⟨hd, hget, -⟩ := h.head
    exact ⟨_, hget, by simp [hd.octet_ne_zero]⟩

section
variable (h : At msg off stop limit ls cost) (fuel dn : ℕ) (hds : Follows src dn ds) (hne : ds ≠ [])
  (hfuel : cost ≤ fuel)
include h fuel dn hds hne hfuel

theorem compareName_ok :
    ∃ r, compareName src msg fuel dn off = .ok r ∧ r ≠ .illegal ∧
      (r = .found → fold ls = fold ds) := by
  induction h generalizing fuel dn ds with
  | root h =>
    obtain _ | fuel := fuel
    · omega
    rw [compareName, readMessage_ok h]
    exact ⟨.next, rfl, nofun, nofun⟩
  | @label off stop limit cost l ls hl h hcopy hlimit hr ih =>
    obtain _ | fuel := fuel
    · omega
    obtain ⟨d, ds, rfl⟩ := List.exists_cons_of_ne_nil hne
    obtain ⟨hd, hget, hsrc, hnext⟩ := hds.head
    obtain ⟨hnat, hflags, -, -⟩ := lengthOctet hl.2
    obtain ⟨hdnat, -⟩ := lengthOctet hd.2
    have hbound := hr.bounds
    have skip : ∃ r, (.ok .next : Except Fault Comparison) = .ok r ∧ r ≠ .illegal ∧
        (r = .found → fold (l :: ls) = fold (d :: ds)) :=
      ⟨.next, rfl, nofun, nofun⟩
    rw [compareName, readMessage_ok h, ok_bind]
    rw [if_neg hl.octet_ne_zero, if_pos hflags, readName_ok hget, ok_bind]
    by_cases hlen : UInt8.ofNat l.length = UInt8.ofNat d.length
    · have hlen' : d.length = l.length := by rw [← hnat, hlen, hdnat]
      have hmsg : msg.drop (off + 1) = l ++ (msg.drop (off + 1)).drop l.length := by
        exact (List.take_append_drop l.length _).symm.trans (by rw [hcopy])
      rw [if_neg (not_not.mpr hlen), hnat, sameLabel_ok src msg d l (dn + 1) (off + 1) hlen' hsrc hmsg, ok_bind]
      by_cases hsame : d.map mklower = l.map mklower
      · have hfold : fold ls = fold ds → fold (l :: ls) = fold (d :: ds) := by
          intro heq
          rw [fold, fold, List.map_cons, List.map_cons, hsame]
          exact congrArg _ heq
        rw [hlen'] at hnext
        obtain ⟨a, ha, ha0⟩ := hnext.octet
        obtain ⟨b, hb⟩ : ∃ b, msg[off + 1 + l.length]? = some b :=
          ⟨_, List.getElem?_eq_getElem (by omega)⟩
        rw [if_neg (by simp [hsame]), readName_ok ha, ok_bind, readMessage_ok hb, ok_bind]
        have hplace : off + 1 + l.length = off + l.length + 1 := by omega
        rw [hplace] at hb ⊢
        by_cases hends : a = 0 ∧ b = 0
        · rw [if_pos hends]
          refine ⟨.found, rfl, nofun, fun _ => hfold ?_⟩
          rw [ha0.mp hends.1, hr.nil_iff (hends.2 ▸ hb)]
        · rw [if_neg hends]
          by_cases hmore : a = 0
          · rw [if_neg (not_not.mpr hmore)]
            exact skip
          · rw [if_pos hmore]
            obtain ⟨r, hrun, hlegal, hfound⟩ :=
              ih fuel (dn + 1 + l.length) hnext (fun hnil => hmore (ha0.mpr hnil)) (by omega)
            exact ⟨r, hrun, hlegal, fun heq => hfold (hfound heq)⟩
      · rw [if_pos (decide_eq_false hsame)]
        exact skip
    · rw [if_pos hlen]
      exact skip
  | @pointer off t stop limit cost ls ht h hlow hstop hr ih =>
    obtain _ | fuel := fuel
    · omega
    obtain ⟨hnz, hflags, hpointer, -⟩ := pointerOctet (high_lt ht)
    rw [compareName, readMessage_ok h, ok_bind]
    rw [if_neg hnz, if_neg hflags, if_pos hpointer, readMessage_ok hlow]
    change ∃ r, compareName src msg fuel dn (target _ _) = _ ∧ _
    rw [target_pointer ht]
    exact ih fuel dn hds hne (by omega)

theorem searchSuffixes_ok :
    ∃ r, searchSuffixes src msg dn fuel off = .ok r ∧ r ≠ .failed ∧
      ∀ t, r = .offset t → t < offsetLimit ∧
        ∃ ls' cost', At msg t stop limit ls' cost' ∧ fold ls' = fold ds := by
  induction h generalizing fuel with
  | root h =>
    obtain _ | fuel := fuel
    · omega
    rw [searchSuffixes, readMessage_ok h]
    exact ⟨.exhausted, rfl, nofun, nofun⟩
  | @label off stop limit cost l ls hl h hcopy hlimit hr ih =>
    obtain _ | fuel := fuel
    · omega
    have hat : At msg off stop limit (l :: ls) (l.length + 1 + cost) :=
      .label hl h hcopy hlimit hr
    have hbound := hat.bounds
    obtain ⟨hnat, hflags, -, -⟩ := lengthOctet hl.2
    rw [searchSuffixes, readMessage_ok h, ok_bind]
    by_cases hoff : off < offsetLimit
    · obtain ⟨r, hrun, hlegal, hfound⟩ :=
        compareName_ok hat (msg.length + 1) dn hds hne (by omega)
      rw [if_pos ⟨hl.octet_ne_zero, hflags, hoff⟩, hrun]
      cases r with
      | found =>
        refine ⟨.offset off, rfl, nofun, fun t ht => ?_⟩
        cases ht
        exact ⟨hoff, _, _, hat, hfound rfl⟩
      | illegal => exact absurd rfl hlegal
      | next =>
        rw [hnat]
        exact ih fuel (by omega)
    · rw [if_neg fun hc => hoff hc.2.2]
      exact ⟨.exhausted, rfl, nofun, nofun⟩
  | @pointer off t stop limit cost ls ht h hlow hstop hr ih =>
    obtain _ | fuel := fuel
    · omega
    have hflags := (pointerOctet (high_lt ht)).2.1
    rw [searchSuffixes, readMessage_ok h]
    refine ⟨.exhausted, if_neg fun hc => hflags hc.2.1, nofun,
      nofun⟩

end

/-- The labels `ds` can be read, up to case, by a pointer to `t`, and have ended before `bound`. -/
def Reads (msg : List UInt8) (bound : ℕ) (ds : List (List UInt8)) (t : ℕ) : Prop :=
  t < offsetLimit ∧ ∃ stop limit ls cost, At msg t stop limit ls cost ∧ stop ≤ bound ∧
    fold ls = fold ds

/-- What an entry of the table refers to: a name that has ended before `bound`. -/
def Refers (msg : List UInt8) (bound p : ℕ) : Prop :=
  ∃ stop limit ls cost, At msg p stop limit ls cost ∧ stop ≤ bound

theorem searchTable_ok {bound : ℕ} (dnptrs : List (Option ℕ)) (es : List ℕ) (dn cpp : ℕ)
    (hds : Follows src dn ds) (hne : ds ≠ []) (hes : ∀ p ∈ es, Refers msg bound p)
    (hentries : ∀ i, i < es.length → dnptrs[cpp + i]? = some (some (es.getD i 0))) :
    ∃ r, searchTable src msg dn dnptrs es.length cpp = .ok r ∧
      ∀ t, r = some t → Reads msg bound ds t := by
  induction es generalizing cpp with
  | nil => exact ⟨none, rfl, fun t ht => by cases ht⟩
  | cons p es ih =>
    obtain ⟨stop, limit, ls, cost, hat, hstop⟩ := hes p List.mem_cons_self
    have hbound := hat.bounds
    obtain ⟨r, hrun, hlegal, hoffset⟩ :=
      searchSuffixes_ok hat (msg.length + 1) dn hds hne (by omega)
    have hfirst : dnptrs[cpp]? = some (some p) := by
      simpa using hentries 0 (Nat.succ_pos _)
    rw [List.length_cons, searchTable, hfirst]
    change ∃ r, (searchSuffixes src msg dn (msg.length + 1) p >>= _) = _ ∧ _
    rw [hrun]
    cases r with
    | offset l =>
      refine ⟨some l, rfl, fun t ht => ?_⟩
      cases ht
      obtain ⟨hlt, ls', cost', hat', heq⟩ := hoffset l rfl
      exact ⟨hlt, stop, limit, ls', cost', hat', hstop, heq⟩
    | failed => exact absurd rfl hlegal
    | exhausted =>
      refine ih (cpp + 1) (fun q hq => hes q (List.mem_cons_of_mem _ hq)) fun i hi => ?_
      have hnext := hentries (i + 1) (Nat.succ_lt_succ hi)
      rwa [List.getD_cons_succ, ← Nat.add_assoc, Nat.add_right_comm] at hnext

/-! ### The table -/

/-- A table of `size` pointers: the message, the entries and a null pointer. -/
def Shape (size : ℕ) (dnptrs : List (Option ℕ)) (es : List ℕ) : Prop :=
  ∃ rest, dnptrs = some 0 :: (es.map some ++ none :: rest) ∧ dnptrs.length = size

section Shape
variable {size p : ℕ} {t : List (Option ℕ)} {es : List ℕ}

theorem Shape.length (h : Shape size t es) : t.length = size := by
  obtain ⟨-, -, hlen⟩ := h
  exact hlen

theorem Shape.entry (now : List ℕ) (h : Shape size t (es ++ now)) (hi : i < es.length) :
    t[1 + i]? = some (some (es.getD i 0)) := by
  obtain ⟨rest, rfl, -⟩ := h
  rw [Nat.add_comm, List.getElem?_cons_succ, List.map_append, List.append_assoc,
    List.getElem?_append_left (by rwa [List.length_map]), List.getElem?_map,
    List.getElem?_eq_getElem hi, List.getD_eq_getElem _ _ hi]
  rfl

theorem Shape.end_null (h : Shape size t es) :
    t[es.length + 1]? = some none ∧ es.length + 1 < t.length := by
  obtain ⟨rest, rfl, -⟩ := h
  constructor
  · simp
  · simp

theorem endOfList_ok (h : Shape size t es) (fuel i : ℕ) (hi : i ≤ es.length)
    (hfuel : es.length - i < fuel) : endOfList t fuel (1 + i) = .ok (es.length + 1) := by
  induction fuel generalizing i with
  | zero => exact absurd hfuel (Nat.not_lt_zero _)
  | succ fuel ih =>
    rw [endOfList]
    by_cases hlast : i = es.length
    · rw [hlast, Nat.add_comm, h.end_null.1]
    · have hget : t[1 + i]? = some (some (es.getD i 0)) :=
        Shape.entry [] (by rwa [List.append_nil]) (by omega)
      rw [hget]
      exact ih (i + 1) (by omega) (by omega)

theorem Shape.push (h : Shape size t es) (hroom : es.length + 2 < size) :
    Shape size ((t.set (es.length + 1) (some p)).set (es.length + 2) none) (es ++ [p]) := by
  obtain ⟨rest, rfl, hlen⟩ := h
  have hrest : ∃ x rest', rest = x :: rest' := by
    cases rest with
    | nil =>
      simp at hlen
      omega
    | cons x rest' => exact ⟨x, rest', rfl⟩
  obtain ⟨x, rest', rfl⟩ := hrest
  refine ⟨rest', ?_, by simpa using hlen⟩
  have hmap : (es.map some).length = es.length := List.length_map ..
  rw [List.set_cons_succ, List.set_cons_succ, List.set_append_right _ _ (by omega), hmap,
    Nat.sub_self, List.set_cons_zero, List.set_append_right _ _ (by omega), hmap,
    Nat.add_sub_cancel_left, List.set_cons_succ, List.set_cons_zero, List.map_append,
    List.append_assoc]
  rfl

theorem Shape.restore {now : List ℕ} (h : Shape size t (es ++ now)) :
    Shape size (t.set (es.length + 1) none) es := by
  obtain ⟨rest, rfl, hlen⟩ := h
  have hmap : (es.map some).length = es.length := List.length_map ..
  rw [List.map_append, List.append_assoc] at hlen ⊢
  obtain ⟨x, rest', heq⟩ : ∃ x rest', now.map some ++ none :: rest = x :: rest' :=
    List.exists_cons_of_ne_nil (by simp)
  rw [heq] at hlen ⊢
  refine ⟨rest', ?_, by simpa using hlen⟩
  rw [List.set_cons_succ, List.set_append_right _ _ (by omega), hmap, Nat.sub_self,
    List.set_cons_zero]

end Shape

/-! ### Packing -/

theorem isLegal_ok (fuel srcp l : ℕ) (h : Follows src srcp ds)
    (hlen : l + (wire ds).length ≤ maxcdname) (hfuel : ds.length < fuel) :
    isLegal src fuel srcp l = .ok true := by
  induction ds generalizing fuel srcp l with
  | nil =>
    obtain _ | fuel := fuel
    · omega
    have hget := getElem?_of_drop (h.1.trans wire_nil)
    have hfits : ¬ maxcdname < l + ((0 : UInt8).toNat + 1) := by
      exact Nat.not_lt.mpr hlen
    rw [isLegal, readName_ok hget]
    dsimp only [Bind.bind, Except.bind]
    rw [if_neg (by decide), if_neg hfits, if_pos rfl]
  | cons d ds ih =>
    obtain _ | fuel := fuel
    · omega
    obtain ⟨hd, hget, -, hnext⟩ := h.head
    obtain ⟨hnat, -, hsmall, -⟩ := lengthOctet hd.2
    rw [length_wire_cons] at hlen
    rw [List.length_cons] at hfuel
    rw [isLegal, readName_ok hget, ok_bind]
    rw [if_neg hsmall, hnat, if_neg (by omega), if_neg hd.octet_ne_zero]
    have hplace : srcp + (d.length + 1) = srcp + 1 + d.length := by omega
    rw [hplace]
    exact ih fuel (srcp + 1 + d.length) (l + (d.length + 1)) hnext (by omega) (by omega)

theorem copyLabel_ok {srcp : ℕ} (h : Follows src srcp (d :: ds)) :
    copyLabel src srcp d.length = .ok (UInt8.ofNat d.length :: d) := by
  have hdrop := h.1
  rw [wire_cons] at hdrop
  have hlen := congrArg List.length hdrop
  rw [List.length_drop, List.length_append, List.length_cons] at hlen
  unfold copyLabel
  rw [if_pos (by omega), hdrop]
  congr 1
  simp

theorem copyLabel_root {srcp : ℕ} (h : Follows src srcp []) :
    copyLabel src srcp 0 = .ok [0] := by
  have hdrop := h.1
  rw [wire_nil] at hdrop
  have hlen := congrArg List.length hdrop
  rw [List.length_drop, List.length_singleton] at hlen
  unfold copyLabel
  rw [if_pos (by omega), hdrop]
  rfl

/-- What is written for the labels `ds` at a place: all of them, or some and a
pointer to an earlier place. -/
def Written (start : ℕ) (ds : List (List UInt8)) (tail : List UInt8) : Prop :=
  tail = wire ds ∨ ∃ K t, K <+: ds ∧ tail = wireLabels K ++ pointerTo t ∧ t < start ∧
    t < offsetLimit

theorem Written.cons {start : ℕ} {tail : List UInt8} (h : Written start ds tail) (d : List UInt8) :
    Written start (d :: ds) (UInt8.ofNat d.length :: d ++ tail) := by
  obtain rfl | ⟨K, t, hK, rfl, ht⟩ := h
  · exact .inl (wire_cons d ds).symm
  · refine .inr ⟨d :: K, t, List.cons_prefix_cons.mpr ⟨rfl, hK⟩, ?_, ht⟩
    rw [wireLabels_cons, List.append_assoc]

/-- What the loop has to do with: the entries `es` before the call, those `now`,
and the labels `ds` that are still to be written after `out`. -/
structure Work (j : Job) (size srcp : ℕ) (es now : List ℕ) (e : Entries)
    (ds : List (List UInt8)) : Prop where
  lpp : j.lpp = some (es.length + 1)
  last : j.lastdnptr = some size
  refers : ∀ p ∈ es, Refers j.msg j.msg.length p
  shape : Shape size e.dnptrs now
  cpp : e.cpp = now.length + 1
  grown : ∃ new, now = es ++ new
  first : e.first = true → now = es
  labels : Follows j.src srcp ds

structure Success (j : Job) (size : ℕ) (es now : List ℕ) (first : Bool) (out : List UInt8)
    (ds : List (List UInt8)) (r : Packed) : Prop where
  result : r.result = r.out.length
  written : ∃ tail, r.out = out ++ tail ∧ Written j.msg.length ds tail
  reads : ∃ limit ls cost, At (j.msg ++ r.out) (j.msg.length + out.length)
    (j.msg.length + r.out.length) limit ls cost ∧ limit ≤ j.msg.length ∧ fold ls = fold ds
  table : Shape size r.dnptrs now ∨ first = true ∧ ∃ p, Shape size r.dnptrs (es ++ [p]) ∧
    p < offsetLimit ∧ Refers (j.msg ++ r.out) (j.msg.length + r.out.length) p

section Loop
variable {j : Job} {size srcp : ℕ} {es now : List ℕ} {e : Entries} {ds : List (List UInt8)}
  {out : List UInt8}

theorem Work.cleanup (h : Work j size srcp es now e ds) (out : List UInt8) :
    ∃ r, j.cleanup out e.dnptrs = .ok r ∧ r.result = -1 ∧ Shape size r.dnptrs es := by
  obtain ⟨new, hnew⟩ := h.grown
  have hshape := h.shape
  rw [hnew] at hshape
  have hlt : es.length + 1 < e.dnptrs.length := by
    have hend := h.shape.end_null.2
    rw [hnew, List.length_append] at hend
    omega
  refine ⟨⟨-1, out, e.dnptrs.set (es.length + 1) none⟩, ?_, rfl, hshape.restore⟩
  unfold Job.cleanup
  rw [h.lpp]
  change (setEntry e.dnptrs (es.length + 1) none >>= _) = _
  rw [setEntry, if_pos hlt]
  rfl

theorem Work.dnFind (h : Work j size srcp es now e ds) (hne : ds ≠ []) (out : List UInt8) :
    ∃ r, dnFind j.src (j.msg ++ out) srcp e.dnptrs (es.length + 1) = .ok r ∧
      ∀ t, r = some t → Reads (j.msg ++ out) j.msg.length ds t := by
  obtain ⟨new, hnew⟩ := h.grown
  have hshape := h.shape
  rw [hnew] at hshape
  unfold NsName.dnFind
  apply searchTable_ok e.dnptrs es srcp 1 h.labels hne
  · intro p hp
    obtain ⟨stop, limit, ls, cost, hat, hstop⟩ := h.refers p hp
    exact ⟨stop, limit, ls, cost, hat.append out, hstop⟩
  · exact fun i hi => hshape.entry new hi

theorem Work.save (h : Work j size srcp es now e ds) (dstp : ℕ) :
    ∃ e', j.save dstp e = .ok e' ∧
      (e' = e ∨ e.first = true ∧ dstp < offsetLimit ∧ e'.first = false ∧
        Work j size srcp es (es ++ [dstp]) e' ds) := by
  unfold Job.save
  rw [h.last]
  by_cases hsave : e.cpp + 1 < size ∧ dstp < offsetLimit ∧ e.first = true
  · obtain ⟨hroom, hoff, hfirst⟩ := hsave
    have hnow := h.first hfirst
    have hshape := h.shape
    have hcpp := h.cpp
    rw [hnow] at hshape hcpp
    have hlen := hshape.length
    have hpush := hshape.push (p := dstp) (by omega)
    have hset : setEntry e.dnptrs e.cpp (some dstp) =
        .ok (e.dnptrs.set (es.length + 1) (some dstp)) := by
      rw [setEntry, if_pos (by omega), hcpp]
    have hset' : setEntry (e.dnptrs.set (es.length + 1) (some dstp)) (e.cpp + 1) none =
        .ok ((e.dnptrs.set (es.length + 1) (some dstp)).set (es.length + 2) none) := by
      rw [setEntry, if_pos (by rw [List.length_set]; omega), hcpp]
    refine ⟨⟨(e.dnptrs.set (es.length + 1) (some dstp)).set (es.length + 2) none, e.cpp + 1, false⟩,
      ?_, .inr ⟨hfirst, hoff, rfl, ⟨h.lpp, h.last, h.refers, hpush, ?_, ⟨_, rfl⟩, ?_, h.labels⟩⟩⟩
    · refine (if_pos ⟨hroom, hoff, hfirst⟩).trans ?_
      rw [hset, ok_bind, hset']
      rfl
    · rw [List.length_append, List.length_singleton]
      change e.cpp + 1 = _
      omega
    · exact fun hf => absurd hf Bool.false_ne_true
  · exact ⟨e, if_neg hsave, .inl rfl⟩

theorem Work.look (h : Work j size srcp es now e (d :: ds)) (out : List UInt8) :
    ∃ r, j.look srcp (UInt8.ofNat d.length) out e = .ok r ∧
      ((∃ t, r = .inl t ∧ Reads (j.msg ++ out) j.msg.length (d :: ds) t) ∨
        ∃ e', r = .inr e' ∧ (e' = e ∨ e.first = true ∧ j.msg.length + out.length < offsetLimit ∧
          e'.first = false ∧
          Work j size srcp es (es ++ [j.msg.length + out.length]) e' (d :: ds))) := by
  obtain ⟨found, hfind, hfound⟩ := h.dnFind (List.cons_ne_nil d ds) out
  obtain ⟨e', hsave, hcases⟩ := h.save (j.msg.length + out.length)
  unfold Job.look
  rw [h.lpp]
  dsimp only
  rw [if_neg h.labels.head.1.octet_ne_zero, hfind]
  cases found with
  | some t => exact ⟨.inl t, rfl, .inl ⟨t, rfl, hfound t rfl⟩⟩
  | none =>
    rw [hsave]
    exact ⟨.inr e', rfl, .inr ⟨e', rfl, hcases⟩⟩

theorem success_pointer (h : Work j size srcp es now e (d :: ds)) {t : ℕ}
    (hreads : Reads (j.msg ++ out) j.msg.length (d :: ds) t) :
    Success j size es now e.first out (d :: ds)
      ⟨out.length + 2, out ++ pointerTo t, e.dnptrs⟩ := by
  obtain ⟨ht, stop, limit, ls, cost, hat, hstop, hfold⟩ := hreads
  have hbound := hat.bounds
  have hget : ∀ i, (j.msg ++ (out ++ pointerTo t))[j.msg.length + out.length + i]? =
      (pointerTo t)[i]? := by
    intro i
    rw [← List.append_assoc, ← List.length_append, List.getElem?_append_right (by omega),
      Nat.add_sub_cancel_left]
  constructor
  case result =>
    simp [pointerTo]
  case written =>
    exact ⟨pointerTo t, rfl, .inr ⟨[], t, List.nil_prefix, rfl, by omega, ht⟩⟩
  case reads =>
    refine ⟨stop, ls, 2 + cost, ?_, hstop, hfold⟩
    have hlen : (out ++ pointerTo t).length = out.length + 2 := by
      rw [List.length_append]
      rfl
    simp only [hlen]
    have hat' : At (j.msg ++ (out ++ pointerTo t)) t stop limit ls cost := by
      rw [← List.append_assoc]
      exact hat.append _
    exact .pointer ht ((hget 0).trans rfl) ((hget 1).trans rfl) (by omega) hat'
  case table => exact .inl h.shape

theorem Success.cons (hd : LabelOk d) {first first' : Bool} {now' : List ℕ} {r : Packed}
    (h : Success j size es now' first' (out ++ (UInt8.ofNat d.length :: d)) ds r)
    (hnow : (now' = now ∧ first' = first) ∨ (first = true ∧ first' = false ∧
      now' = es ++ [j.msg.length + out.length] ∧ j.msg.length + out.length < offsetLimit)) :
    Success j size es now first out (d :: ds) r := by
  obtain ⟨limit, ls, cost, hat, hlimit, hfold⟩ := h.reads
  obtain ⟨tail, hout, hwritten⟩ := h.written
  have hlen : (out ++ (UInt8.ofNat d.length :: d)).length = out.length + d.length + 1 := by
    rw [List.length_append, List.length_cons]
    omega
  have hmsg : (j.msg ++ r.out).drop (j.msg.length + out.length) =
      UInt8.ofNat d.length :: (d ++ tail) := by
    rw [hout, List.append_assoc out, ← List.append_assoc j.msg, ← List.length_append,
      List.drop_left, List.cons_append]
  have hread : At (j.msg ++ r.out) (j.msg.length + out.length) (j.msg.length + r.out.length) limit
      (d :: ls) (d.length + 1 + cost) := by
    refine .label hd (getElem?_of_drop hmsg) ?_ (by omega) ?_
    · have hnext : (j.msg ++ r.out).drop (j.msg.length + out.length + 1) = d ++ tail :=
        drop_succ_of_drop hmsg
      rw [hnext, List.take_left]
    · rw [hlen] at hat
      have hplace : j.msg.length + (out.length + d.length + 1) =
          j.msg.length + out.length + d.length + 1 := by omega
      rwa [hplace] at hat
  constructor
  case result => exact h.result
  case written =>
    exact ⟨UInt8.ofNat d.length :: d ++ tail, by rw [hout, List.append_assoc], hwritten.cons d⟩
  case reads =>
    refine ⟨limit, d :: ls, _, hread, hlimit, ?_⟩
    rw [fold, fold, List.map_cons, List.map_cons]
    exact congrArg _ hfold
  case table =>
    obtain ⟨rfl, rfl⟩ | ⟨hfirst, hfirst', rfl, hoff⟩ := hnow
    · exact h.table
    · refine .inr ⟨hfirst, _, ?_, hoff, _, _, _, _, hread, le_rfl⟩
      obtain hshape | ⟨hf, -⟩ := h.table
      · exact hshape
      · rw [hfirst'] at hf
        cases hf

/-- A run from some place in the name on: it fails for lack of room and the table is as
before, or it has packed the labels. -/
def Packs (j : Job) (size : ℕ) (es now : List ℕ) (first : Bool) (out : List UInt8)
    (ds : List (List UInt8)) (run : Except Fault Packed) : Prop :=
  ∃ r, run = .ok r ∧
    ((r.result = -1 ∧ Shape size r.dnptrs es ∧ j.dstsiz < out.length + (wire ds).length) ∨
      Success j size es now first out ds r)

theorem Work.packs_cleanup (h : Work j size srcp es now e ds) {now' : List ℕ} {first : Bool}
    (hroom : j.dstsiz < out.length + (wire ds).length) :
    Packs j size es now' first out ds (j.cleanup out e.dnptrs) := by
  obtain ⟨r, hclean, hneg, hshape⟩ := h.cleanup out
  exact ⟨r, hclean, .inl ⟨hneg, hshape, hroom⟩⟩

theorem packLoop_root (h : Work j size srcp es now e []) (fuel : ℕ) :
    Packs j size es now e.first out [] (j.packLoop (fuel + 1) srcp out e) := by
  have hget := getElem?_of_drop (h.labels.1.trans wire_nil)
  have hlook : j.look srcp 0 out e = .ok (.inr e) := by
    unfold Job.look
    rw [h.lpp]
    rfl
  rw [Job.packLoop, readName_ok hget]
  change Packs _ _ _ _ _ _ _ (j.look srcp 0 out e >>= _)
  rw [hlook]
  dsimp only [Bind.bind, Except.bind]
  by_cases hroom : j.dstsiz - out.length < (0 : UInt8).toNat + 1
  · rw [if_pos hroom]
    change j.dstsiz - out.length < 0 + 1 at hroom
    apply h.packs_cleanup
    rw [wire_nil, List.length_singleton]
    omega
  · rw [if_neg hroom]
    change Packs _ _ _ _ _ _ _ (copyLabel j.src srcp 0 >>= _)
    rw [copyLabel_root h.labels]
    have hfits : ¬ j.dstsiz < (out ++ [0]).length := by
      rw [List.length_append, List.length_singleton]
      omega
    dsimp only [Bind.bind, Except.bind]
    rw [if_neg (by decide), if_neg hfits]
    refine ⟨_, rfl, .inr ⟨rfl, ⟨[0], rfl, .inl rfl⟩, ?_, .inl h.shape⟩⟩
    refine ⟨0, [], 1, ?_, Nat.zero_le _, rfl⟩
    rw [List.length_append, List.length_singleton, ← Nat.add_assoc]
    apply At.root
    rw [← List.append_assoc, ← List.length_append, List.getElem?_concat_length]

/-- The rest of the name is in the message. -/
theorem packLoop_pointer (h : Work j size srcp es now e (d :: ds)) {t : ℕ}
    (hlook : j.look srcp (UInt8.ofNat d.length) out e = .ok (.inl t))
    (hreads : Reads (j.msg ++ out) j.msg.length (d :: ds) t) (fuel : ℕ) :
    Packs j size es now e.first out (d :: ds) (j.packLoop (fuel + 1) srcp out e) := by
  rw [Job.packLoop, readName_ok h.labels.head.2.1]
  change Packs _ _ _ _ _ _ _ (j.look srcp (UInt8.ofNat d.length) out e >>= _)
  rw [hlook]
  dsimp only [Bind.bind, Except.bind]
  split_ifs with hroom
  · have hpos := length_wire_pos ds
    apply h.packs_cleanup
    rw [length_wire_cons]
    omega
  · exact ⟨_, rfl, .inr (success_pointer h hreads)⟩

/-- A label is written, if there is room for it. -/
theorem packLoop_label (h : Work j size srcp es now e (d :: ds)) {e' : Entries}
    (hlook : j.look srcp (UInt8.ofNat d.length) out e = .ok (.inr e')) (fuel : ℕ) :
    j.packLoop (fuel + 1) srcp out e =
      if j.dstsiz - out.length < d.length + 1 then j.cleanup out e'.dnptrs
      else j.packLoop fuel (srcp + 1 + d.length) (out ++ (UInt8.ofNat d.length :: d)) e' := by
  obtain ⟨hd, hget, -⟩ := h.labels.head
  obtain ⟨hnat, -, hsmall, -⟩ := lengthOctet hd.2
  have hplace : srcp + (d.length + 1) = srcp + 1 + d.length := by omega
  rw [Job.packLoop, readName_ok hget]
  change (j.look srcp (UInt8.ofNat d.length) out e >>= _) = _
  rw [hlook]
  dsimp only [Bind.bind, Except.bind]
  rw [if_neg hsmall, hnat, copyLabel_ok h.labels]
  dsimp only
  rw [if_pos hd.octet_ne_zero, hplace]

theorem Packs.cons (hd : LabelOk d) {first first' : Bool} {now' : List ℕ}
    {run : Except Fault Packed}
    (h : Packs j size es now' first' (out ++ (UInt8.ofNat d.length :: d)) ds run)
    (hnow : (now' = now ∧ first' = first) ∨ (first = true ∧ first' = false ∧
      now' = es ++ [j.msg.length + out.length] ∧ j.msg.length + out.length < offsetLimit)) :
    Packs j size es now first out (d :: ds) run := by
  obtain ⟨r, hrun, ⟨hneg, hshape, hshort⟩ | hok⟩ := h
  · refine ⟨r, hrun, .inl ⟨hneg, hshape, ?_⟩⟩
    rw [List.length_append, List.length_cons] at hshort
    rw [length_wire_cons]
    omega
  · exact ⟨r, hrun, .inr (hok.cons hd hnow)⟩

theorem packLoop_ok (out : List UInt8) (h : Work j size srcp es now e ds) (fuel : ℕ)
    (hfuel : ds.length < fuel) :
    Packs j size es now e.first out ds (j.packLoop fuel srcp out e) := by
  induction ds generalizing fuel srcp now e out with
  | nil =>
    obtain _ | fuel := fuel
    · omega
    · exact packLoop_root h fuel
  | cons d ds ih =>
    obtain _ | fuel := fuel
    · omega
    rw [List.length_cons] at hfuel
    obtain ⟨hd, -, -, hnext⟩ := h.labels.head
    obtain ⟨look, hlook, ⟨t, rfl, hreads⟩ | ⟨e', rfl, hentries⟩⟩ := h.look out
    · exact packLoop_pointer h hlook hreads fuel
    · -- the entries as they are when the label is written
      obtain ⟨now', hwork, hfirst⟩ : ∃ now', Work j size srcp es now' e' (d :: ds) ∧
          ((now' = now ∧ e'.first = e.first) ∨ (e.first = true ∧ e'.first = false ∧
            now' = es ++ [j.msg.length + out.length] ∧
            j.msg.length + out.length < offsetLimit)) := by
        obtain rfl | ⟨hf, hoff, hf', hw⟩ := hentries
        · exact ⟨now, h, .inl ⟨rfl, rfl⟩⟩
        · exact ⟨_, hw, .inr ⟨hf, hf', rfl, hoff⟩⟩
      rw [packLoop_label h hlook]
      split_ifs with hroom
      · apply hwork.packs_cleanup
        rw [length_wire_cons]
        omega
      · exact (ih _ { hwork with labels := hnext } fuel (by omega)).cons hd hfirst

end Loop

theorem nsNamePack_ok {dnptrs : List (Option ℕ)} (hshape : Shape size dnptrs es)
    (hes : ∀ p ∈ es, Refers msg msg.length p) {name : List (List UInt8)} (hname : ValidName name)
    (dstsiz : ℤ) :
    ∃ r lpp, nsNamePack (wire name) msg dstsiz (some dnptrs) (some dnptrs.length) = .ok r ∧
      ((r.result = -1 ∧ Shape size r.dnptrs es ∧ dstsiz < (wire name).length) ∨
        Success ⟨wire name, msg, dstsiz, lpp, some size⟩ size es es true [] name r) := by
  have hfollows : Follows (wire name) 0 name := ⟨rfl, hname.label⟩
  have hcount : name.length < maxcdname + 1 :=
    (length_lt_wire name).trans_le (hname.length.trans (Nat.le_succ _))
  have hstart : startOf (some dnptrs) = .ok (some (es.length + 1)) := by
    have hend := endOfList_ok hshape (dnptrs.length + 1) 0 (Nat.zero_le _)
      (by have hnull := hshape.end_null.2; omega)
    obtain ⟨rest, rfl, -⟩ := hshape
    change (endOfList _ _ 1 >>= _) = _
    rw [hend]
    rfl
  have hwork : Work ⟨wire name, msg, dstsiz, some (es.length + 1), some size⟩ size 0 es es
      ⟨dnptrs, es.length + 1, true⟩ name :=
    ⟨rfl, rfl, hes, hshape, rfl, ⟨[], (List.append_nil es).symm⟩, fun _ => rfl, hfollows⟩
  obtain ⟨r, hrun, hres⟩ := packLoop_ok [] hwork (maxcdname + 1) hcount
  refine ⟨r, some (es.length + 1), ?_, ?_⟩
  · unfold nsNamePack
    rw [hstart, ok_bind]
    rw [isLegal_ok (maxcdname + 1) 0 0 hfollows (by rw [Nat.zero_add]; exact hname.length) hcount,
      hshape.length]
    exact hrun
  · obtain ⟨hneg, hsh, hshort⟩ | hok := hres
    · exact .inl ⟨hneg, hsh, by simpa using hshort⟩
    · exact .inr hok

/-! ### A sequence of calls -/

/-- A call: the name, where it was packed, what was returned, and the table before
and after. -/
structure Packing where
  name : List (List UInt8)
  position : ℕ
  dstsiz : ℤ
  result : ℤ
  before : List (Option ℕ)
  after : List (Option ℕ)

structure Session where
  msg : List UInt8
  dnptrs : List (Option ℕ)
  calls : List Packing

/-- Names appended to one message one after the other; a name that cannot be packed
leaves the message as it is. -/
def packAll : Session → List (List (List UInt8) × ℤ) → Except Fault Session
  | s, [] => .ok s
  | s, (name, dstsiz) :: more => do
    let r ← nsNamePack (wire name) s.msg dstsiz (some s.dnptrs) (some s.dnptrs.length)
    packAll ⟨if r.result = -1 then s.msg else s.msg ++ r.out, r.dnptrs,
      s.calls ++ [⟨name, s.msg.length, dstsiz, r.result, s.dnptrs, r.dnptrs⟩]⟩ more

def start (header : List UInt8) (size : ℕ) : Session :=
  ⟨header, some 0 :: List.replicate (size - 1) none, []⟩

def entriesOf (dnptrs : List (Option ℕ)) : List (Option ℕ) := dnptrs.tail.takeWhile Option.isSome

theorem Shape.entriesOf_eq {t : List (Option ℕ)} (h : Shape size t es) :
    entriesOf t = es.map some := by
  obtain ⟨rest, rfl, -⟩ := h
  rw [entriesOf, List.tail_cons, List.takeWhile_append_of_pos]
  · simp
  · simp

/-- A table of `size` pointers that ends with a null pointer and whose entries are
places before the end of a message, which a compression pointer can refer to. -/
def Terminated (size stop : ℕ) (dnptrs : List (Option ℕ)) : Prop :=
  ∃ es, Shape size dnptrs es ∧ ∀ p ∈ es, p < offsetLimit ∧ p < stop

structure Sound (size : ℕ) (msg : List UInt8) (o : Packing) : Prop where
  table : Terminated size msg.length o.after
  failed : o.result = -1 → o.dstsiz < (wire o.name).length ∧ entriesOf o.after = entriesOf o.before
  packed : o.result ≠ -1 → ∃ out ls, o.result = out.length ∧
    out <+: msg.drop o.position ∧ Written o.position o.name out ∧ fold ls = fold o.name ∧
    ∀ dstsiz, (wire o.name).length ≤ dstsiz →
      nsNameUnpack msg o.position dstsiz = .ok (some (wire ls, o.result))

structure Kept (size : ℕ) (msg : List UInt8) (o : Packing) : Prop where
  table : Terminated size msg.length o.after
  failed : o.result = -1 → o.dstsiz < (wire o.name).length ∧ entriesOf o.after = entriesOf o.before
  packed : o.result ≠ -1 → ∃ out limit ls cost, o.result = (out : List UInt8).length ∧
    out <+: msg.drop o.position ∧ Written o.position o.name out ∧ fold ls = fold o.name ∧
    At msg o.position (o.position + out.length) limit ls cost

theorem length_wire_of_fold {ls : List (List UInt8)} (h : fold ls = fold ds) :
    (wire ls).length = (wire ds).length := by
  induction ls generalizing ds with
  | nil =>
    cases ds with
    | nil => rfl
    | cons d ds => cases h
  | cons l ls ih =>
    cases ds with
    | nil => cases h
    | cons d ds =>
      obtain ⟨hhead, htail⟩ := List.cons.inj h
      have hlen := congrArg List.length hhead
      rw [List.length_map, List.length_map] at hlen
      rw [length_wire_cons, length_wire_cons, hlen, ih htail]

theorem Kept.sound {o : Packing} (h : Kept size msg o) : Sound size msg o := by
  refine ⟨h.table, h.failed, fun hok => ?_⟩
  obtain ⟨out, limit, ls, cost, hres, hpre, hwritten, hfold, hat⟩ := h.packed hok
  refine ⟨out, ls, hres, hpre, hwritten, hfold, fun dstsiz hroom => ?_⟩
  rw [nsNameUnpack_at hat (by rw [length_wire_of_fold hfold]; exact hroom), hres]
  push_cast
  rw [add_sub_cancel_left]

theorem Terminated.append {stop : ℕ} {dnptrs : List (Option ℕ)} (h : Terminated size stop dnptrs)
    (more : ℕ) : Terminated size (stop + more) dnptrs := by
  obtain ⟨es, hshape, hes⟩ := h
  exact ⟨es, hshape, fun p hp => ⟨(hes p hp).1, (hes p hp).2.trans_le (Nat.le_add_right _ _)⟩⟩

theorem Kept.append {o : Packing} (h : Kept size msg o) (more : List UInt8) :
    Kept size (msg ++ more) o := by
  constructor
  case table =>
    rw [List.length_append]
    exact h.table.append _
  case failed => exact h.failed
  case packed =>
    intro hok
    obtain ⟨out, limit, ls, cost, hres, hpre, hwritten, hfold, hat⟩ := h.packed hok
    refine ⟨out, limit, ls, cost, hres, ?_, hwritten, hfold, hat.append more⟩
    have hbound := hat.bounds
    rw [List.drop_append_of_le_length (by omega)]
    exact hpre.trans (List.prefix_append _ _)

theorem Refers.append {bound p : ℕ} (h : Refers msg bound p) (more : List UInt8) :
    Refers (msg ++ more) (bound + more.length) p := by
  obtain ⟨stop, limit, ls, cost, hat, hstop⟩ := h
  exact ⟨stop, limit, ls, cost, hat.append more, by omega⟩

theorem Refers.lt {bound p : ℕ} (h : Refers msg bound p) : p < msg.length := by
  obtain ⟨stop, limit, ls, cost, hat, -⟩ := h
  have hbound := hat.bounds
  omega

structure SessionInv (size : ℕ) (s : Session) (es : List ℕ) : Prop where
  shape : Shape size s.dnptrs es
  entries : ∀ p ∈ es, p < offsetLimit ∧ Refers s.msg s.msg.length p
  calls : ∀ o ∈ s.calls, Kept size s.msg o

variable {s : Session}

theorem SessionInv.entries_lt (h : SessionInv size s es) :
    ∀ p ∈ es, p < offsetLimit ∧ p < s.msg.length :=
  fun p hp => ⟨(h.entries p hp).1, (h.entries p hp).2.lt⟩

theorem SessionInv.pack (h : SessionInv size s es) {name : List (List UInt8)}
    (hname : ValidName name) (dstsiz : ℤ) :
    ∃ r es', nsNamePack (wire name) s.msg dstsiz (some s.dnptrs) (some s.dnptrs.length) = .ok r ∧
      SessionInv size ⟨if r.result = -1 then s.msg else s.msg ++ r.out, r.dnptrs,
        s.calls ++ [⟨name, s.msg.length, dstsiz, r.result, s.dnptrs, r.dnptrs⟩]⟩ es' := by
  obtain ⟨r, lpp, hrun, hres⟩ :=
    nsNamePack_ok h.shape (fun p hp => (h.entries p hp).2) hname dstsiz
  obtain ⟨hneg, hshape, hshort⟩ | hok := hres
  · refine ⟨r, es, hrun, ?_⟩
    rw [if_pos hneg]
    refine ⟨hshape, h.entries, ?_⟩
    rw [List.forall_mem_append, List.forall_mem_singleton]
    refine ⟨h.calls, ⟨⟨es, hshape, h.entries_lt⟩, fun _ => ⟨hshort, ?_⟩,
      fun hne => absurd hneg hne⟩⟩
    rw [hshape.entriesOf_eq, h.shape.entriesOf_eq]
  · obtain ⟨limit, ls, cost, hat, -, hfold⟩ := hok.reads
    obtain ⟨tail, hout, hwritten⟩ := hok.written
    subst hout
    have hne : r.result ≠ -1 := by
      rw [hok.result]
      omega
    have hold : ∀ p ∈ es, p < offsetLimit ∧ Refers (s.msg ++ r.out) (s.msg ++ r.out).length p := by
      intro p hp
      obtain ⟨hlt, href⟩ := h.entries p hp
      rw [List.length_append]
      exact ⟨hlt, href.append r.out⟩
    obtain ⟨es', hshape', hes'⟩ : ∃ es', Shape size r.dnptrs es' ∧
        ∀ p ∈ es', p < offsetLimit ∧ Refers (s.msg ++ r.out) (s.msg ++ r.out).length p := by
      obtain hsame | ⟨-, p, hshape', hlt, href⟩ := hok.table
      · exact ⟨es, hsame, hold⟩
      · refine ⟨es ++ [p], hshape', ?_⟩
        rw [List.forall_mem_append, List.forall_mem_singleton, List.length_append]
        rw [List.length_append] at hold
        exact ⟨hold, hlt, href⟩
    refine ⟨r, es', hrun, ?_⟩
    rw [if_neg hne]
    refine ⟨hshape', hes', ?_⟩
    rw [List.forall_mem_append, List.forall_mem_singleton]
    refine ⟨fun o ho => (h.calls o ho).append r.out, ⟨⟨es', hshape', fun p hp =>
      ⟨(hes' p hp).1, (hes' p hp).2.lt⟩⟩, fun hneg => absurd hneg hne, fun _ => ?_⟩⟩
    refine ⟨r.out, limit, ls, cost, hok.result, ?_, hwritten, hfold, hat⟩
    rw [List.drop_left]

theorem packAll_inv (requests : List (List (List UInt8) × ℤ)) (h : SessionInv size s es)
    (hvalid : ∀ q ∈ requests, ValidName q.1) :
    ∃ s' es', packAll s requests = .ok s' ∧ SessionInv size s' es' ∧
      s'.calls.map (fun o => (o.name, o.dstsiz)) =
        s.calls.map (fun o => (o.name, o.dstsiz)) ++ requests := by
  induction requests generalizing s es with
  | nil => exact ⟨s, es, rfl, h, (List.append_nil _).symm⟩
  | cons q requests ih =>
    obtain ⟨name, dstsiz⟩ := q
    obtain ⟨r, es', hrun, hinv⟩ := h.pack (hvalid _ List.mem_cons_self) dstsiz
    obtain ⟨s', es'', hrest, hinv', hcalls⟩ :=
      ih hinv fun q hq => hvalid q (List.mem_cons_of_mem _ hq)
    refine ⟨s', es'', ?_, hinv', ?_⟩
    · rw [packAll, hrun]
      exact hrest
    · rw [hcalls, List.map_append, List.append_assoc]
      rfl

/-- In every sequence of calls that append names to one message, each call keeps
the table within its size, terminated and with entries before the end of the
message; one that fails, for lack of room, leaves its entries as they were; one
that succeeds writes labels and at most one pointer, to an earlier offset below the
limit, and what it has written is unpacked at the end to the name up to case, in as
many octets as it has returned. -/
theorem name_compression (header : List UInt8) {size : ℕ} (hsize : 2 ≤ size)
    (requests : List (List (List UInt8) × ℤ)) (hvalid : ∀ q ∈ requests, ValidName q.1) :
    ∃ s, packAll (start header size) requests = .ok s ∧
      s.calls.map (fun o => (o.name, o.dstsiz)) = requests ∧ ∀ o ∈ s.calls, Sound size s.msg o := by
  have hstart : SessionInv size (start header size) [] := by
    refine ⟨⟨List.replicate (size - 2) none, ?_, ?_⟩, nofun, nofun⟩
    · have hsucc : size - 1 = size - 2 + 1 := by omega
      simp only [start, hsucc, List.replicate_succ, List.map_nil, List.nil_append]
    · rw [start, List.length_cons, List.length_replicate]
      omega
  obtain ⟨s, es, hrun, hinv, hcalls⟩ := packAll_inv requests hstart hvalid
  exact ⟨s, hrun, hcalls, fun o ho => (hinv.calls o ho).sound⟩

/-- The names `a.b` and `c.A.B`, the second with room for three octets only at
first. -/
def someNames : List (List (List UInt8) × ℤ) :=
  [([[0x61], [0x62]], 64), ([[0x63], [0x41], [0x42]], 3), ([[0x63], [0x41], [0x42]], 4)]

theorem name_compression_three :
    2 ≤ 4 ∧ (∀ q ∈ someNames, ValidName q.1) ∧
      ∃ s, packAll (start [] 4) someNames = .ok s ∧
        s.calls.map (fun o => (o.name, o.dstsiz)) = someNames ∧
        ∀ o ∈ s.calls, Sound 4 s.msg o := by
  have hvalid : ∀ q ∈ someNames, ValidName q.1 := by
    have hcheck : ∀ q ∈ someNames, (∀ l ∈ q.1, 0 < l.length ∧ l.length < 64) ∧
        (wire q.1).length ≤ maxcdname := by decide
    exact fun q hq => ⟨(hcheck q hq).1, (hcheck q hq).2⟩
  exact ⟨by decide, hvalid, name_compression [] (by decide) someNames hvalid⟩

example : (packAll (start [] 4) someNames).toOption.map (fun s => s.msg) =
    some [1, 0x61, 1, 0x62, 0, 1, 0x63, 0xc0, 0] := by decide +kernel

end AwaitGlibc.NsName

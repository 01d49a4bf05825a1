import AwaitGlibc.NsNameSound

/-!
# Names of hostile messages

A compression pointer may refer to any offset, also to one from which the pointer is
reached again. The loop of `ns_name_unpack` ends on every message: each turn adds two
at least to `checked`, which a pointer keeps below the length of the message and which
labels raise by no more than they move forward. So `checked` stays below twice the
length, and the `int` that holds it does not overflow in a message of less than `2 ^ 30`
octets.

Room in the destination is looked at when a label is copied, for the label and for the
octet that ends the name. A name without labels is ended without a look.
-/
namespace AwaitGlibc.NsName

/-- What following labels and compression pointers from an offset yields. -/
inductive Yields (msg : List UInt8) : ℕ → List (List UInt8) → Prop where
  | root {off : ℕ} (h : msg[off]? = some 0) : Yields msg off []
  | label {off : ℕ} {l : List UInt8} {ls : List (List UInt8)} (hl : LabelOk l)
      (h : msg[off]? = some (UInt8.ofNat l.length)) (hcopy : (msg.drop (off + 1)).take l.length = l)
      (hr : Yields msg (off + 1 + l.length) ls) : Yields msg off (l :: ls)
  | pointer {off : ℕ} {n lo : UInt8} {ls : List (List UInt8)} (h : msg[off]? = some n)
      (hn : n &&& cmprsflgs = cmprsflgs) (hlow : msg[off + 1]? = some lo)
      (hr : Yields msg (target n lo) ls) : Yields msg off ls

/-- A run that returns: what it has written, if it succeeds, is inside the destination
and is the name that the message has at the offset. -/
def Unpacked (msg : List UInt8) (src dstsiz : ℕ) (out : List UInt8)
    (run : Except Fault (Option (List UInt8 × ℤ))) : Prop :=
  ∃ r, run = .ok r ∧ ∀ name len, r = some (name, len) → name.length ≤ dstsiz ∧
    ∃ ls, (∀ l ∈ ls, LabelOk l) ∧ Yields msg src ls ∧ name = out ++ wire ls

variable {msg : List UInt8}

theorem unpacked_none (msg : List UInt8) (src dstsiz : ℕ) (out : List UInt8) :
    Unpacked msg src dstsiz out (.ok none) :=
  ⟨none, rfl, fun _ _ h => by cases h⟩

theorem unpackLoop_unpacked (src dstsiz fuel : ℕ) (u : Unpacking) (hsrcp : u.srcp < msg.length)
    (hchecked : u.checked ≤ msg.length + u.srcp) (hfuel : 2 * msg.length ≤ u.checked + 2 * fuel)
    (hroom : u.out.length < dstsiz) :
    Unpacked msg u.srcp dstsiz u.out (unpackLoop msg src dstsiz fuel u) := by
  induction fuel generalizing u with
  | zero => omega
  | succ fuel ih =>
    have hn := List.getElem?_eq_getElem hsrcp
    generalize msg[u.srcp] = n at hn
    rw [unpackLoop, readMessage_ok hn, ok_bind]
    by_cases hzero : n = 0
    · rw [if_pos hzero, if_neg (Nat.not_le_of_lt hroom)]
      refine ⟨_, rfl, fun name len h => ?_⟩
      cases h
      rw [List.length_append]
      exact ⟨hroom, [], by simp, .root (hzero ▸ hn), rfl⟩
    rw [if_neg hzero]
    by_cases hflags : n &&& cmprsflgs = 0
    · split_ifs with hbig hlimits
      · exact unpacked_none ..
      · exact unpacked_none ..
      · -- A label: it is copied, and the loop goes on behind it.
        obtain ⟨l, hl⟩ : ∃ l, l = (msg.drop (u.srcp + 1)).take n.toNat := ⟨_, rfl⟩
        have hlen : l.length = n.toNat := by
          rw [hl, List.length_take, List.length_drop]
          omega
        have hpos : 0 < n.toNat := Nat.pos_of_ne_zero fun h => hzero (UInt8.toNat_inj.mp h)
        have hok : LabelOk l := ⟨hlen ▸ hpos, hlen ▸ Nat.lt_of_not_le hbig⟩
        rw [← hl]
        obtain ⟨r, hrun, hr⟩ := ih ⟨u.len, u.checked + (n.toNat + 1), u.srcp + 1 + n.toNat,
          u.out ++ n :: l⟩ (by dsimp only; omega) (by dsimp only; omega) (by dsimp only; omega)
          (by rw [List.length_append, List.length_cons]; omega)
        refine ⟨r, hrun, fun name len h => ?_⟩
        obtain ⟨hfits, ls, hls, hyields, hname⟩ := hr name len h
        refine ⟨hfits, l :: ls, List.forall_mem_cons.mpr ⟨hok, hls⟩, .label hok ?_ ?_ ?_, ?_⟩
        · rw [hn, hlen, UInt8.ofNat_toNat]
        · rw [hlen, hl]
        · rwa [hlen]
        · rw [hname, wire_cons, hlen, UInt8.ofNat_toNat, List.append_assoc]
    rw [if_neg hflags]
    by_cases hpointer : n &&& cmprsflgs = cmprsflgs
    · rw [if_pos hpointer]
      by_cases hend : msg.length ≤ u.srcp + 1
      · rw [if_pos hend]
        exact unpacked_none ..
      have hlow := List.getElem?_eq_getElem (Nat.lt_of_not_le hend)
      generalize msg[u.srcp + 1] = lo at hlow
      rw [if_neg hend, readMessage_ok hlow, ok_bind]
      by_cases hout : msg.length ≤ target n lo ∨ msg.length ≤ u.checked + 2
      · rw [← ite_or, if_pos hout]
        exact unpacked_none ..
      · rw [← ite_or, if_neg hout]
        obtain ⟨r, hrun, hr⟩ := ih ⟨_, u.checked + 2, target n lo, u.out⟩ (by dsimp only; omega)
          (by dsimp only; omega) (by dsimp only; omega) hroom
        refine ⟨r, hrun, fun name len h => ?_⟩
        obtain ⟨hfits, ls, hls, hyields, hname⟩ := hr name len h
        exact ⟨hfits, ls, hls, .pointer hn hpointer hlow hyields, hname⟩
    · rw [if_neg hpointer]
      exact unpacked_none ..

/-- The octet that `pointers` compression pointers lead to from an offset ends a name. -/
def rootBehind (msg : List UInt8) : ℕ → ℕ → Bool
  | 0, off => msg[off]? = some 0
  | pointers + 1, off =>
    match msg[off]?, msg[off + 1]? with
    | some n, some lo => n &&& cmprsflgs = cmprsflgs && rootBehind msg pointers (target n lo)
    | _, _ => false

theorem rootBehind_outside {off : ℕ} (h : msg.length ≤ off) (pointers : ℕ) :
    rootBehind msg pointers off = false := by
  have hnone := List.getElem?_eq_none h
  cases pointers <;> simp [rootBehind, hnone]

theorem rootBehind_pointer {off pointers : ℕ} {n lo : UInt8} (h : msg[off]? = some n)
    (hn : n &&& cmprsflgs = cmprsflgs) (hlow : msg[off + 1]? = some lo) :
    rootBehind msg (pointers + 1) off = rootBehind msg pointers (target n lo) := by
  simp [rootBehind, h, hlow, hn]

theorem rootBehind_refused {off : ℕ} {n : UInt8} (h : msg[off]? = some n) (hzero : n ≠ 0)
    (hn : n &&& cmprsflgs ≠ cmprsflgs ∨ msg.length ≤ off + 1) (pointers : ℕ) :
    rootBehind msg pointers off = false := by
  cases pointers with
  | zero => simp [rootBehind, h, hzero]
  | succ pointers =>
    obtain hn | hend := hn
    · cases hlow : msg[off + 1]? <;> simp [rootBehind, h, hlow, hn]
    · simp [rootBehind, h, List.getElem?_eq_none hend]

/-- Without a destination a label is refused, and only the end of a name is stored. A
pointer is followed while the octets looked at are fewer than the message has. -/
theorem unpackLoop_empty_iff (src fuel : ℕ) (u : Unpacking) (hsrcp : u.srcp < msg.length)
    (hchecked : u.checked < msg.length) (hfuel : 2 * msg.length ≤ u.checked + 2 * fuel) :
    unpackLoop msg src 0 fuel u = .ok none ↔
      ∀ pointers, u.checked + 2 * pointers < msg.length →
        rootBehind msg pointers u.srcp = false := by
  induction fuel generalizing u with
  | zero => omega
  | succ fuel ih =>
    have hn := List.getElem?_eq_getElem hsrcp
    generalize msg[u.srcp] = n at hn
    rw [unpackLoop, readMessage_ok hn, ok_bind]
    by_cases hzero : n = 0
    · rw [if_pos hzero, if_pos (Nat.zero_le _)]
      refine iff_of_false (by simp) fun h => ?_
      have hroot := h 0 hchecked
      simp [rootBehind, hn, hzero] at hroot
    rw [if_neg hzero]
    by_cases hflags : n &&& cmprsflgs = 0
    · have hnot : n &&& cmprsflgs ≠ cmprsflgs := by
        rw [hflags]
        decide
      rw [if_pos hflags, ← ite_or, if_pos (by omega)]
      exact iff_of_true rfl fun pointers _ => rootBehind_refused hn hzero (.inl hnot) pointers
    rw [if_neg hflags]
    by_cases hpointer : n &&& cmprsflgs = cmprsflgs
    · rw [if_pos hpointer]
      by_cases hend : msg.length ≤ u.srcp + 1
      · rw [if_pos hend]
        exact iff_of_true rfl fun pointers _ => rootBehind_refused hn hzero (.inr hend) pointers
      have hlow := List.getElem?_eq_getElem (Nat.lt_of_not_le hend)
      generalize msg[u.srcp + 1] = lo at hlow
      have hzeroPointers : rootBehind msg 0 u.srcp = false := by simp [rootBehind, hn, hzero]
      rw [if_neg hend, readMessage_ok hlow, ok_bind, ← ite_or]
      by_cases hout : msg.length ≤ target n lo ∨ msg.length ≤ u.checked + 2
      · rw [if_pos hout]
        refine iff_of_true rfl fun pointers hlt => ?_
        cases pointers with
        | zero => exact hzeroPointers
        | succ pointers =>
          rw [rootBehind_pointer hn hpointer hlow]
          exact rootBehind_outside (by omega) pointers
      · rw [if_neg hout, ih ⟨_, u.checked + 2, target n lo, u.out⟩ (by dsimp only; omega)
          (by dsimp only; omega) (by dsimp only; omega)]
        constructor
        · intro h pointers hlt
          cases pointers with
          | zero => exact hzeroPointers
          | succ pointers =>
            rw [rootBehind_pointer hn hpointer hlow]
            exact h pointers (by dsimp only; omega)
        · intro h pointers hlt
          rw [← rootBehind_pointer hn hpointer hlow]
          exact h (pointers + 1) (by dsimp only at hlt; omega)
    · rw [if_neg hpointer]
      exact iff_of_true rfl fun pointers _ => rootBehind_refused hn hzero (.inl hpointer) pointers

theorem unpacked_empty_iff {src : ℕ} {run : Except Fault (Option (List UInt8 × ℤ))} :
    Unpacked msg src 0 [] run ↔ run = .ok none := by
  constructor
  · rintro ⟨r, rfl, h⟩
    cases r with
    | none => rfl
    | some r =>
      obtain ⟨hfits, ls, -, -, hname⟩ := h r.1 r.2 rfl
      have hlen := congrArg List.length hname
      rw [List.nil_append, wire, List.length_append, List.length_singleton] at hlen
      omega
  · rintro rfl
    exact unpacked_none ..

/-- A message is unpacked, or refused, within the destination exactly when the destination
is not empty or no name without labels is found at the offset: the root, or pointers to it
that are fewer than half the octets of the message. The lengths are those for which the
`int` variables of the source do not overflow. -/
theorem ns_name_unpack_safe_iff (msg : List UInt8) (src dstsiz : ℕ) (_hlen : msg.length < 2 ^ 30) :
    Unpacked msg src dstsiz [] (nsNameUnpack msg src dstsiz) ↔
      0 < dstsiz ∨ ∀ pointers, 2 * pointers < msg.length →
        rootBehind msg pointers src = false := by
  unfold nsNameUnpack
  split_ifs with hsrc
  · exact iff_of_true (unpacked_none ..) (.inr fun pointers _ => rootBehind_outside hsrc pointers)
  have hin := Nat.lt_of_not_le hsrc
  obtain rfl | hpos := Nat.eq_zero_or_pos dstsiz
  · rw [unpacked_empty_iff, unpackLoop_empty_iff src (msg.length + 1) ⟨-1, 0, src, []⟩ hin
      (by dsimp only; omega) (by dsimp only; omega)]
    simp
  · refine iff_of_true ?_ (.inl hpos)
    exact unpackLoop_unpacked src dstsiz (msg.length + 1) ⟨-1, 0, src, []⟩ hin
      (Nat.zero_le _) (by dsimp only; omega) hpos

/-- A name with a label is refused rightly when there is no destination. -/
theorem ns_name_unpack_safe_label :
    Unpacked [1, 97, 0] 0 0 [] (nsNameUnpack [1, 97, 0] 0 0) :=
  (ns_name_unpack_safe_iff [1, 97, 0] 0 0 (by decide)).mpr <| .inr fun pointers _ =>
    rootBehind_refused rfl (by decide) (.inl (by decide)) pointers

/-- The root, unpacked into nothing, is stored behind the destination. -/
theorem root_overruns_empty_destination :
    nsNameUnpack [0] 0 0 = .error .destinationBounds := by decide +kernel

/-! ### Skipping -/

/-- `ns_name_skip` from `cp` on; `none` is `EMSGSIZE`. -/
def nsNameSkip (msg : List UInt8) (cp : ℕ) : Option ℕ :=
  if _h : cp < msg.length then
    let n := msg[cp]
    if n = 0 then some (cp + 1)
    else if n &&& cmprsflgs = 0 then
      if msg.length - (cp + 1) < n.toNat then none else nsNameSkip msg (cp + 1 + n.toNat)
    else if n &&& cmprsflgs = cmprsflgs then
      if cp + 1 = msg.length then none else some (cp + 2)
    else none
  else none
termination_by msg.length - cp

theorem ok_of_ite {α : Type} {p : Prop} [Decidable p] {x : Except Fault (Option α)} {a : α}
    (h : (if p then .ok none else x) = .ok (some a)) : ¬ p ∧ x = .ok (some a) := by
  split_ifs at h with hp
  · cases h
  · exact ⟨hp, h⟩

variable {name : List UInt8} {src dstsiz : ℕ} {len : ℤ}

/-- Up to a pointer both functions go through the same labels; behind it `len` is known. -/
theorem unpackLoop_skip {fuel : ℕ} {u : Unpacking} (hsrc : u.len < 0 → src ≤ u.srcp)
    (h : unpackLoop msg src dstsiz fuel u = .ok (some (name, len))) :
    if u.len < 0 then ∃ cp, nsNameSkip msg u.srcp = some cp ∧ len = cp - src else len = u.len := by
  induction fuel generalizing u with
  | zero => cases h
  | succ fuel ih =>
    obtain ⟨n, hn, h⟩ := CheckedArray.ok_of_bind h
    by_cases hlt : u.srcp < msg.length
    · rw [readMessage_ok (List.getElem?_eq_getElem hlt)] at hn
      cases hn
      rw [nsNameSkip, dif_pos hlt]
      dsimp only at h ⊢
      generalize msg[u.srcp] = n at h ⊢
      by_cases hzero : n = 0
      · rw [if_pos hzero] at h ⊢
        split_ifs at h ⊢ <;> cases h
        · exact ⟨_, rfl, rfl⟩
        · rfl
      rw [if_neg hzero] at h ⊢
      by_cases hlabel : n &&& cmprsflgs = 0
      · rw [if_pos hlabel, ← ite_or] at h
        obtain ⟨hfits, h⟩ := ok_of_ite h
        have hin : ¬ msg.length - (u.srcp + 1) < n.toNat := by omega
        rw [if_pos hlabel, if_neg hin]
        refine ih (fun hneg => ?_) h
        exact (hsrc hneg).trans (by dsimp only; omega)
      rw [if_neg hlabel] at h ⊢
      by_cases hpointer : n &&& cmprsflgs = cmprsflgs
      · rw [if_pos hpointer] at h ⊢
        obtain ⟨hend, h⟩ := ok_of_ite h
        obtain ⟨lo, -, h⟩ := CheckedArray.ok_of_bind h
        rw [← ite_or] at h
        obtain ⟨-, h⟩ := ok_of_ite h
        have hknown : ¬ (if u.len < 0 then ((u.srcp + 1 : ℕ) : ℤ) - src + 1 else u.len) < 0 := by
          split_ifs <;> omega
        have hlen := ih (fun hneg => absurd hneg hknown) h
        rw [if_neg hknown] at hlen
        have hne : ¬ u.srcp + 1 = msg.length := by omega
        rw [hlen, if_neg hne]
        split_ifs
        · exact ⟨_, rfl, by push_cast; ring⟩
        · rfl
      · rw [if_neg hpointer] at h
        cases h
    · rw [readMessage, List.getElem?_eq_none (not_lt.mp hlt)] at hn
      cases hn

/-- Whatever the message, a name that can be unpacked is skipped by as many octets as
`ns_name_unpack` returns. Its `int` variables hold the lengths of such messages. -/
theorem nsNameSkip_of_unpack (_hlen : msg.length < 2 ^ 30)
    (h : nsNameUnpack msg src dstsiz = .ok (some (name, len))) :
    ∃ cp, nsNameSkip msg src = some cp ∧ len = cp - src := by
  unfold nsNameUnpack at h
  split_ifs at h
  · cases h
  · exact unpackLoop_skip (u := ⟨-1, 0, src, []⟩) (fun _ => le_rfl) h

theorem nsNameSkip_of_unpack_pointer :
    nsNameUnpack [1, 97, 0, 192, 0] 3 9 = .ok (some ([1, 97, 0], 2)) ∧
      ∃ cp, nsNameSkip [1, 97, 0, 192, 0] 3 = some cp ∧ (2 : ℤ) = cp - (3 : ℕ) :=
  have hunpack : nsNameUnpack [1, 97, 0, 192, 0] 3 9 = .ok (some ([1, 97, 0], 2)) := by
    decide +kernel
  ⟨hunpack, nsNameSkip_of_unpack (by decide) hunpack⟩

end AwaitGlibc.NsName

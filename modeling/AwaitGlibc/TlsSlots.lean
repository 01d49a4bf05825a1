import AwaitGlibc.CheckedArray
import Mathlib.Data.List.Flatten
import Mathlib.Logic.Function.Basic

/-!
# The slot list behind the TLS module ids

`dl_tls_dtv_slotinfo_list` is a chain of arrays; the slot of a module id is found
by walking the chain and subtracting lengths. The functions below walk it as the
loader does: `_dl_assign_tls_modid` looks for a hole, `_dl_add_to_slotinfo` adds a
segment when the id is one past the end, and `remove_slotinfo` clears a slot and
looks for the new highest id from there downwards. Every read of a slot is checked
against the length of its array.

Beside each function stands what it does to the chain read as one array,
`segments.flatten`. Ids and generations are natural numbers; `malloc` succeeds, a
failing one being an end of `dlopen` like any other.
-/
namespace AwaitGlibc.TlsSlots
open CheckedArray

def slotinfoSurplus : ℕ := 62

/-- `struct dtv_slotinfo`. -/
structure Slot (α : Type) where
  gen : ℕ
  map : Option α
deriving DecidableEq, Repr

/-- The array of one `struct dtv_slotinfo_list`; its length is `len`. -/
abbrev Segment (α : Type) := List (Slot α)

variable {α : Type}

/-- A slot as `calloc` or `memset` leaves it. -/
def Slot.empty : Slot α := ⟨0, none⟩

def holder (slots : List (Slot α)) (i : ℕ) : Option α := slots[i]?.bind Slot.map

variable {slots : List (Slot α)} {i : ℕ}

theorem holder_of_length_le (h : slots.length ≤ i) :
    holder slots i = none := by
  simp [holder, List.getElem?_eq_none h]

theorem lt_length_of_holder (h : holder slots i ≠ none) :
    i < slots.length := by
  by_contra hlt
  exact h (holder_of_length_le (Nat.le_of_not_lt hlt))

theorem exists_slot_of_holder {l : α}
    (h : holder slots i = some l) : ∃ gen, slots[i]? = some ⟨gen, some l⟩ := by
  obtain ⟨⟨gen, map⟩, hslot, hmap⟩ := Option.bind_eq_some_iff.mp h
  exact ⟨gen, by rw [hslot, ← hmap]⟩

theorem holder_append_left {xs ys : List (Slot α)} (h : i < xs.length) :
    holder (xs ++ ys) i = holder xs i := by
  rw [holder, holder, List.getElem?_append_left h]

theorem holder_append_right {xs ys : List (Slot α)} (h : xs.length ≤ i) :
    holder (xs ++ ys) i = holder ys (i - xs.length) := by
  rw [holder, holder, List.getElem?_append_right h]

theorem holder_drop (slots : List (Slot α)) (n i : ℕ) :
    holder (slots.drop n) i = holder slots (n + i) := by
  rw [holder, holder, List.getElem?_drop]

theorem holder_modify_ne {j : ℕ} (f : Slot α → Slot α) (h : i ≠ j) :
    holder (slots.modify i f) j = holder slots j := by
  simp [holder, h]

/-! ## Looking for a hole -/

/-- The inner loop: past the used slots, from the slot of id `result` to the end of
its segment. -/
def skipUsed (maxDtvIdx : ℕ) : List (Slot α) → ℕ → Except Stop ℕ
  | [], result => .ok result
  | slot :: slots, result =>
    if slot.map.isNone then .ok result
    else if result + 1 ≤ maxDtvIdx + 1 then skipUsed maxDtvIdx slots (result + 1)
    else .error .assertion

/-- The slot as the search marks it, before its generation is written. -/
def Slot.mark (l : α) (slot : Slot α) : Slot α := { slot with map := some l }

/-- The outer loop: the first free id from `result` on, its slot marked with `l`. The
id is past the end when every slot is used. -/
def findGap (maxDtvIdx : ℕ) (l : α) :
    List (Segment α) → ℕ → ℕ → Except Stop (List (Segment α) × ℕ)
  | [], _, result => .ok ([], result)
  | seg :: next, disp, result => do
      let result ← skipUsed maxDtvIdx (seg.drop (result - disp)) result
      if result - disp < seg.length then
        .ok (seg.modify (result - disp) (Slot.mark l) :: next, result)
      else do
        let (next, result) ← findGap maxDtvIdx l next (disp + seg.length) result
        .ok (seg :: next, result)

theorem skipUsed_spec {maxDtvIdx : ℕ} (slots : List (Slot α)) (result : ℕ)
    (hmax : ∀ i, holder slots i ≠ none → result + i ≤ maxDtvIdx) :
    ∃ k ≤ slots.length, skipUsed maxDtvIdx slots result = .ok (result + k) ∧
      (∀ i < k, holder slots i ≠ none) ∧ holder slots k = none := by
  induction slots generalizing result with
  | nil => exact ⟨0, le_rfl, rfl, by simp, rfl⟩
  | cons slot slots ih =>
    cases hslot : slot.map with
    | none => exact ⟨0, Nat.zero_le _, by simp [skipUsed, hslot], by simp, by simp [holder, hslot]⟩
    | some x =>
      have hhead : holder (slot :: slots) 0 ≠ none := by simp [holder, hslot]
      have hle : result + 1 ≤ maxDtvIdx + 1 := by
        have := hmax 0 hhead
        omega
      have htail : ∀ i, holder slots i ≠ none → result + 1 + i ≤ maxDtvIdx := by
        intro i hi
        have := hmax (i + 1) (by simpa [holder] using hi)
        omega
      obtain ⟨k, hk, hrun, hused, hfree⟩ := ih (result + 1) htail
      refine ⟨k + 1, Nat.succ_le_succ hk, ?_, ?_, by simpa [holder] using hfree⟩
      · simp only [skipUsed, hslot, Option.isNone_some, Bool.false_eq_true, if_false, if_pos hle,
          hrun]
        congr 1
        omega
      · intro i hi
        cases i with
        | zero => exact hhead
        | succ i => simpa [holder] using hused i (by omega)

theorem modify_append_left (xs ys : List (Slot α)) (f : Slot α → Slot α)
    (h : i < xs.length) : (xs ++ ys).modify i f = xs.modify i f ++ ys := by
  rw [List.modify_eq_set_getElem?, List.modify_eq_set_getElem?, List.getElem?_append_left h,
    List.getElem?_eq_getElem h]
  simp [List.set_append_left _ _ h]

theorem modify_append_right (xs ys : List (Slot α)) (f : Slot α → Slot α)
    (h : xs.length ≤ i) : (xs ++ ys).modify i f = xs ++ ys.modify (i - xs.length) f := by
  rw [List.modify_eq_set_getElem?, List.modify_eq_set_getElem?, List.getElem?_append_right h]
  cases ys[i - xs.length]? with
  | none => rfl
  | some y => simp [List.set_append_right _ _ h]

/-- Read as one array, the search finds the first free slot from `o` on, or the end
of the array, and marks it. -/
theorem findGap_spec {maxDtvIdx : ℕ} (l : α) (segs : List (Segment α)) (disp o : ℕ)
    (ho : o ≤ segs.flatten.length)
    (hmax : ∀ i, o ≤ i → holder segs.flatten i ≠ none → disp + i ≤ maxDtvIdx) :
    ∃ k, o ≤ k ∧ k ≤ segs.flatten.length ∧
      (∀ i, o ≤ i → i < k → holder segs.flatten i ≠ none) ∧ holder segs.flatten k = none ∧
      ∃ segs', findGap maxDtvIdx l segs disp (disp + o) = .ok (segs', disp + k) ∧
        segs'.flatten = segs.flatten.modify k (Slot.mark l) ∧
        segs'.map List.length = segs.map List.length := by
  induction segs generalizing disp o with
  | nil =>
    have ho : o = 0 := by simpa using ho
    subst ho
    exact ⟨0, le_rfl, le_rfl, by omega, rfl, [], rfl, rfl, rfl⟩
  | cons seg next ih =>
    rw [List.flatten_cons, List.length_append] at ho
    simp only [List.flatten_cons] at hmax
    have hskip : ∀ i, holder (seg.drop o) i ≠ none → disp + o + i ≤ maxDtvIdx := by
      intro i hi
      rw [holder_drop] at hi
      have hlt := lt_length_of_holder hi
      have := hmax (o + i) (by omega) (by rwa [holder_append_left hlt])
      omega
    obtain ⟨k, hk, hrun, hused, hfree⟩ := skipUsed_spec (seg.drop o) (disp + o) hskip
    rw [List.length_drop] at hk
    simp only [holder_drop] at hused hfree
    have hused : ∀ i, o ≤ i → i < o + k → holder seg i ≠ none := by
      intro i hoi hik
      have := hused (i - o) (by omega)
      rwa [Nat.add_sub_cancel' hoi] at this
    have hsub : disp + o - disp = o := by omega
    have hsub' : disp + o + k - disp = o + k := by omega
    by_cases hin : o + k < seg.length
    · refine ⟨o + k, by omega, by rw [List.flatten_cons, List.length_append]; omega, ?_, ?_,
        seg.modify (o + k) (Slot.mark l) :: next, ?_, ?_, by simp⟩
      · intro i hoi hik
        rw [List.flatten_cons, holder_append_left (by omega)]
        exact hused i hoi hik
      · rw [List.flatten_cons, holder_append_left hin]
        exact hfree
      · change (skipUsed maxDtvIdx (seg.drop (disp + o - disp)) (disp + o) >>= _) = _
        rw [hsub, hrun, ok_bind, hsub', if_pos hin, Nat.add_assoc]
      · rw [List.flatten_cons, List.flatten_cons, modify_append_left _ _ _ hin]
    · have hnext : ∀ i, o + k - seg.length ≤ i → holder next.flatten i ≠ none →
          disp + seg.length + i ≤ maxDtvIdx := by
        intro i hi hheld
        have := hmax (seg.length + i) (by omega)
          (by rwa [holder_append_right (by omega), Nat.add_sub_cancel_left])
        omega
      obtain ⟨k', hk', hle', hused', hfree', segs', hrun', hflat', hlen'⟩ :=
        ih (disp + seg.length) (o + k - seg.length) (by omega) hnext
      refine ⟨seg.length + k', by omega, by rw [List.flatten_cons, List.length_append]; omega,
        ?_, ?_, seg :: segs', ?_, ?_, by simp [hlen']⟩
      · intro i hoi hik
        rw [List.flatten_cons]
        by_cases hlt : i < seg.length
        · rw [holder_append_left hlt]
          exact hused i hoi (by omega)
        · rw [holder_append_right (by omega)]
          exact hused' _ (by omega) (by omega)
      · rw [List.flatten_cons, holder_append_right (by omega), Nat.add_sub_cancel_left]
        exact hfree'
      · change (skipUsed maxDtvIdx (seg.drop (disp + o - disp)) (disp + o) >>= _) = _
        rw [hsub, hrun, ok_bind, hsub', if_neg hin]
        have hat : disp + o + k = disp + seg.length + (o + k - seg.length) := by omega
        rw [hat, hrun', ← Nat.add_assoc]
        rfl
      · rw [List.flatten_cons, List.flatten_cons, modify_append_right _ _ _ (by omega),
          Nat.add_sub_cancel_left, hflat']

/-! ## Adding a slot -/

/-- `_dl_add_to_slotinfo`: `idx` is what is left of the id after the segments before. -/
def addToSlotinfo (generation : ℕ) (l : α) (doAdd : Bool) :
    List (Segment α) → ℕ → Except Stop (List (Segment α))
  | [], idx =>
    if idx = 0 then
      let seg := List.replicate slotinfoSurplus Slot.empty
      .ok [if doAdd then seg.set idx ⟨generation + 1, some l⟩ else seg]
    else .error .assertion
  | seg :: next, idx =>
    if idx < seg.length then
      .ok ((if doAdd then seg.set idx ⟨generation + 1, some l⟩ else seg) :: next)
    else do
      let next ← addToSlotinfo generation l doAdd next (idx - seg.length)
      .ok (seg :: next)

/-- Without `do_add` the call only makes room: nothing below the end of the chain, one
more segment at it, and a failed assertion beyond. -/
theorem addToSlotinfo_resize (generation : ℕ) (l : α) (segs : List (Segment α)) (idx : ℕ) :
    addToSlotinfo generation l false segs idx =
      if idx < segs.flatten.length then .ok segs
      else if idx = segs.flatten.length then
        .ok (segs ++ [List.replicate slotinfoSurplus Slot.empty])
      else .error .assertion := by
  induction segs generalizing idx with
  | nil => simp [addToSlotinfo]
  | cons seg next ih =>
    rw [List.flatten_cons, List.length_append]
    by_cases hin : idx < seg.length
    · have hlt : idx < seg.length + next.flatten.length := by omega
      rw [addToSlotinfo, if_pos hin, if_pos hlt]
      rfl
    · rw [addToSlotinfo, if_neg hin, ih]
      by_cases hlt : idx < seg.length + next.flatten.length
      · rw [if_pos hlt, if_pos (by omega)]
        rfl
      · rw [if_neg hlt, if_neg (by omega)]
        by_cases hend : idx = seg.length + next.flatten.length
        · rw [if_pos hend, if_pos (by omega)]
          rfl
        · rw [if_neg hend, if_neg (by omega)]
          rfl

theorem addToSlotinfo_inside (generation : ℕ) (l : α) (segs : List (Segment α)) (idx : ℕ)
    (h : idx < segs.flatten.length) :
    ∃ segs', addToSlotinfo generation l true segs idx = .ok segs' ∧
      segs'.flatten = segs.flatten.set idx ⟨generation + 1, some l⟩ ∧
      segs'.map List.length = segs.map List.length := by
  induction segs generalizing idx with
  | nil => exact absurd h (Nat.not_lt_zero _)
  | cons seg next ih =>
    rw [List.flatten_cons, List.length_append] at h
    by_cases hin : idx < seg.length
    · refine ⟨seg.set idx ⟨generation + 1, some l⟩ :: next, ?_, ?_, by simp⟩
      · rw [addToSlotinfo, if_pos hin, if_pos rfl]
      · rw [List.flatten_cons, List.flatten_cons, List.set_append_left _ _ hin]
    · obtain ⟨segs', hrun, hflat, hlen⟩ := ih (idx - seg.length) (by omega)
      refine ⟨seg :: segs', ?_, ?_, by simp [hlen]⟩
      · rw [addToSlotinfo, if_neg hin, hrun]
        rfl
      · rw [List.flatten_cons, List.flatten_cons, List.set_append_right _ _ (by omega), hflat]

/-! ## Removing a slot -/

structure Removal (α : Type) where
  segments : List (Segment α)
  maxDtvIdx : ℕ
  gaps : Bool
  found : Bool
deriving DecidableEq, Repr

def Slot.clear (generation : ℕ) (slot : Slot α) : Slot α :=
  if slot.map.isSome then ⟨generation + 1, none⟩ else slot

/-- The closing loop of `remove_slotinfo`: the last used slot below `idx`, as long as
`idx - disp` is above `bound`. -/
def searchDown (seg : Segment α) (disp bound : ℕ) : ℕ → Except Stop (Option ℕ)
  | 0 => .ok none
  | idx + 1 =>
    if bound < idx + 1 - disp then
      match seg[idx - disp]? with
      | none => .error (.fault (.loadOutside seg.length (idx - disp)))
      | some slot => if slot.map.isSome then .ok (some idx) else searchDown seg disp bound idx
    else .ok none

/-- The answer of a search for the last used slot with an index from `lo` to below `n`. -/
def LastUsed (slots : List (Slot α)) (lo n : ℕ) : Option ℕ → Prop
  | some j => lo ≤ j ∧ j < n ∧ holder slots j ≠ none ∧
      ∀ i, j < i → i < n → holder slots i = none
  | none => ∀ i, lo ≤ i → i < n → holder slots i = none

theorem LastUsed.extend {lo n m : ℕ} {q : Option ℕ} (h : LastUsed slots lo n q) (hle : n ≤ m)
    (hidle : ∀ i, n ≤ i → i < m → holder slots i = none) : LastUsed slots lo m q := by
  cases q with
  | none =>
    intro i hlo hi
    by_cases hin : i < n
    · exact h i hlo hin
    · exact hidle i (by omega) hi
  | some j =>
    obtain ⟨hlo, hj, hused, habove⟩ := h
    refine ⟨hlo, by omega, hused, fun i hji hi => ?_⟩
    by_cases hin : i < n
    · exact habove i hji hin
    · exact hidle i (by omega) hi

theorem searchDown_spec (seg : Segment α) (disp bound n : ℕ) (hn : n ≤ seg.length) :
    ∃ o, searchDown seg disp bound (disp + n) = .ok (o.map (disp + ·)) ∧
      LastUsed seg bound n o := by
  induction n with
  | zero =>
    refine ⟨none, ?_, fun i _ hi => absurd hi (Nat.not_lt_zero i)⟩
    cases disp with
    | zero => rfl
    | succ disp => simp [searchDown]
  | succ n ih =>
    have hsub : disp + n + 1 - disp = n + 1 := by omega
    have hslot : seg[disp + n - disp]? = some seg[n] := by
      rw [Nat.add_sub_cancel_left, List.getElem?_eq_getElem (by omega)]
    rw [← Nat.add_assoc, searchDown, hsub]
    by_cases hbound : bound < n + 1
    · rw [if_pos hbound, hslot]
      have hheld : holder seg n = seg[n].map := by
        simp [holder, List.getElem?_eq_getElem (show n < seg.length by omega)]
      cases hmap : seg[n].map with
      | some x =>
        refine ⟨some n, by simp [hmap], by omega, by omega, by simp [hheld, hmap], ?_⟩
        intro i hi hlt
        omega
      | none =>
        obtain ⟨o, hrun, hlast⟩ := ih (by omega)
        refine ⟨o, by simpa [hmap] using hrun, hlast.extend n.le_succ fun i hi hlt => ?_⟩
        rw [show i = n by omega, hheld, hmap]
    · rw [if_neg hbound]
      refine ⟨none, rfl, fun i hlo hi => ?_⟩
      omega

section Remove
variable (staticNelem generation maxDtvIdx : ℕ) (gaps : Bool)

/-- The lowest index the closing loop stops at, relative to the segment. -/
def searchFloor (disp : ℕ) : ℕ := if disp = 0 then 1 + staticNelem else 0

/-- The end of `remove_slotinfo` in the segment that starts at id `disp`. -/
def searchSegment (seg : Segment α) (next : List (Segment α)) (disp idx : ℕ) :
    Except Stop (Removal α) := do
  match ← searchDown seg disp (searchFloor staticNelem disp) idx with
  | some found => .ok ⟨seg :: next, found, gaps, true⟩
  | none => .ok ⟨seg :: next, maxDtvIdx, gaps, false⟩

def removeSlotinfo (idx : ℕ) (shouldBeThere : Bool) :
    List (Segment α) → ℕ → Except Stop (Removal α)
  | [], _ => .error (.fault .nullPointer)
  | seg :: next, disp =>
    if seg.length ≤ idx - disp then
      if next.isEmpty then
        -- closed before it was set up; the index stays as it is
        if shouldBeThere then .error .assertion
        else searchSegment staticNelem maxDtvIdx gaps seg next disp idx
      else do
        let r ← removeSlotinfo idx shouldBeThere next (disp + seg.length)
        if r.found then .ok { r with segments := seg :: r.segments }
        else searchSegment staticNelem maxDtvIdx gaps seg r.segments disp (disp + seg.length)
    else
      let seg := seg.modify (idx - disp) (Slot.clear generation)
      if idx ≠ maxDtvIdx then .ok ⟨seg :: next, maxDtvIdx, true, true⟩
      else searchSegment staticNelem maxDtvIdx gaps seg next disp idx

variable {staticNelem generation maxDtvIdx gaps}

theorem searchSegment_spec (seg : Segment α) (next : List (Segment α)) (disp n : ℕ)
    (hn : n ≤ seg.length) :
    ∃ q, LastUsed seg (searchFloor staticNelem disp) n q ∧
      searchSegment staticNelem maxDtvIdx gaps seg next disp (disp + n) =
        .ok ⟨seg :: next, (q.map (disp + ·)).getD maxDtvIdx, gaps, q.isSome⟩ := by
  obtain ⟨q, hrun, hlast⟩ := searchDown_spec seg disp (searchFloor staticNelem disp) n hn
  refine ⟨q, hlast, ?_⟩
  rw [searchSegment, hrun]
  cases q <;> rfl

theorem LastUsed.append_left {xs ys : List (Slot α)} {lo n : ℕ} {q : Option ℕ}
    (hn : n ≤ xs.length) (h : LastUsed xs lo n q) : LastUsed (xs ++ ys) lo n q := by
  have heq : ∀ i, i < n → holder (xs ++ ys) i = holder xs i :=
    fun i hi => holder_append_left (by omega)
  cases q with
  | none =>
    intro i hlo hi
    rw [heq i hi]
    exact h i hlo hi
  | some j =>
    refine ⟨h.1, h.2.1, by rw [heq j h.2.1]; exact h.2.2.1, fun i hj hi => ?_⟩
    rw [heq i hi]
    exact h.2.2.2 i hj hi

/-- Nothing used in the second part, so the answer is that of the first. -/
theorem LastUsed.append_none {xs ys : List (Slot α)} {lo n : ℕ} {q : Option ℕ}
    (hx : LastUsed xs lo xs.length q) (hy : LastUsed ys 0 n none) :
    LastUsed (xs ++ ys) lo (xs.length + n) q := by
  refine (hx.append_left le_rfl).extend (Nat.le_add_right ..) fun i hi hlt => ?_
  rw [holder_append_right hi]
  exact hy _ (Nat.zero_le _) (by omega)

theorem LastUsed.append_some {xs ys : List (Slot α)} {lo lo' n j : ℕ}
    (hlo : lo ≤ xs.length) (hy : LastUsed ys lo' n (some j)) :
    LastUsed (xs ++ ys) lo (xs.length + n) (some (xs.length + j)) := by
  obtain ⟨-, hj, hused, habove⟩ := hy
  refine ⟨by omega, by omega, ?_, fun i hji hi => ?_⟩
  · rwa [holder_append_right (by omega), Nat.add_sub_cancel_left]
  · rw [holder_append_right (by omega)]
    exact habove _ (by omega) (by omega)

/-- How `remove_slotinfo` of the id `o` of a chain read as `slots`, which starts at id
`disp`, can end. -/
structure Removed (staticNelem generation maxDtvIdx : ℕ) (gaps : Bool) (segs : List (Segment α))
    (disp o : ℕ) (r : Removal α) : Prop where
  flatten : r.segments.flatten = segs.flatten.modify o (Slot.clear generation)
  lengths : r.segments.map List.length = segs.map List.length
  ends : (o < segs.flatten.length ∧ disp + o ≠ maxDtvIdx ∧ r.maxDtvIdx = maxDtvIdx ∧
        r.gaps = true ∧ r.found = true) ∨
      ((disp + o = maxDtvIdx ∨ o = segs.flatten.length) ∧ r.gaps = gaps ∧
        ∃ q, LastUsed r.segments.flatten (searchFloor staticNelem disp) o q ∧
          r.found = q.isSome ∧ r.maxDtvIdx = (q.map (disp + ·)).getD maxDtvIdx)

theorem searchFloor_le {disp n : ℕ} (h : disp = 0 → staticNelem < n) :
    searchFloor staticNelem disp ≤ n := by
  rw [searchFloor]
  split_ifs with hzero
  · omega
  · exact Nat.zero_le _

/-- An id inside the chain or right behind its end is removed without a fault. One that
lies further out makes the closing loop read past the end of the last segment. -/
theorem removeSlotinfo_spec (segs : List (Segment α)) (disp o : ℕ) (shouldBeThere : Bool)
    (hne : segs ≠ []) (ho : o ≤ segs.flatten.length)
    (hthere : o = segs.flatten.length → shouldBeThere = false)
    (hfloor : disp = 0 → ∀ seg next, segs = seg :: next → staticNelem < seg.length) :
    ∃ r, removeSlotinfo staticNelem generation maxDtvIdx gaps (disp + o) shouldBeThere segs disp =
        .ok r ∧ Removed staticNelem generation maxDtvIdx gaps segs disp o r := by
  induction segs generalizing disp o with
  | nil => exact absurd rfl hne
  | cons seg next ih =>
    rw [List.flatten_cons, List.length_append] at ho hthere
    have hsub : disp + o - disp = o := Nat.add_sub_cancel_left ..
    have hlo := searchFloor_le fun hzero => hfloor hzero seg next rfl
    rw [removeSlotinfo, hsub]
    by_cases hout : seg.length ≤ o
    · rw [if_pos hout]
      cases next with
      | nil =>
        -- the id right behind the last segment
        have hlen : o = seg.length := by simp at ho; omega
        have hfree : shouldBeThere = false := hthere (by simp [hlen])
        obtain ⟨q, hlast, hrun⟩ :=
          @searchSegment_spec α staticNelem maxDtvIdx gaps seg [] disp o (by omega)
        refine ⟨_, by simpa [hfree] using hrun, ?_, rfl, Or.inr ⟨Or.inr ?_, rfl, q, ?_, rfl, rfl⟩⟩
        · rw [List.modify_eq_self]
          simp [hlen]
        · simp [hlen]
        · exact hlast.append_left (by omega)
      | cons seg' next' =>
        obtain ⟨r, hrun, hr⟩ := ih (disp + seg.length) (o - seg.length) (by simp) (by omega)
          (fun h => hthere (by omega)) (by intro h; have := hfloor (by omega) seg _ rfl; omega)
        have hat : disp + seg.length + (o - seg.length) = disp + o := by omega
        have hsplit : o = seg.length + (o - seg.length) := by omega
        have hflat : seg ++ r.segments.flatten =
            (seg ++ (seg' :: next').flatten).modify o (Slot.clear generation) := by
          rw [modify_append_right _ _ _ hout, hr.flatten]
        rw [hat] at hrun
        rw [if_neg (by simp), hrun, ok_bind]
        cases hfound : r.found with
        | true =>
          refine ⟨_, rfl, by simpa using hflat, by simp [hr.lengths], ?_⟩
          rcases hr.ends with ⟨hlt, hmax, hends⟩ | ⟨hmax, hgaps, q, hlast, hq, hr'⟩
          · exact Or.inl ⟨by simp at hlt ⊢; omega, by omega, hends.1, hends.2.1, rfl⟩
          · refine Or.inr ⟨by simp at hmax ⊢; omega, hgaps, ?_⟩
            cases q with
            | none => simp [hfound] at hq
            | some j =>
              refine ⟨some (seg.length + j), ?_, rfl, by simpa [Nat.add_assoc] using hr'⟩
              rw [hsplit]
              exact hlast.append_some hlo
        | false =>
          obtain ⟨q, hlast, hrun'⟩ := @searchSegment_spec α staticNelem maxDtvIdx gaps seg
            r.segments disp seg.length le_rfl
          refine ⟨_, hrun', by simpa using hflat, by simp [hr.lengths], ?_⟩
          rcases hr.ends with ⟨-, -, -, -, htrue⟩ | ⟨hmax, -, q', hidle, hq', -⟩
          · simp [hfound] at htrue
          · refine Or.inr ⟨by simp at hmax ⊢; omega, rfl, q, ?_, rfl, rfl⟩
            have hnone : q' = none := by simpa [hfound] using hq'
            have hpos : disp + seg.length ≠ 0 := by
              intro h
              have := hfloor (by omega) seg _ rfl
              omega
            rw [hnone, searchFloor, if_neg hpos] at hidle
            rw [hsplit]
            exact hlast.append_none hidle
    · have hin : o < seg.length := by omega
      have hflat : seg.modify o (Slot.clear generation) ++ next.flatten =
          (seg ++ next.flatten).modify o (Slot.clear generation) :=
        (modify_append_left _ _ _ hin).symm
      rw [if_neg hout]
      by_cases hmax : disp + o = maxDtvIdx
      · obtain ⟨q, hlast, hrun⟩ := @searchSegment_spec α staticNelem maxDtvIdx gaps
          (seg.modify o (Slot.clear generation)) next disp o (by simp; omega)
        refine ⟨_, by simpa [hmax] using hrun, by simpa using hflat, by simp,
          Or.inr ⟨Or.inl hmax, rfl, q, ?_, rfl, rfl⟩⟩
        exact hlast.append_left (by simp; omega)
      · refine ⟨⟨seg.modify o (Slot.clear generation) :: next, maxDtvIdx, true, true⟩,
          by simp [hmax], by simpa using hflat, by simp, Or.inl ⟨?_, hmax, rfl, rfl, rfl⟩⟩
        rw [List.flatten_cons, List.length_append]
        omega

/-- An id further out does not come back: the closing loop reads the slot before it. Nor does an
object that should have a slot and is right behind the end. -/
theorem removeSlotinfo_outside (segs : List (Segment α)) (disp o : ℕ) (shouldBeThere : Bool)
    (ho : segs.flatten.length ≤ o) (hthere : o = segs.flatten.length → shouldBeThere = true)
    (hfloor : disp = 0 → ∀ seg next, segs = seg :: next → staticNelem < seg.length) :
    ∃ e, removeSlotinfo staticNelem generation maxDtvIdx gaps (disp + o) shouldBeThere segs disp =
      .error e := by
  induction segs generalizing disp o with
  | nil => exact ⟨_, rfl⟩
  | cons seg next ih =>
    rw [List.flatten_cons, List.length_append] at ho hthere
    have hsub : disp + o - disp = o := Nat.add_sub_cancel_left ..
    rw [removeSlotinfo, hsub, if_pos (by omega)]
    cases next with
    | nil =>
      rw [if_pos List.isEmpty_nil]
      cases shouldBeThere with
      | true => exact ⟨_, rfl⟩
      | false =>
        have hlt : seg.length < o := Nat.lt_of_le_of_ne ho fun h => by cases hthere h.symm
        have hlo := searchFloor_le fun hzero => hfloor hzero seg [] rfl
        obtain _ | n := o
        · omega
        have hout : seg[disp + n - disp]? = none := by
          exact List.getElem?_eq_none (by omega)
        refine ⟨.fault (.loadOutside seg.length n), ?_⟩
        rw [if_neg (by simp), searchSegment, ← Nat.add_assoc, searchDown, if_pos (by omega),
          hout, Nat.add_sub_cancel_left]
        rfl
    | cons seg' next' =>
      obtain ⟨e, herr⟩ := ih (disp + seg.length) (o - seg.length) (by omega)
        (fun h => hthere (by omega)) (by intro h; have := hfloor (by omega) seg _ rfl; omega)
      have hat : disp + seg.length + (o - seg.length) = disp + o := by omega
      rw [hat] at herr
      rw [if_neg (by simp), herr]
      exact ⟨e, rfl⟩

end Remove
end AwaitGlibc.TlsSlots

import Mathlib

/-!
# The search for a transition

`__tzfile_compute` looks for the first transition after a time. It guesses a place from
the distance to the last transition, walks from there when the place is close, and
otherwise narrows the interval for a binary search. The guess may be anything, also the
quotient of a difference that has wrapped: every loop keeps a transition that has been
passed below one that is ahead. A read outside the array makes the result `none`.
-/
namespace AwaitGlibc.TzfileSearch

/-- `(transitions[num_transitions - 1] - timer) / 15778476`, converted to `size_t`. -/
def guess (last timer : ℤ) : ℕ := (((last - timer).bmod (2 ^ 64)).tdiv 15778476 % 2 ^ 64).toNat

variable (transitions : List ℤ) (timer : ℤ)

/-- `while (timer < transitions[i - 1]) --i;` -/
def searchDown : ℕ → Option ℕ
  | 0 => none
  | i + 1 => do
    let t ← transitions[i]?
    if timer < t then searchDown i else some (i + 1)

/-- `while (timer >= transitions[i]) ++i;` -/
def searchUp (i : ℕ) : Option ℕ :=
  match h : transitions[i]? with
  | none => none
  | some t => if t ≤ timer then searchUp (i + 1) else some i
termination_by transitions.length - i
decreasing_by
  have := (List.getElem?_eq_some_iff.mp h).1
  omega

def binarySearch (lo hi : ℕ) : Option ℕ :=
  if lo + 1 < hi then
    match transitions[(lo + hi) / 2]? with
    | none => none
    | some t =>
      if timer < t then binarySearch lo ((lo + hi) / 2) else binarySearch ((lo + hi) / 2) hi
  else some hi
termination_by hi - lo

/-- The branch of `__tzfile_compute` for a time between the first and the last transition. -/
def tzfileComputeSearch : Option ℕ := do
  let n := transitions.length
  let last ← transitions[n - 1]?
  if guess last timer < n then
    let i := n - 1 - guess last timer
    let t ← transitions[i]?
    if timer < t then
      if i < 10 then searchDown transitions timer i
      else
        let t ← transitions[i - 10]?
        if t ≤ timer then searchDown transitions timer i
        else binarySearch transitions timer 0 (i - 10)
    else if n ≤ i + 10 then searchUp transitions timer i
    else
      let t ← transitions[i + 10]?
      if timer < t then searchUp transitions timer i
      else binarySearch transitions timer (i + 10) (n - 1)
  else binarySearch transitions timer 0 (n - 1)

def Passed (i : ℕ) : Prop := ∃ t ∈ transitions[i]?, t ≤ timer

def Ahead (i : ℕ) : Prop := ∃ t ∈ transitions[i]?, timer < t

/-- The result is the index of a transition that is ahead, and the one before it has been
passed. -/
def Found (r : Option ℕ) : Prop :=
  ∃ i, r = some (i + 1) ∧ Passed transitions timer i ∧ Ahead transitions timer (i + 1)

variable {transitions timer}

theorem Passed.ne {i j : ℕ} (hi : Passed transitions timer i) (hj : Ahead transitions timer j) :
    i ≠ j := by
  rintro rfl
  obtain ⟨t, ht, hle⟩ := hi
  obtain ⟨t', ht', hlt⟩ := hj
  rw [Option.mem_unique ht ht'] at hle
  exact absurd hlt hle.not_gt

theorem Ahead.lt {i : ℕ} (h : Ahead transitions timer i) : i < transitions.length := by
  obtain ⟨t, ht, -⟩ := h
  exact (List.getElem?_eq_some_iff.mp ht).1

theorem Passed.lt {i : ℕ} (h : Passed transitions timer i) : i < transitions.length := by
  obtain ⟨t, ht, -⟩ := h
  exact (List.getElem?_eq_some_iff.mp ht).1

theorem passed_or_ahead (timer : ℤ) {i : ℕ} (h : i < transitions.length) :
    ∃ t, transitions[i]? = some t ∧
      (t ≤ timer ∧ Passed transitions timer i ∨ timer < t ∧ Ahead transitions timer i) := by
  have hget := List.getElem?_eq_getElem h
  refine ⟨_, hget, ?_⟩
  rcases le_or_gt transitions[i] timer with hle | hlt
  · exact .inl ⟨hle, _, hget, hle⟩
  · exact .inr ⟨hlt, _, hget, hlt⟩

theorem searchDown_found (hfirst : Passed transitions timer 0) {i : ℕ}
    (h : Ahead transitions timer i) :
    Found transitions timer (searchDown transitions timer i) := by
  induction i with
  | zero => exact absurd rfl (hfirst.ne h)
  | succ i ih =>
    obtain ⟨t, ht, ⟨hle, hi⟩ | ⟨hlt, hi⟩⟩ :=
      passed_or_ahead timer (Nat.lt_of_succ_lt h.lt)
    · exact ⟨i, by simp [searchDown, ht, hle.not_gt], hi, h⟩
    · simpa [searchDown, ht, hlt] using ih hi

theorem searchUp_found (hlast : Ahead transitions timer (transitions.length - 1)) {i : ℕ}
    (h : Passed transitions timer i) :
    Found transitions timer (searchUp transitions timer i) := by
  fun_induction searchUp transitions timer i with
  | case1 i hnone =>
    obtain ⟨t, ht, -⟩ := h
    rw [hnone] at ht
    cases ht
  | case2 i t ht hle ih =>
    have hsucc : i + 1 < transitions.length := by
      have hne := h.ne hlast
      have hlt := h.lt
      omega
    obtain ⟨t', ht', ⟨-, hi⟩ | ⟨hlt', hi⟩⟩ := passed_or_ahead timer hsucc
    · exact ih hi
    · refine ⟨i, ?_, h, hi⟩
      rw [searchUp]
      split
      · simp_all
      · rename_i t'' ht''
        obtain rfl : t'' = t' := Option.some.inj (ht''.symm.trans ht')
        exact if_neg hlt'.not_ge
  | case3 i t ht hnle =>
    obtain ⟨t', ht', hle⟩ := h
    rw [ht] at ht'
    cases ht'
    exact absurd hle hnle

theorem binarySearch_found {lo hi : ℕ} (hlo : Passed transitions timer lo)
    (hhi : Ahead transitions timer hi) (hle : lo ≤ hi) :
    Found transitions timer (binarySearch transitions timer lo hi) := by
  have hne := hlo.ne hhi
  have hlen := hhi.lt
  fun_induction binarySearch transitions timer lo hi with
  | case1 lo hi hlt hnone =>
    rw [List.getElem?_eq_none_iff] at hnone
    omega
  | case2 lo hi hlt t ht htimer ih =>
    have hmid : Ahead transitions timer ((lo + hi) / 2) := ⟨t, ht, htimer⟩
    exact ih hlo hmid (by omega) (hlo.ne hmid) hmid.lt
  | case3 lo hi hlt t ht htimer ih =>
    have hmid : Passed transitions timer ((lo + hi) / 2) := ⟨t, ht, not_lt.mp htimer⟩
    exact ih hmid hhi (by omega) (hmid.ne hhi) hlen
  | case4 lo hi hlt =>
    obtain rfl : hi = lo + 1 := by omega
    exact ⟨lo, rfl, hlo, hhi⟩

/-- The search ends, reads inside the array only, and its result is between the transition
that has been passed and the one that is ahead. That the transitions increase is not
needed. -/
theorem tzfileComputeSearch_found (hfirst : Passed transitions timer 0)
    (hlast : Ahead transitions timer (transitions.length - 1)) :
    Found transitions timer (tzfileComputeSearch transitions timer) := by
  have hlen := hfirst.lt
  obtain ⟨last, hget, -⟩ := passed_or_ahead timer hlast.lt
  simp only [tzfileComputeSearch, hget, Option.bind_eq_bind, Option.bind_some]
  by_cases hguess : guess last timer < transitions.length
  · rw [if_pos hguess]
    generalize hi : transitions.length - 1 - guess last timer = i
    obtain ⟨t, ht, ⟨hle, hpassed⟩ | ⟨hlt, hahead⟩⟩ :=
      passed_or_ahead timer (show i < transitions.length by omega)
    · rw [ht, Option.bind_some, if_neg hle.not_gt]
      split_ifs with hnear
      · exact searchUp_found hlast hpassed
      · obtain ⟨t', ht', ⟨hle', hpassed'⟩ | ⟨hlt', -⟩⟩ :=
          passed_or_ahead timer (not_le.mp hnear)
        · rw [ht', Option.bind_some, if_neg hle'.not_gt]
          exact binarySearch_found hpassed' hlast (by omega)
        · rw [ht', Option.bind_some, if_pos hlt']
          exact searchUp_found hlast hpassed
    · rw [ht, Option.bind_some, if_pos hlt]
      split_ifs with hnear
      · exact searchDown_found hfirst hahead
      · obtain ⟨t', ht', ⟨hle', -⟩ | ⟨hlt', hahead'⟩⟩ :=
          passed_or_ahead timer (show i - 10 < transitions.length by omega)
        · rw [ht', Option.bind_some, if_pos hle']
          exact searchDown_found hfirst hahead
        · rw [ht', Option.bind_some, if_neg hlt'.not_ge]
          exact binarySearch_found hfirst hahead' (Nat.zero_le _)
  · rw [if_neg hguess]
    exact binarySearch_found hfirst hlast (Nat.zero_le _)

/-- The last transition is so far ahead that the guess is of no use. -/
theorem tzfileComputeSearch_found_far :
    tzfileComputeSearch [0, 10, 20, 30, 2 ^ 40] 15 =
        binarySearch [0, 10, 20, 30, 2 ^ 40] 15 0 4 ∧
      Found [0, 10, 20, 30, 2 ^ 40] 15 (tzfileComputeSearch [0, 10, 20, 30, 2 ^ 40] 15) :=
  ⟨rfl, tzfileComputeSearch_found ⟨0, rfl, by decide⟩ ⟨2 ^ 40, rfl, by decide⟩⟩

end AwaitGlibc.TzfileSearch

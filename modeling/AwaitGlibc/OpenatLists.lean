import AwaitGlibc.OpenatPaths

/-!
# The numbers listed for the library search

A token of `LD_LIBRARY_PATH_FDS` that is a decimal numeral lists its value. The
loader reads a token in a notation of its own, with octal and hexadecimal
prefixes and anything behind the digits, and keeps the low 32 bits. The search
makes the calls it should only while the two readings agree, and it ends at all
only at a directory that has the name, since nothing marks the end of the array.
-/
namespace AwaitGlibc.OpenatLists
open CText SystemCalls DlStrtoul OpenatPaths

/-- The positive number that a token lists, in decimal notation. -/
def decimal (token : Text) : Option ℤ :=
  if IsNumeral token ∧ 0 < digitsValue token then some (digitsValue token) else none

/-- The positive number that a token denotes in the notation of the loader, modulo
`2 ^ 32` and unless it is too large for 64 bits. -/
def loaderNumber (token : Text) : Option ℤ :=
  if uint64Max < (numeralValue token).natAbs + numeralBase token then none
  else if 0 < toInt (numeralValue token) then some (toInt (numeralValue token))
  else none

def listedFds (llpf : Option Text) : List ℤ := (fdTokens llpf).filterMap decimal

def loaderFds (llpf : Option Text) : List ℤ := (fdTokens llpf).filterMap loaderNumber

theorem storedFds_eq (llpf : Option Text) : storedFds llpf = loaderFds llpf := by
  have htoken : loaderNumber = Option.guard (fun d => decide (0 < d)) ∘ tokenFd := by
    funext t
    rw [loaderNumber, Function.comp_apply, tokenFd, toInt_dlStrtoul]
    split_ifs with hlarge hpos
    · rfl
    · simp [Option.guard, hpos]
    · simp [Option.guard, hpos]
  rw [storedFds, loaderFds, htoken, ← List.filterMap_map, List.filterMap_eq_filter]

section Search
variable {φ : Type} (K : Kernel φ) (name : Text)

theorem tryInOrder_events (d : ℤ) (ds : List ℤ) (w : World φ) :
    ∃ fd later, (tryInOrder K name (d :: ds) w).2.events =
      w.events ++ ⟨.openat d (some name) oRdonly none, fd⟩ :: later := by
  have hone : ∀ (d : ℤ) (w : World φ), ∃ fd, (sysOpenat K w d (some name) oRdonly none).2.events =
      w.events ++ [⟨.openat d (some name) oRdonly none, fd⟩] := by
    intro d w
    unfold sysOpenat
    cases openatAnswer K w d (some name) oRdonly none <;> exact ⟨_, rfl⟩
  have hmore : ∀ (ds : List ℤ) (w : World φ), ∃ later,
      (tryInOrder K name ds w).2.events = w.events ++ later := by
    intro ds
    induction ds with
    | nil => exact fun w => ⟨[], (List.append_nil _).symm⟩
    | cons d ds ih =>
      intro w
      obtain ⟨fd, hfd⟩ := hone d w
      rw [tryInOrder]
      split_ifs
      · exact ⟨_, hfd⟩
      · obtain ⟨later, hlater⟩ := ih (sysOpenat K w d (some name) oRdonly none).2
        exact ⟨_, by rw [hlater, hfd, List.append_assoc]⟩
  obtain ⟨fd, hfd⟩ := hone d w
  rw [tryInOrder]
  split_ifs
  · exact ⟨fd, [], hfd⟩
  · obtain ⟨later, hlater⟩ := hmore ds (sysOpenat K w d (some name) oRdonly none).2
    exact ⟨fd, later, by rw [hlater, hfd, List.append_assoc, List.singleton_append]⟩

/-- Two lists are tried alike exactly when they agree up to the first success. -/
theorem tryInOrder_eq_iff {ds es : List ℤ} {k : ℕ} {w : World φ}
    (h : firstOpen K name ds w = some k) :
    tryInOrder K name ds w = tryInOrder K name es w ↔ ds.take (k + 1) = es.take (k + 1) := by
  induction ds generalizing es k w with
  | nil => cases h
  | cons d ds ih =>
    obtain ⟨fd, later, hevents⟩ := tryInOrder_events K name d ds w
    cases es with
    | nil =>
      refine iff_of_false (fun heq => ?_) (by simp)
      have := congrArg (fun r => r.2.events) heq
      rw [hevents] at this
      simp [tryInOrder] at this
    | cons e es =>
      by_cases hde : d = e
      · subst hde
        simp only [firstOpen, tryInOrder] at h ⊢
        by_cases hopen : (sysOpenat K w d (some name) oRdonly none).1 ≠ -1
        · rw [if_pos hopen] at h
          cases h
          simp [hopen]
        · rw [if_neg hopen] at h
          obtain ⟨j, hj, rfl⟩ := Option.map_eq_some_iff.mp h
          rw [if_neg hopen, if_neg hopen, List.take_succ_cons, List.take_succ_cons,
            List.cons.injEq, and_iff_right rfl]
          exact ih hj
      · refine iff_of_false (fun heq => ?_) (by simp [hde])
        obtain ⟨fd', later', hevents'⟩ := tryInOrder_events K name e es w
        have := congrArg (fun r => r.2.events) heq
        rw [hevents, hevents'] at this
        simp [hde] at this

theorem firstOpen_of_take {ds es : List ℤ} {k : ℕ} {w : World φ}
    (h : firstOpen K name ds w = some k) (hsame : ds.take (k + 1) = es.take (k + 1)) :
    firstOpen K name es w = some k := by
  induction ds generalizing es k w with
  | nil => cases h
  | cons d ds ih =>
    cases es with
    | nil => simp at hsame
    | cons e es =>
      rw [List.take_succ_cons, List.take_succ_cons, List.cons.injEq] at hsame
      obtain ⟨rfl, hsame⟩ := hsame
      simp only [firstOpen] at h ⊢
      by_cases hopen : (sysOpenat K w d (some name) oRdonly none).1 ≠ -1
      · rw [if_pos hopen] at h ⊢
        exact h
      · rw [if_neg hopen] at h ⊢
        obtain ⟨j, hj, rfl⟩ := Option.map_eq_some_iff.mp h
        rw [ih hj hsame]
        rfl

/-- The descriptors handed to `openat` are the listed positive numbers up to the
first success, and only stored elements are read, exactly when one of the listed
directories has the name and up to it the loader reads the numbers listed, or when
no token is a positive number in either notation. -/
theorem openatSearch_lists_iff (llpf : Option Text) (w : World φ) :
    (∃ openatPaths, dlInitOpenatPaths llpf none = .ok openatPaths ∧
        openatSearch K name openatPaths w = .ok (tryInOrder K name (listedFds llpf) w)) ↔
      match firstOpen K name (listedFds llpf) w with
      | none => ∀ token ∈ fdTokens llpf, decimal token = none ∧ loaderNumber token = none
      | some k => (listedFds llpf).take (k + 1) = (loaderFds llpf).take (k + 1) := by
  have hsearch := openatSearch_eq K name (storedFds_pos llpf) w
  have hsilent : (∀ token ∈ fdTokens llpf, decimal token = none ∧ loaderNumber token = none) ↔
      listedFds llpf = [] ∧ loaderFds llpf = [] := by
    simp only [listedFds, loaderFds, List.filterMap_eq_nil_iff, forall_and]
  rw [hsilent]
  simp only [dlInitOpenatPaths_eq, Except.ok.injEq, exists_eq_left']
  rw [storedFds_eq] at hsearch ⊢
  cases hlisted : firstOpen K name (listedFds llpf) w with
  | some k =>
    dsimp only
    constructor
    · intro hrun
      split_ifs at hsearch with hok
      · rw [hrun, Except.ok.injEq] at hsearch
        exact (tryInOrder_eq_iff K name hlisted).mp hsearch
      · obtain ⟨f, hf⟩ := hsearch
        rw [hf] at hrun
        cases hrun
    · intro hsame
      rw [if_pos (.inr (by rw [firstOpen_of_take K name hlisted hsame]; rfl))] at hsearch
      rw [hsearch, (tryInOrder_eq_iff K name hlisted).mpr hsame]
  | none =>
    dsimp only
    constructor
    · intro hrun
      split_ifs at hsearch with hok
      · rw [hrun, Except.ok.injEq] at hsearch
        rcases hok with hnil | hopen
        · refine ⟨?_, hnil⟩
          rw [hnil] at hsearch
          cases hds : listedFds llpf with
          | nil => rfl
          | cons d ds =>
            obtain ⟨fd, later, hevents⟩ := tryInOrder_events K name d ds w
            have := congrArg (fun r => r.2.events) hsearch
            rw [hds, hevents] at this
            simp [tryInOrder] at this
        · obtain ⟨k, hk⟩ := Option.isSome_iff_exists.mp hopen
          have hsame := (tryInOrder_eq_iff K name hk).mp hsearch.symm
          rw [firstOpen_of_take K name hk hsame] at hlisted
          cases hlisted
      · obtain ⟨f, hf⟩ := hsearch
        rw [hf] at hrun
        cases hrun
    · rintro ⟨hlist, hload⟩
      rw [hlist, hload]
      rfl

/-- One listed descriptor and a name that is not below it: the element behind
the only stored one is read. -/
theorem unfound_name_reads_past_list :
    ¬ ∃ openatPaths, dlInitOpenatPaths (some ['3']) none = .ok openatPaths ∧
      openatSearch (refusing enoent) ['x'] openatPaths startWorld =
        .ok (tryInOrder (refusing enoent) ['x'] (listedFds (some ['3'])) startWorld) := by
  have hstored : storedFds (some ['3']) = [3] := by decide +kernel
  rintro ⟨openatPaths, hinit, hsearch⟩
  rw [dlInitOpenatPaths_eq, hstored] at hinit
  cases hinit
  cases hsearch

end Search

end AwaitGlibc.OpenatLists

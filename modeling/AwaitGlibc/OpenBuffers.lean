import AwaitGlibc.OpenEffects

/-!
# The fixed arrays behind `open64`

The preopen path keeps its data in arrays of fixed size: two lists of 128
entries, components of 256 bytes, a path of `PATH_MAX` and a log line of 4096.
Components and the path are guarded by their length tests. The lists and the
log line are not: a list of 128 entries has no slot for its null pointer, a
descriptor list may be longer than the path list it is searched with, and the
log line holds the caller's file name whole. `libcOpen64_isOk_iff` puts the
three together.
-/
namespace AwaitGlibc.OpenBuffers
open CText CheckedArray SystemCalls PreopenPaths PreopenLists Preopen Open64 OpenEffects

variable {φ : Type} (K : Kernel φ) (env : Env)

/-- A log line is put together: the descriptor from the environment is positive,
or a log file is opened while descriptor 0 is taken. -/
def Logs (w : World φ) : Prop :=
  match debugFdSetting env with
  | some n => 0 < n
  | none => (logFile K env w).isSome ∧ w.file? 0 ≠ none

instance (w : World φ) : Decidable (Logs K env w) :=
  match h : debugFdSetting env with
  | some n => decidable_of_iff (0 < n) (by simp only [Logs, h])
  | none =>
    decidable_of_iff ((logFile K env w).isSome ∧ w.file? 0 ≠ none) (by simp only [Logs, h])

theorem logs_iff (w : World φ) : Logs K env w ↔ ¬ (getDebugFd K env w).1 ≤ 0 := by
  rw [getDebugFd_fst]
  unfold Logs
  cases debugFdSetting env with
  | some n => exact Int.not_le.symm
  | none =>
    have hzero := lowestFree_eq_zero_iff w.fds
    cases logFile K env w with
    | none => simp
    | some f =>
      have hpos : ¬ (lowestFree w.fds : ℤ) ≤ 0 ↔ lowestFree w.fds ≠ 0 := by omega
      simp only [Option.isSome_some, true_and, hpos, World.file?, ne_eq, hzero]

/-- The bytes of a log line besides the file name: a tag, a colon with a blank,
the status and a newline. -/
def lineOverhead (answered : Prop) [Decidable answered] : ℕ := if answered then 18 else 17

theorem logFits_preopen_iff (c : OpenCall) (w : World φ) :
    LogFits (getDebugFd K env w).1 preopenTag c.file (asked K env c w).1 ↔
      (Logs K env w → c.file.length + lineOverhead (Answers K env c w) ≤ logBufferSize) := by
  rw [logs_iff, ← or_iff_not_imp_left]
  refine or_congr_right ?_
  have htag : preopenTag.length = 7 := rfl
  rw [logLine_length, logStatus_length, htag]
  unfold lineOverhead
  simp only [asked_pos_iff]
  split_ifs <;> omega

/-- The lists that are consulted are short enough, the search does not run past the
null pointer, and a logged file name leaves room for the rest of its line. -/
def InArrays (c : OpenCall) (w : World φ) : Prop :=
  InBounds K env c.file c.oflag (getDebugFd K env w).2.events ∧
    (Logs K env w → c.file.length + lineOverhead (Answers K env c w) ≤ logBufferSize)

instance (c : OpenCall) (w : World φ) : Decidable (InArrays K env c w) :=
  inferInstanceAs (Decidable (_ ∧ (_ → _)))

theorem accessesInBounds_iff (c : OpenCall) (w : World φ) :
    AccessesInBounds K env c.file c.oflag c.modeArg w ↔ InArrays K env c w :=
  and_congr_right fun _ => logFits_preopen_iff K env c w

/-- Every store and every load of an open falls on a cell of its array, and a
loaded one has been written, exactly when the lists that are consulted are
short enough, the search does not run past the null pointer, and a logged file
name leaves room for the rest of its line. -/
theorem libcOpen64_isOk_iff (c : OpenCall) (w : World φ) :
    (∃ r, libcOpen64 K env c.file c.oflag c.modeArg w = .ok r) ↔
      InBounds K env c.file c.oflag (getDebugFd K env w).2.events ∧
        (Logs K env w → c.file.length + lineOverhead (Answers K env c w) ≤ logBufferSize) := by
  change _ ↔ InArrays K env c w
  rw [← accessesInBounds_iff]
  constructor
  · rintro ⟨r, hr⟩
    by_contra h
    obtain ⟨e, he⟩ := libcOpen64_fault K env h
    rw [he] at hr
    cases hr
  · intro h
    exact ⟨_, libcOpen64_eq K env h⟩

def fullList : Env
  | .files => some (List.replicate 128 ['a', ':']).flatten
  | _ => none

/-- The null pointer behind the last entry is stored outside the list. -/
theorem fullList_overflows :
    ¬ ∃ r, libcOpen64 (refusing enoent) fullList ['/', 'x'] 0 0 startWorld = .ok r := by
  have hout : ¬ AccessesInBounds (refusing enoent) fullList ['/', 'x'] 0 0 startWorld := by
    decide +kernel
  obtain ⟨e, he⟩ := libcOpen64_fault (refusing enoent) fullList hout
  rintro ⟨r, hr⟩
  rw [he] at hr
  cases hr

end AwaitGlibc.OpenBuffers

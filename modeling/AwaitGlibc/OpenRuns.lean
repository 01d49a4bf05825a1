import AwaitGlibc.OpenBuffers

/-!
# Runs of `open64`

A sequence of calls under one environment. Each of them stays inside its arrays
and is harmless to the descriptor table, or it already breaks what a run is to
conserve: a store outside an array is undefined, and the calls behind it start
from no known state.
-/
namespace AwaitGlibc.OpenRuns
open CText CheckedArray SystemCalls Preopen Open64 OpenEffects OpenBuffers

variable {φ : Type} (K : Kernel φ) (env : Env)

structure Step (φ : Type) where
  before : World φ
  call : OpenCall
  result : Except Fault (ℤ × World φ)

/-- The calls of a sequence under one environment. A call with an access outside
its array is the last one. -/
def steps : World φ → List OpenCall → List (Step φ)
  | _, [] => []
  | w, c :: cs =>
    ⟨w, c, libcOpen64 K env c.file c.oflag c.modeArg w⟩ ::
      match libcOpen64 K env c.file c.oflag c.modeArg w with
      | .error _ => []
      | .ok (_, w') => steps w' cs

/-- The call returns, closes nothing and opens at most what it returns. -/
def Conserves (s : Step φ) : Prop :=
  ∃ fd w', s.result = .ok (fd, w') ∧ GrowsBy fd s.before w' ∧ ReleasesLog K env s.before w'

/-- The borrowed log descriptor refers to the file it had at the start. -/
def KeepsBorrowed (start : World φ) (s : Step φ) : Prop :=
  ∀ n, debugFdSetting env = some n → s.before.file? n = start.file? n

/-- A run conserves descriptors exactly when every call of it stays inside its
arrays and is harmless. -/
theorem run_conserves_iff (calls : List OpenCall) (w : World φ)
    (hopen : ∀ n, debugFdSetting env = some n → w.file? n ≠ none) :
    (∀ s ∈ steps K env w calls, Conserves K env s ∧ KeepsBorrowed env w s) ↔
      ∀ s ∈ steps K env w calls,
        InArrays K env s.call s.before ∧ Harmless K env s.call s.before := by
  induction calls generalizing w with
  | nil => simp [steps]
  | cons c calls ih =>
    simp only [steps, List.forall_mem_cons]
    by_cases hin : InArrays K env c w
    swap
    · obtain ⟨e, he⟩ := libcOpen64_fault K env (mt (accessesInBounds_iff K env c w).mp hin)
      simp [Conserves, he, hin]
    have hone := growsBy_iff_harmless (K := K) (c := c) hopen
    rw [libcOpen64_eq K env ((accessesInBounds_iff K env c w).mpr hin)]
    generalize openResult K env c.file c.oflag c.modeArg w = r at hone ⊢
    have hfirst : Conserves K env ⟨w, c, .ok r⟩ ↔ Harmless K env c w := by
      simp [Conserves, ← hone, Prod.ext_iff]
    simp only [hfirst, hin, true_and, KeepsBorrowed, implies_true, and_true]
    refine and_congr_right fun hharmless => ?_
    -- conservation keeps the borrowed descriptor open for the rest of the run
    have hkept : ∀ n, debugFdSetting env = some n → r.2.file? n = w.file? n := by
      intro n hn
      obtain ⟨f, hf⟩ := Option.ne_none_iff_exists'.mp (hopen n hn)
      rw [hf]
      exact (hone.mpr hharmless).1.1 n f hf
    rw [← ih r.2 (fun n hn => hkept n hn ▸ hopen n hn)]
    refine forall₂_congr fun s _ => and_congr_right fun _ => ?_
    exact forall₂_congr fun n hn => by rw [hkept n hn]

/-- Standard error lent as log descriptor, and one listed file. -/
def lentStderr : Env
  | .debugFd => some ['2']
  | .files => some ['/', 'x']
  | .fileFds => some ['1']
  | _ => none

theorem listed_file_conserves :
    (∀ n, debugFdSetting lentStderr = some n → startWorld.file? n ≠ none) ∧
      ∀ s ∈ steps (refusing enoent) lentStderr startWorld [⟨['/', 'x'], 0, 0⟩, ⟨['/', 'x'], 0, 0⟩],
        Conserves (refusing enoent) lentStderr s ∧ KeepsBorrowed lentStderr startWorld s := by
  have hopen : ∀ n, debugFdSetting lentStderr = some n → startWorld.file? n ≠ none := by
    intro n hn
    have h₂ : n = 2 := Option.some.inj (hn.symm.trans (by decide))
    rw [h₂]
    decide
  refine ⟨hopen, (run_conserves_iff (refusing enoent) lentStderr _ startWorld hopen).mpr ?_⟩
  decide +kernel

/-- A file outside the list costs the process its standard error. -/
theorem unlisted_file_closes_stderr :
    ¬ ∀ s ∈ steps (refusing enoent) lentStderr startWorld [⟨['/', 'y'], 0, 0⟩, ⟨['/', 'x'], 0, 0⟩],
      Conserves (refusing enoent) lentStderr s ∧ KeepsBorrowed lentStderr startWorld s := by
  intro h
  have hkept : ∀ s ∈ steps (refusing enoent) lentStderr startWorld
      [⟨['/', 'y'], 0, 0⟩, ⟨['/', 'x'], 0, 0⟩], s.before.file? 2 = some () :=
    fun s hs => (h s hs).2 2 (by decide)
  exact absurd hkept (by decide +kernel)

end AwaitGlibc.OpenRuns

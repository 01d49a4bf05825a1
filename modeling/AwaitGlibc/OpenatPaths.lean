import AwaitGlibc.CheckedArray
import AwaitGlibc.DlStrtoul
import AwaitGlibc.SystemCalls

/-!
# The descriptor list of the library search

`_dl_init_openat_paths` turns `LD_LIBRARY_PATH_FDS` into an array of
descriptors, and the first source of the library search in `_dl_map_object`
runs over that array until it meets -1. The writer never stores a -1: it
allocates eight bytes for every four it writes and leaves the second half alone.
So the reader is inside the stored elements only as long as one of them opens.

`openatSearch_eq` states this for every list and kernel. Which numbers are
stored is a separate matter, settled by the notation of the tokens.
-/
namespace AwaitGlibc.OpenatPaths
open CText CheckedArray SystemCalls DlStrtoul

def oRdonly : Flags := 0

/-- The descriptor `_dl_init_openat_paths` makes of a token. -/
def tokenFd (token : Text) : ℤ := toInt (dlStrtoul token).1

/-- `realloc`, which allocates when there is no array yet. -/
def reallocPaths (openatPaths : Option (Block ℤ)) (size : ℕ) : Block ℤ :=
  match openatPaths with
  | none => .alloc size
  | some b => b.realloc size

/-- The loop over the tokens. The array holds two `int`s for each pointer it is
sized for. -/
def growPaths : List Text → ℕ → Option (Block ℤ) → Except Fault (Option (Block ℤ))
  | [], _, openatPaths => .ok openatPaths
  | token :: rest, cnt, openatPaths =>
    let fd := tokenFd token
    if 0 < fd then do
      let newPaths ← (reallocPaths openatPaths (2 * (cnt + 1))).store cnt fd
      growPaths rest (cnt + 1) (some newPaths)
    else growPaths rest cnt openatPaths

def dlInitOpenatPaths (llpf : Option Text) (openatPaths : Option (Block ℤ)) :
    Except Fault (Option (Block ℤ)) :=
  match llpf with
  | none => .ok openatPaths
  | some s => growPaths (strtok ':' s) 0 openatPaths

def fdTokens : Option Text → List Text
  | none => []
  | some s => strtok ':' s

def storedFds (llpf : Option Text) : List ℤ := ((fdTokens llpf).map tokenFd).filter (0 < ·)

def pathsBlock : List ℤ → Option (Block ℤ)
  | [] => none
  | d :: ds => some (.ofWritten (2 * (ds.length + 1)) (d :: ds))

theorem store_pathsBlock (done : List ℤ) (fd : ℤ) :
    (reallocPaths (pathsBlock done) (2 * (done.length + 1))).store done.length fd =
      .ok (.ofWritten (2 * (done.length + 1)) (done ++ [fd])) := by
  have hblock : reallocPaths (pathsBlock done) (2 * (done.length + 1)) =
      Block.ofWritten (2 * (done.length + 1)) done := by
    cases done with
    | nil => exact Block.alloc_eq_ofWritten _
    | cons d ds =>
      exact Block.realloc_ofWritten (by rw [List.length_cons]; omega)
        (by rw [List.length_cons]; omega)
  rw [hblock]
  exact Block.store_ofWritten done (by omega) fd

theorem growPaths_eq (tokens : List Text) (done : List ℤ) :
    growPaths tokens done.length (pathsBlock done) =
      .ok (pathsBlock (done ++ (tokens.map tokenFd).filter (0 < ·))) := by
  induction tokens generalizing done with
  | nil => simp [growPaths]
  | cons token rest ih =>
    rw [growPaths, List.map_cons]
    by_cases hfd : 0 < tokenFd token
    · have hnext := ih (done ++ [tokenFd token])
      have hlast : pathsBlock (done ++ [tokenFd token]) =
          some (.ofWritten (2 * (done.length + 1)) (done ++ [tokenFd token])) := by
        cases done <;> simp [pathsBlock]
      rw [hlast, List.length_append, List.length_singleton, List.append_assoc,
        List.singleton_append] at hnext
      simp only [hfd, if_true, store_pathsBlock, bind, Except.bind]
      rw [hnext, List.filter_cons_of_pos (by simpa using hfd)]
    · simp only [hfd, if_false]
      rw [ih done, List.filter_cons_of_neg (by simpa using hfd)]

theorem dlInitOpenatPaths_eq (llpf : Option Text) :
    dlInitOpenatPaths llpf none = .ok (pathsBlock (storedFds llpf)) := by
  cases llpf with
  | none => rfl
  | some s => exact growPaths_eq (strtok ':' s) []

section Reader
variable {φ : Type} (K : Kernel φ) (name : Text)

/-- The loop over the array, from element `i`. Every element is loaded before it
is compared with -1. -/
def openatFrom (openatPaths : Block ℤ) : ℕ → ℕ → ℤ → World φ → Except Fault (ℤ × World φ)
  | 0, _, _, _ => .error .outOfFuel
  | fuel + 1, i, fd, w => do
      let dirfd ← openatPaths.load i
      if dirfd = -1 then return (fd, w)
      let (fd, w) := sysOpenat K w dirfd (some name) oRdonly none
      if fd ≠ -1 then return (fd, w)
      openatFrom openatPaths fuel (i + 1) fd w

/-- The first source of the search, with the test for a null pointer. -/
def openatSearch (openatPaths : Option (Block ℤ)) (w : World φ) : Except Fault (ℤ × World φ) :=
  match openatPaths with
  | none => .ok (-1, w)
  | some b => openatFrom K name b (b.size + 1) 0 (-1) w

/-- Open the name below each descriptor in turn, until one of them has it. -/
def tryInOrder : List ℤ → World φ → ℤ × World φ
  | [], w => (-1, w)
  | d :: ds, w =>
    let r := sysOpenat K w d (some name) oRdonly none
    if r.1 ≠ -1 then r else tryInOrder ds r.2

def firstOpen : List ℤ → World φ → Option ℕ
  | [], _ => none
  | d :: ds, w =>
    let r := sysOpenat K w d (some name) oRdonly none
    if r.1 ≠ -1 then some 0 else (firstOpen ds r.2).map (· + 1)

/-- The reader stops at the first success. Without one it loads an element that
nothing has written. -/
theorem openatFrom_eq (size : ℕ) (done rest : List ℤ) (fuel : ℕ) (fd : ℤ) (w : World φ)
    (hpos : ∀ d ∈ rest, 0 < d) (hfuel : rest.length < fuel) :
    if (firstOpen K name rest w).isSome then
      openatFrom K name (.ofWritten size (done ++ rest)) fuel done.length fd w =
        .ok (tryInOrder K name rest w)
    else ∃ f, openatFrom K name (.ofWritten size (done ++ rest)) fuel done.length fd w =
        .error f := by
  induction rest generalizing done fuel fd w with
  | nil =>
    obtain _ | fuel := fuel
    · omega
    obtain ⟨f, hf⟩ := Block.load_ofWritten_past (n := size) (i := done.length)
      (show (done ++ []).length ≤ done.length by simp)
    exact ⟨f, by simp only [openatFrom, hf, bind, Except.bind]⟩
  | cons d rest ih =>
    obtain ⟨fuel, rfl⟩ : ∃ n, fuel = n + 1 :=
      ⟨fuel - 1, by rw [List.length_cons] at hfuel; omega⟩
    have hload : (Block.ofWritten size (done ++ d :: rest)).load done.length = .ok d :=
      Block.load_ofWritten (by simp)
    have hd : d ≠ -1 := by
      have := hpos d (by simp)
      omega
    have hnext := ih (done ++ [d]) fuel (sysOpenat K w d (some name) oRdonly none).1
      (sysOpenat K w d (some name) oRdonly none).2 (fun e he => hpos e (by simp [he]))
      (by rw [List.length_cons] at hfuel; omega)
    rw [List.append_assoc, List.singleton_append, List.length_append, List.length_singleton]
      at hnext
    simp only [firstOpen, tryInOrder, openatFrom, hload, hd, bind, Except.bind, pure,
      Except.pure, if_false]
    by_cases hopen : (sysOpenat K w d (some name) oRdonly none).1 ≠ -1
    · simp [hopen]
    · simp only [hopen, if_false, Option.isSome_map]
      exact hnext

theorem openatSearch_eq {ds : List ℤ} (hpos : ∀ d ∈ ds, 0 < d) (w : World φ) :
    if ds = [] ∨ (firstOpen K name ds w).isSome then
      openatSearch K name (pathsBlock ds) w = .ok (tryInOrder K name ds w)
    else ∃ f, openatSearch K name (pathsBlock ds) w = .error f := by
  cases ds with
  | nil =>
    rfl
  | cons d ds =>
    have hsize : (Block.ofWritten (2 * (ds.length + 1)) (d :: ds)).size = 2 * (ds.length + 1) :=
      Block.size_ofWritten (by rw [List.length_cons]; omega)
    have h := openatFrom_eq K name (2 * (ds.length + 1)) [] (d :: ds)
      (2 * (ds.length + 1) + 1) (-1) w hpos (by rw [List.length_cons]; omega)
    simp only [reduceCtorEq, false_or, openatSearch, pathsBlock, hsize]
    exact h

theorem storedFds_pos (llpf : Option Text) : ∀ d ∈ storedFds llpf, 0 < d := by
  intro d hd
  simpa using (List.mem_filter.mp hd).2

end Reader

end AwaitGlibc.OpenatPaths

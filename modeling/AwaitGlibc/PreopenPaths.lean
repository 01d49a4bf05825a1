import AwaitGlibc.CheckedArray
import AwaitGlibc.SystemCalls
import Mathlib.Data.List.DropRight

/-!
# Path handling of the preopen mechanism

The string functions of `open64.c` below `preopen`. A null pointer is `none`.
Allocation is taken to succeed; every store into a fixed array is checked. The
component comparison of the source re-extracts component `depth` of both paths
in every round; `componentsMatch` keeps that loop, with fuel that
`componentsMatch_eq` shows to suffice, and the lemma says what it decides: a
component of 256 bytes or more reads as the end of its path.
-/
namespace AwaitGlibc.PreopenPaths
open CText CheckedArray SystemCalls

def maxListLen : ℕ := 128
def maxPathLen : ℕ := 256

/-- Trailing slashes go first, then everything from the last slash on. When the
last slash is the first character the byte it occupied is already NUL, so the
parent of a file in the root directory is the empty string. -/
def removeLastComponent : Option Text → Option Text
  | none => none
  | some path =>
    let result := path.rdropWhile (· == '/')
    match beforeLast '/' result with
    | some parent => some parent
    | none => some []

/-- A leading `./` is dropped before a path is appended. -/
def pathToAppend (path : Text) : Text :=
  if path.take 2 = ['.', '/'] then path.drop 2 else path

/-- The text `get_absolute_path` builds for a relative path, before it removes a
trailing slash. -/
def absoluteForm (cwd : Cwd) (path : Text) : Text := cwd.path ++ '/' :: pathToAppend path

/-- `get_absolute_path` on the buffer it returns: cleared, then filled with the
working directory, a slash and the path without its leading `./`. -/
def getAbsolutePath {φ : Type} (K : Kernel φ) (path : Text) (w : World φ) :
    Except Fault (Option Text × World φ) := do
  let absPath : Block Char := .filled pathMax nul
  if path.head? = some '/' then
    let b ← absPath.storeAll 0 (strncpy path (pathMax - 1))
    let _ ← b.store (pathMax - 1) nul
    return (some (path.take (pathMax - 1)), w)
  match K.getcwd w.events with
  | .error e => return (none, { w with errno := e })
  | .ok cwd =>
    let cwdLen := cwd.path.length
    let pathLen := (pathToAppend path).length
    if pathMax < cwdLen + pathLen + 2 then return (none, w)
    let b ← absPath.storeAll 0 cwd.path
    let b ← b.store cwdLen '/'
    let b ← b.storeAll (cwdLen + 1) (pathToAppend path)
    let b ← b.store (cwdLen + pathLen + 1) nul
    let text := absoluteForm cwd path
    if 1 < text.length ∧ text.getLast? = some '/' then
      let _ ← b.store (text.length - 1) nul
      return (some text.dropLast, w)
    return (some text, w)

/-- The pointer after `n` slashes, the loop at the start of
`get_path_component`. -/
def skipFields : ℕ → Text → Option Text
  | 0, start => some start
  | n + 1, start =>
    match strchr '/' start with
    | none => none
    | some t => skipFields n (t.drop 1)

def getPathComponent (path : Option Text) (n : ℕ) : Except Fault (Option Text) :=
  let result : Block Char := .alloc maxPathLen
  match path with
  | none => .ok none
  | some path =>
    -- one character is skipped whatever it is
    match skipFields n (path.drop 1) with
    | none => .ok none
    | some start =>
      match strchr '/' start with
      | none =>
        if maxPathLen ≤ start.length then .ok none else do
          let r ← result.storeAll 0 (strncpy start (maxPathLen - 1))
          let _ ← r.store (maxPathLen - 1) nul
          return some start
      | some fin =>
        let len := start.length - fin.length
        if maxPathLen ≤ len then .ok none else do
          let r ← result.storeAll 0 (strncpy start len)
          let _ ← r.store len nul
          return some (start.take len)

/-- The inner loop of `find_matching_preopen_path` for one entry. -/
def componentsMatch : ℕ → Option Text → Option Text → ℕ → Except Fault Bool
  | 0, _, _, _ => .error .outOfFuel
  | fuel + 1, filePath, preopenPath, depth => do
      let fileComponent ← getPathComponent filePath depth
      let preopenComponent ← getPathComponent preopenPath depth
      match fileComponent, preopenComponent with
      | none, none => return true
      | some f, some p =>
        if f = p then componentsMatch fuel filePath preopenPath (depth + 1) else return false
      | _, _ => return false

/-- Every component needs a character of the path, up to two at the ends. -/
def matchFuel : Option Text → ℕ
  | none => 1
  | some path => path.length + 2

/-- The outer loop from index `i`, with `count` entries still to look at. -/
def findFrom (filePath : Option Text) (preopenPaths : Block (Option Text)) :
    ℕ → ℕ → Except Fault ℤ
  | 0, _ => .ok (-1)
  | count + 1, i => do
      let entry ← preopenPaths.load i
      if ← componentsMatch (matchFuel filePath) filePath entry 0 then return (i : ℤ)
      findFrom filePath preopenPaths count (i + 1)

def findMatchingPreopenPath (filePath : Option Text) (preopenPaths : Block (Option Text))
    (pathCount : ℕ) : Except Fault ℤ :=
  findFrom filePath preopenPaths pathCount 0

/-- The fields `get_path_component` enumerates: one character skipped, then
the text between slashes, empty fields included. -/
def fields : Option Text → List Text
  | none => []
  | some path => (path.drop 1).splitOn '/'

theorem skipFields_eq (n : ℕ) (s : Text) :
    (s.splitOn '/')[n]? = (skipFields n s).map (·.takeWhile (· != '/')) := by
  induction n generalizing s with
  | zero =>
    rw [splitOn_eq_strchr]
    rfl
  | succ n ih =>
    rw [splitOn_eq_strchr, List.getElem?_cons_succ, skipFields]
    cases strchr '/' s with
    | none => rfl
    | some t => exact ih _

theorem store_after_strncpy (s : Text) (n : ℕ) (h : n < maxPathLen) :
    (do
      let r ← (Block.alloc maxPathLen : Block Char).storeAll 0 (strncpy s n)
      let _ ← r.store n nul
      return some (s.take n) : Except Fault (Option Text)) = .ok (some (s.take n)) := by
  obtain ⟨b, hb⟩ := (Block.storeAll_isOk (Block.alloc maxPathLen : Block Char) 0
    (strncpy s n)).mpr (.inr (by rw [strncpy_length, Block.size_alloc]; omega))
  have hs : b.size = maxPathLen := by rw [Block.size_of_storeAll hb, Block.size_alloc]
  rw [hb]
  simp only [bind, Except.bind, pure, Except.pure]
  rw [Block.store_of_lt (by rw [hs]; exact h)]

/-- No store of `get_path_component` leaves its buffer, and the function
returns the field when it is shorter than the buffer. -/
theorem getPathComponent_eq (path : Option Text) (n : ℕ) :
    getPathComponent path n =
      .ok ((fields path)[n]?.filter (·.length < maxPathLen)) := by
  cases path with
  | none => simp [getPathComponent, fields]
  | some path =>
    simp only [getPathComponent, fields, skipFields_eq]
    cases skipFields n (path.drop 1) with
    | none => rfl
    | some start =>
      simp only [Option.map_some]
      cases hc : strchr '/' start with
      | none =>
        simp only [strchr_eq_none hc]
        split_ifs with hl
        · rw [Option.filter_some_neg (by simpa using hl)]
        · rw [Option.filter_some_pos (by simpa using hl)]
          have h := store_after_strncpy start (maxPathLen - 1) (by decide)
          rwa [List.take_of_length_le (by omega)] at h
      | some fin =>
        obtain ⟨ht, hlen⟩ := take_of_strchr hc
        simp only [← ht]
        split_ifs with hl
        · rw [Option.filter_some_neg (by rw [ht, ← hlen]; simpa using hl)]
        · rw [Option.filter_some_pos (by rw [ht, ← hlen]; simpa using hl)]
          exact store_after_strncpy start _ (by omega)

/-- What the comparison sees of a path from field `depth` on: the fields up to
the first one that does not fit the buffer. -/
def readFrom (path : Option Text) (depth : ℕ) : List Text :=
  ((fields path).drop depth).takeWhile (·.length < maxPathLen)

theorem readFrom_eq (path : Option Text) (depth : ℕ) :
    readFrom path depth =
      match (fields path)[depth]?.filter (·.length < maxPathLen) with
      | none => []
      | some f => f :: readFrom path (depth + 1) := by
  unfold readFrom
  cases hf : (fields path)[depth]? with
  | none => rw [List.drop_eq_nil_of_le (List.getElem?_eq_none_iff.mp hf)]; rfl
  | some f =>
    obtain ⟨hi, rfl⟩ := List.getElem?_eq_some_iff.mp hf
    rw [List.drop_eq_getElem_cons hi, List.takeWhile_cons]
    by_cases hs : ((fields path)[depth]).length < maxPathLen
    · rw [Option.filter_some_pos (by simpa using hs), if_pos (by simpa using hs)]
    · rw [Option.filter_some_neg (by simpa using hs), if_neg (by simpa using hs)]

theorem fields_length_lt (path : Option Text) : (fields path).length < matchFuel path := by
  cases path with
  | none => decide
  | some path =>
    have h : ∀ s : Text, (s.splitOn '/').length ≤ s.length + 1 := by
      intro s
      induction s with
      | nil => simp
      | cons x xs ih =>
        rw [List.splitOn_cons_eq_if_modifyHead]
        split_ifs <;> simp <;> omega
    have hd := h (path.drop 1)
    rw [List.length_drop] at hd
    simp only [fields, matchFuel]
    omega

/-- One round compares the next fields of both paths, where a field that does
not fit reads as the end; by induction the loop compares what is read of them. -/
theorem componentsMatch_eq (fuel : ℕ) (filePath entry : Option Text) (depth : ℕ)
    (h : (readFrom filePath depth).length < fuel) :
    componentsMatch fuel filePath entry depth =
      .ok (decide (readFrom filePath depth = readFrom entry depth)) := by
  induction fuel generalizing depth with
  | zero => omega
  | succ fuel ih =>
    rw [readFrom_eq filePath] at h ⊢
    rw [readFrom_eq entry]
    simp only [componentsMatch, getPathComponent_eq, bind, Except.bind, pure, Except.pure]
    cases hf : (fields filePath)[depth]?.filter (·.length < maxPathLen) with
    | none =>
      cases (fields entry)[depth]?.filter (·.length < maxPathLen) <;> simp
    | some f =>
      cases (fields entry)[depth]?.filter (·.length < maxPathLen) with
      | none => simp
      | some e =>
        rw [hf, List.length_cons] at h
        have hnext := ih (depth + 1) (by omega)
        by_cases hfe : f = e <;> simp [hfe, hnext]

def readFields (path : Option Text) : List Text := readFrom path 0

theorem componentsMatch_start (filePath entry : Option Text) :
    componentsMatch (matchFuel filePath) filePath entry 0 =
      .ok (decide (readFields filePath = readFields entry)) := by
  apply componentsMatch_eq
  exact lt_of_le_of_lt ((List.takeWhile_prefix _).length_le) (fields_length_lt filePath)

end AwaitGlibc.PreopenPaths

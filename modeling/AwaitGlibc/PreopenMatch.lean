import AwaitGlibc.Preopen

/-!
# Matching by components

An absolute path is compared through the components that `get_path_component`
enumerates. The comparison cannot tell the end of a path from a component that
does not fit the buffer, so two paths that agree up to such a component match
whatever follows. For the directories the last component is taken off the
absolute form of the path; a path that adds no name to the working directory
loses a component of the working directory instead.
-/
namespace AwaitGlibc.PreopenMatch
open CText CheckedArray SystemCalls PreopenPaths PreopenLists Preopen

structure AbsolutePath where
  rest : Text
deriving DecidableEq, Repr

def AbsolutePath.text (p : AbsolutePath) : Text := '/' :: p.rest

/-- The text between the slashes, in order. -/
def AbsolutePath.components (p : AbsolutePath) : List Text := p.rest.splitOn '/'

theorem fields_text (p : AbsolutePath) : fields (some p.text) = p.components := rfl

/-! ### The search -/

def indexOrNone : Option ℕ → ℤ
  | some i => i
  | none => -1

def leastIndex (path : AbsolutePath) (entries : List AbsolutePath) : ℤ :=
  indexOrNone (entries.findIdx? fun e => e.components = path.components)

/-- `find_matching_preopen_path` on an array of exactly these entries. -/
def findIn (path : AbsolutePath) (entries : List AbsolutePath) : Except Fault ℤ :=
  findMatchingPreopenPath (some path.text)
    (.ofWritten entries.length (entries.map fun e => some e.text)) entries.length

/-- Equal up to the first component that does not fit the buffer, on either side,
and different as a whole. -/
def LooksAlike (path e : AbsolutePath) : Prop :=
  path.components.takeWhile (·.length < maxPathLen) =
    e.components.takeWhile (·.length < maxPathLen) ∧ e.components ≠ path.components

instance (path e : AbsolutePath) : Decidable (LooksAlike path e) :=
  inferInstanceAs (Decidable (_ ∧ _))

theorem findIn_eq (path : AbsolutePath) (entries : List AbsolutePath) :
    findIn path entries =
      .ok (indexOrNone (entries.findIdx? fun e =>
        e.components = path.components ∨ LooksAlike path e)) := by
  have h := findFrom_eq (some path.text) entries.length (entries.map fun e => some e.text)
    entries.length 0
  have hread : ∀ e : AbsolutePath, readFields (some path.text) = readFields (some e.text) ↔
      e.components = path.components ∨ LooksAlike path e := by
    intro e
    simp only [readFields, readFrom, List.drop_zero, fields_text, LooksAlike]
    by_cases heq : e.components = path.components
    · simp [heq]
    · simp [heq]
  rw [List.drop_zero, List.take_of_length_le (by simp), List.findIdx?_map] at h
  simp only [Function.comp_def, hread] at h
  unfold findIn findMatchingPreopenPath
  cases hf : entries.findIdx? (fun e => e.components = path.components ∨ LooksAlike path e) with
  | some j =>
    rw [hf] at h
    simpa [indexOrNone] using h
  | none =>
    rw [hf] at h
    simpa [indexOrNone] using h

/-- A weaker test finds the same first element exactly when no element before the
first one of the stronger test passes it. -/
theorem findIdx?_or_eq_iff {α : Type} (p q : α → Bool) (l : List α) :
    (l.findIdx? fun a => p a || q a) = l.findIdx? p ↔
      ∀ (i : ℕ) (a : α), l[i]? = some a →
        (∀ (j : ℕ) (b : α), j < i → l[j]? = some b → p b = false) → p a = false → q a = false := by
  induction l with
  | nil => simp
  | cons x l ih =>
    simp only [List.findIdx?_cons]
    cases hp : p x with
    | true =>
      simp only [Bool.true_or, if_true, true_iff]
      intro i a ha hbefore hpa
      cases i with
      | zero => simp_all
      | succ i => simpa [hp] using hbefore 0 x (by omega) rfl
    | false =>
      cases hq : q x with
      | true =>
        refine iff_of_false ?_ fun h => ?_
        · cases l.findIdx? p <;> simp
        · simpa [hq] using h 0 x rfl (fun j b hj => absurd hj (Nat.not_lt_zero j)) hp
      | false =>
        simp only [Bool.or_false, Bool.false_eq_true, if_false]
        rw [(Option.map_injective (Nat.succ_injective)).eq_iff, ih]
        constructor
        · intro h i a ha hbefore hpa
          cases i with
          | zero => simp_all
          | succ i =>
            exact h i a ha (fun j b hj hb => hbefore (j + 1) b (by omega) hb) hpa
        · intro h i a ha hbefore hpa
          refine h (i + 1) a ha ?_ hpa
          intro j b hj hb
          cases j with
          | zero => simp_all
          | succ j => exact hbefore j b (by omega) hb

theorem indexOrNone_inj {a b : Option ℕ} : indexOrNone a = indexOrNone b ↔ a = b := by
  cases a <;> cases b <;> simp [indexOrNone]

/-- The search returns the first entry with the components of the path as long as
no entry before it only looks like the path. -/
theorem findIn_least_iff (path : AbsolutePath) (entries : List AbsolutePath) :
    findIn path entries = .ok (leastIndex path entries) ↔
      ∀ (i : ℕ) (e : AbsolutePath), entries[i]? = some e →
        (∀ (j : ℕ) (e' : AbsolutePath), j < i → entries[j]? = some e' →
          e'.components ≠ path.components) →
        ¬ LooksAlike path e := by
  have h := findIdx?_or_eq_iff (fun e : AbsolutePath => decide (e.components = path.components))
    (fun e => decide (LooksAlike path e)) entries
  simp only [← Bool.decide_or] at h
  rw [findIn_eq, leastIndex, Except.ok.injEq, indexOrNone_inj, h]
  simp only [decide_eq_false_iff_not]
  constructor
  · intro hall i e he hbefore halike
    exact hall i e he hbefore halike.2 halike
  · exact fun hall i e he hbefore _ => hall i e he hbefore

theorem looksAlike_of_long {a b : Text} (ha : '/' ∉ a) (hb : '/' ∉ b) (hla : maxPathLen ≤ a.length)
    (hlb : maxPathLen ≤ b.length) (hne : b ≠ a) : LooksAlike ⟨a⟩ ⟨b⟩ := by
  have hsplit : (⟨a⟩ : AbsolutePath).components = [a] ∧ (⟨b⟩ : AbsolutePath).components = [b] :=
    ⟨List.splitOn_eq_singleton ha, List.splitOn_eq_singleton hb⟩
  unfold LooksAlike
  rw [hsplit.1, hsplit.2]
  simp [hne, Nat.not_lt.mpr hla, Nat.not_lt.mpr hlb]

theorem long_names_match :
    findIn ⟨List.replicate 256 'a'⟩ [⟨List.replicate 256 'b'⟩] = .ok 0 ∧
      leastIndex ⟨List.replicate 256 'a'⟩ [⟨List.replicate 256 'b'⟩] = -1 := by
  have hslash : ∀ c, c ≠ '/' → '/' ∉ List.replicate 256 c :=
    fun c hc hmem => hc (List.eq_of_mem_replicate hmem).symm
  have hne : List.replicate 256 'b' ≠ List.replicate 256 'a' := by
    decide
  have halike := looksAlike_of_long (hslash 'a' (by decide)) (hslash 'b' (by decide))
    (List.length_replicate).ge (List.length_replicate).ge hne
  generalize List.replicate 256 'a' = a at *
  generalize List.replicate 256 'b' = b at *
  constructor
  · rw [findIn_eq]
    simp [halike, indexOrNone]
  · simp [leastIndex, halike.2, indexOrNone]

/-! ### The directory of a relative path -/

/-- The text between the slashes, up to the last name: trailing slashes name nothing. -/
def names (path : Text) : List Text := (path.splitOn '/').rdropWhile (·.isEmpty)

/-- The components of a relative path. A leading `./` names nothing. -/
def relativeComponents (path : Text) : List Text :=
  if ['.', '/'] <+: path then (names path).tail else names path

/-- What `preopen_from_dir` matches: `remove_last_component` of
`get_absolute_path`. -/
def parentPath {φ : Type} (K : Kernel φ) (path : Text) (w : World φ) :
    Except Fault (Option Text) := do
  let (absPath, _) ← getAbsolutePath K path w
  return removeLastComponent absPath

/-- `r` is the absolute path of the directory that holds the last component of
`path`, seen from `cwd`. -/
structure IsParent (cwd : Cwd) (path : Text) (r : Except Fault (Option Text)) : Prop where
  exists_components : ∃ d : AbsolutePath, r = .ok (some d.text) ∧
    d.components = fields (some cwd.path) ++ (relativeComponents path).dropLast
  root : cwd.path = ['/'] → (relativeComponents path).length = 1 → r = .ok (some ['/'])

/-- The path fits, and it is not `./` followed by slashes only. -/
def AddsName (cwd : Cwd) (path : Text) : Prop :=
  (absoluteForm cwd path).length + 1 ≤ pathMax ∧ relativeComponents path ≠ []

theorem beforeLast_append {c : Char} {a n : Text} (hn : c ∉ n) :
    beforeLast c (a ++ c :: n) = some a := by
  have hdrop : (n.reverse ++ c :: a.reverse).dropWhile (· != c) = c :: a.reverse :=
    dropWhile_of_not_mem (by simpa using hn) _
  have hrev : (a ++ c :: n).reverse = n.reverse ++ c :: a.reverse := by simp
  rw [beforeLast, hrev, hdrop]
  simp

theorem exists_last_split {c : Char} {s : Text} (h : c ∈ s) :
    ∃ a n, s = a ++ c :: n ∧ c ∉ n := by
  induction s with
  | nil => cases h
  | cons x s ih =>
    by_cases hs : c ∈ s
    · obtain ⟨a, n, rfl, hn⟩ := ih hs
      exact ⟨x :: a, n, rfl, hn⟩
    · obtain rfl | h := List.mem_cons.mp h
      · exact ⟨[], s, rfl, hs⟩
      · exact absurd h hs

theorem rdropWhile_append {α : Type} {p : α → Bool} {a b : List α} (h : b.rdropWhile p ≠ []) :
    (a ++ b).rdropWhile p = a ++ b.rdropWhile p := by
  induction b using List.reverseRecOn with
  | nil => simp at h
  | append_singleton b x ih =>
    rw [List.rdropWhile_concat] at h ⊢
    rw [← List.append_assoc, List.rdropWhile_concat]
    split_ifs at h ⊢ with hx
    · exact ih h
    · exact List.append_assoc _ _ _

theorem rdropWhile_append_of_nil {α : Type} {p : α → Bool} {a b : List α} (h : b.rdropWhile p = []) :
    (a ++ b).rdropWhile p = a.rdropWhile p := by
  induction b using List.reverseRecOn with
  | nil => rw [List.append_nil]
  | append_singleton b x ih =>
    rw [List.rdropWhile_concat] at h
    rw [← List.append_assoc, List.rdropWhile_concat]
    split_ifs at h ⊢ with hx
    · exact ih h
    · simp at h

theorem names_eq (s : Text) :
    names s = if s.rdropWhile (· == '/') = [] then [] else (s.rdropWhile (· == '/')).splitOn '/' := by
  unfold names
  induction s using List.reverseRecOn with
  | nil => simp
  | append_singleton s x ih =>
    rw [List.rdropWhile_concat]
    by_cases hx : x = '/'
    · rw [hx, List.splitOn_append_cons_self, List.splitOn_nil, List.rdropWhile_concat]
      exact ih
    -- the last piece ends with `x` and stays
    · obtain ⟨pieces, last, hsplit, hlast⟩ :
          ∃ pieces last, (s ++ [x]).splitOn '/' = pieces ++ [last] ∧ last ≠ [] := by
        by_cases hslash : '/' ∈ s
        · obtain ⟨a, n, rfl, hn⟩ := exists_last_split hslash
          have hn' : '/' ∉ n ++ [x] := by simp [hn, Ne.symm hx]
          refine ⟨a.splitOn '/', n ++ [x], ?_, by simp⟩
          rw [List.append_assoc, List.cons_append, List.splitOn_append_cons_self,
            List.splitOn_eq_singleton hn']
        · have hs : '/' ∉ s ++ [x] := by simp [hslash, Ne.symm hx]
          exact ⟨[], s ++ [x], List.splitOn_eq_singleton hs, by simp⟩
      have hkeep : ¬ (x == '/') = true := by simpa using hx
      rw [if_neg hkeep, if_neg (by simp), hsplit, List.rdropWhile_concat_neg]
      simpa using hlast

/-- What `get_absolute_path` appends has the components of the path. -/
theorem relativeComponents_eq (path : Text) : relativeComponents path = names (pathToAppend path) := by
  have hdot : ['.', '/'] <+: path ↔ path.take 2 = ['.', '/'] := by
    rw [List.prefix_iff_eq_take, eq_comm]
    rfl
  unfold relativeComponents pathToAppend
  simp only [hdot]
  split_ifs with h
  · have hpath : path = ['.'] ++ '/' :: path.drop 2 := by
      conv_lhs => rw [← List.take_append_drop 2 path, h]
      rfl
    conv_lhs => rw [hpath]
    unfold names
    rw [List.splitOn_append_cons_self, List.splitOn_eq_singleton (by decide)]
    by_cases hnone : ((path.drop 2).splitOn '/').rdropWhile (·.isEmpty) = []
    · rw [rdropWhile_append_of_nil hnone, hnone]
      rfl
    · rw [rdropWhile_append hnone]
      rfl
  · rfl

theorem relativeComponents_eq_nil {path : Text} :
    relativeComponents path = [] ↔ (pathToAppend path).rdropWhile (· == '/') = [] := by
  rw [relativeComponents_eq, names_eq]
  split_ifs with h
  · simp [h]
  · simp [h, List.splitOn_ne_nil]

theorem relativeComponents_of_name {path : Text}
    (h : (pathToAppend path).rdropWhile (· == '/') ≠ []) :
    relativeComponents path = ((pathToAppend path).rdropWhile (· == '/')).splitOn '/' := by
  rw [relativeComponents_eq, names_eq, if_neg h]

/-- The slash that `get_absolute_path` removes would be removed anyway. -/
theorem rdropWhile_dropLast (text : Text) (h : text.getLast? = some '/') :
    text.dropLast.rdropWhile (· == '/') = text.rdropWhile (· == '/') := by
  have hlast := List.dropLast_append_getLast? '/' h
  conv_rhs => rw [← hlast, List.rdropWhile_concat]
  rfl

section Parent
variable {φ : Type} {K : Kernel φ} {w : World φ} {cwd : Cwd} {path : Text}

theorem parentPath_eq (hrel : path.head? ≠ some '/') (hcwd : K.getcwd w.events = .ok cwd) :
    parentPath K path w =
      if pathMax < (absoluteForm cwd path).length + 1 then .ok none
      else .ok (some ((beforeLast '/'
        ((absoluteForm cwd path).rdropWhile (· == '/'))).getD [])) := by
  unfold parentPath
  rw [getAbsolutePath_eq K hrel]
  change Except.ok (removeLastComponent (target K path w.events)) = _
  simp only [target, if_pos hrel, hcwd]
  split_ifs with hfit hlast
  · rfl
  · rw [removeLastComponent, rdropWhile_dropLast _ hlast]
    cases beforeLast '/' ((absoluteForm cwd path).rdropWhile (· == '/')) <;> rfl
  · rw [removeLastComponent]
    cases beforeLast '/' ((absoluteForm cwd path).rdropWhile (· == '/')) <;> rfl

theorem exists_rest (cwd : Cwd) : ∃ c, cwd.path = '/' :: c := by
  have h := cwd.absolute
  cases hc : cwd.path with
  | nil => simp [hc] at h
  | cons x c =>
    rw [hc, List.head?_cons, Option.some.injEq] at h
    exact ⟨c, by rw [h]⟩

theorem stripped_of_name (h : (pathToAppend path).rdropWhile (· == '/') ≠ []) :
    (absoluteForm cwd path).rdropWhile (· == '/') =
      cwd.path ++ '/' :: (pathToAppend path).rdropWhile (· == '/') := by
  rw [absoluteForm, List.append_cons, rdropWhile_append h, ← List.append_cons]

theorem stripped_of_no_name (h : (pathToAppend path).rdropWhile (· == '/') = []) :
    (absoluteForm cwd path).rdropWhile (· == '/') = cwd.path.rdropWhile (· == '/') := by
  have hslash : ('/' :: pathToAppend path).rdropWhile (· == '/') = [] := by
    simpa using h
  rw [absoluteForm, rdropWhile_append_of_nil hslash]

/-- When the path adds a name, the last slash in front of it is found behind the
working directory. -/
theorem isParent_of_addsName (hrel : path.head? ≠ some '/')
    (hcwd : K.getcwd w.events = .ok cwd) (h : AddsName cwd path) :
    IsParent cwd path (parentPath K path w) := by
  obtain ⟨c, hc⟩ := exists_rest cwd
  have hname := mt relativeComponents_eq_nil.mpr h.2
  have hcomp := relativeComponents_of_name hname
  rw [parentPath_eq hrel hcwd, if_neg (not_lt.mpr h.1), stripped_of_name hname]
  generalize (pathToAppend path).rdropWhile (· == '/') = name at hcomp
  by_cases hslash : '/' ∈ name
  · obtain ⟨a, n, rfl, hn⟩ := exists_last_split hslash
    have hcut : beforeLast '/' (cwd.path ++ '/' :: (a ++ '/' :: n)) = some (cwd.path ++ '/' :: a) := by
      rw [← List.cons_append, ← List.append_assoc]
      exact beforeLast_append hn
    rw [List.splitOn_append_cons_self, List.splitOn_eq_singleton hn] at hcomp
    rw [hcut]
    refine ⟨⟨⟨c ++ '/' :: a⟩, ?_, ?_⟩, fun _ hlen => ?_⟩
    · simp [AbsolutePath.text, hc]
    · simp [AbsolutePath.components, fields, hc, hcomp, List.splitOn_append_cons_self]
    · rw [hcomp] at hlen
      simp at hlen
  · rw [List.splitOn_eq_singleton hslash] at hcomp
    rw [beforeLast_append hslash]
    refine ⟨⟨⟨c⟩, ?_, ?_⟩, fun hroot _ => ?_⟩
    · simp [AbsolutePath.text, hc]
    · simp [AbsolutePath.components, fields, hc, hcomp]
    · simp [hroot]

/-- Otherwise a component of the working directory is lost. -/
theorem addsName_of_isParent (hrel : path.head? ≠ some '/')
    (hcwd : K.getcwd w.events = .ok cwd) (h : IsParent cwd path (parentPath K path w)) :
    AddsName cwd path := by
  obtain ⟨d, hd, hcomp⟩ := h.exists_components
  rw [parentPath_eq hrel hcwd] at hd
  split_ifs at hd with hfit
  · cases hd
  refine ⟨not_lt.mp hfit, fun hname => ?_⟩
  rw [stripped_of_no_name (relativeComponents_eq_nil.mp hname)] at hd
  obtain ⟨rest, hrest⟩ := List.rdropWhile_prefix (· == '/') (l := cwd.path)
  generalize cwd.path.rdropWhile (· == '/') = s at hd hrest
  have hcut : '/' ∈ s := by
    by_contra hno
    rw [beforeLast, List.dropWhile_eq_nil_iff.mpr] at hd
    · simp [AbsolutePath.text] at hd
    · intro x hx
      rw [List.mem_reverse] at hx
      rw [bne_iff_ne]
      rintro rfl
      exact hno hx
  obtain ⟨a, n, rfl, hn⟩ := exists_last_split hcut
  rw [beforeLast_append hn] at hd
  have ha : a = d.text := Option.some.inj (Except.ok.inj hd)
  rw [hname, ← hrest, ha] at hcomp
  have hlen := congrArg List.length hcomp
  simp [fields, AbsolutePath.text, AbsolutePath.components, List.splitOn_append_cons_self] at hlen

theorem parentPath_isParent_iff (hrel : path.head? ≠ some '/')
    (hcwd : K.getcwd w.events = .ok cwd) :
    IsParent cwd path (parentPath K path w) ↔ AddsName cwd path :=
  ⟨addsName_of_isParent hrel hcwd, isParent_of_addsName hrel hcwd⟩

def inDirectory (cwd : Cwd) : Kernel Unit := { refusing 2 with getcwd := fun _ => .ok cwd }

def dirD : Cwd := ⟨['/', 'd'], rfl, by decide⟩

/-- In `/d` the parent of `./a/b/` has the components of `/d/a`. -/
theorem parentPath_isParent_file :
    relativeComponents "./a/b/".toList = ["a".toList, "b".toList] ∧
      IsParent dirD "./a/b/".toList (parentPath (inDirectory dirD) "./a/b/".toList startWorld) :=
  ⟨by decide, (parentPath_isParent_iff (by decide) rfl).mpr ⟨by decide, by decide⟩⟩

/-- In `/d` the path `./` gives the empty string in place of `/d`. -/
theorem dot_slash_loses_directory :
    parentPath (inDirectory dirD) ['.', '/'] startWorld = .ok (some []) ∧
      ¬ IsParent dirD ['.', '/'] (parentPath (inDirectory dirD) ['.', '/'] startWorld) := by
  have hrun : parentPath (inDirectory dirD) ['.', '/'] startWorld = .ok (some []) := by
    rw [parentPath_eq (by decide) rfl]
    decide
  refine ⟨hrun, fun h => ?_⟩
  obtain ⟨d, hd, -⟩ := h.exists_components
  rw [hrun] at hd
  cases hd

end Parent

end AwaitGlibc.PreopenMatch

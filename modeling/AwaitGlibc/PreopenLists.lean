import AwaitGlibc.PreopenPaths

/-!
# The lists named by the environment

`get_string_list` copies the tokens of a variable into an array of 128 pointers
and closes it with a null pointer, which needs a slot of its own.
`preopen_file` and `preopen_from_dir` read two such lists, convert the second to
an array of 128 descriptors and search the first for a path, over as many
entries as there are descriptors. The lemmas give each step on the token lists:
when it stays inside its arrays and what it returns.
-/
namespace AwaitGlibc.PreopenLists
open CText CheckedArray PreopenPaths

/-- The `strtok` loop: at most `maxListLen` tokens are stored. -/
def fillList : List Text → ℕ → Block (Option Text) → Except Fault (Block (Option Text) × ℕ)
  | [], cnt, list => .ok (list, cnt)
  | token :: rest, cnt, list =>
    if cnt < maxListLen then do
      let list ← list.store cnt (some token)
      fillList rest (cnt + 1) list
    else .ok (list, cnt)

def getStringList (envStr : Text) : Except Fault (Block (Option Text)) := do
  let (list, cnt) ← fillList (strtok ':' envStr) 0 (.alloc maxListLen)
  list.store cnt none

/-- The number recorded for a token: what follows the digits makes it -1. -/
def listedFd (token : Text) : ℤ :=
  let r := strtol token
  toInt (if r.rest ≠ [] then -1 else r.value)

/-- The loop over the descriptor list up to its null pointer. -/
def convertFrom (list : Block (Option Text)) :
    ℕ → ℕ → Block ℤ → Except Fault (Block ℤ × ℕ)
  | 0, _, _ => .error .outOfFuel
  | fuel + 1, cnt, fds => do
      match ← list.load cnt with
      | none => return (fds, cnt)
      | some token =>
        let fds ← fds.store cnt (listedFd token)
        convertFrom list fuel (cnt + 1) fds

def convertFds (list : Block (Option Text)) : Except Fault (Block ℤ × ℕ) :=
  convertFrom list (list.size + 1) 0 (.alloc maxListLen)

structure Lists where
  paths : Block (Option Text)
  fds : Block ℤ
  count : ℕ

/-- The common start of `preopen_file` and `preopen_from_dir`; `none` when one
of the two variables is not set. -/
def readLists (paths fds : Option Text) : Except Fault (Option Lists) :=
  match paths with
  | none => .ok none
  | some pathsStr => do
      let pathList ← getStringList pathsStr
      match fds with
      | none => return none
      | some fdsStr =>
        let fdList ← getStringList fdsStr
        let (table, count) ← convertFds fdList
        return some ⟨pathList, table, count⟩

/-- A list as it stands in memory: the tokens and the closing null pointer. -/
def closed (tokens : List Text) : List (Option Text) := tokens.map some ++ [none]

@[simp] theorem closed_length (tokens : List Text) :
    (closed tokens).length = tokens.length + 1 := by simp [closed]

theorem fillList_eq (tokens done : List Text) (h : done.length ≤ maxListLen) :
    fillList tokens done.length (.ofWritten maxListLen (done.map some)) =
      let all := (done ++ tokens).take maxListLen
      .ok (.ofWritten maxListLen (all.map some), all.length) := by
  induction tokens generalizing done with
  | nil =>
    simp only [fillList, List.append_nil, List.take_of_length_le h]
  | cons token rest ih =>
    rw [fillList]
    split_ifs with hlt
    · have hs := Block.store_ofWritten (done.map some)
        (by simpa using hlt) (some token)
      rw [List.length_map] at hs
      have hnext := ih (done ++ [token])
        (by rw [List.length_append, List.length_singleton]; omega)
      simp only [List.map_append, List.map_cons, List.map_nil, List.length_append,
        List.length_singleton, List.append_assoc, List.singleton_append] at hnext
      simp only [hs, bind, Except.bind]
      exact hnext
    · have hd : done.length = maxListLen := by omega
      rw [List.take_append_of_le_length hd.ge, List.take_of_length_le hd.le]

/-- 127 tokens leave a slot for the null pointer; from 128 on it is stored
behind the array. -/
theorem getStringList_eq (envStr : Text) :
    getStringList envStr =
      if (strtok ':' envStr).length < maxListLen then
        .ok (.ofWritten maxListLen (closed (strtok ':' envStr)))
      else .error (.storeOutside maxListLen maxListLen) := by
  have h := fillList_eq (strtok ':' envStr) [] (by decide)
  simp only [List.length_nil, List.map_nil, List.nil_append, ← Block.alloc_eq_ofWritten] at h
  simp only [getStringList, h, bind, Except.bind]
  split_ifs with hl
  · rw [List.take_of_length_le hl.le]
    have hs := Block.store_ofWritten ((strtok ':' envStr).map some)
      (by simpa using hl) none
    rwa [List.length_map] at hs
  · have hlen : ((strtok ':' envStr).take maxListLen).length = maxListLen := by
      rw [List.length_take]
      omega
    have hs := Block.store_ofWritten_full (n := maxListLen)
      (((strtok ':' envStr).take maxListLen).map some)
      (by rw [List.length_map, hlen]) none
    rwa [List.length_map] at hs

theorem convertFrom_eq (done tokens : List Text) (fuel : ℕ)
    (h : (done ++ tokens).length < maxListLen) (hf : tokens.length < fuel) :
    convertFrom (.ofWritten maxListLen (closed (done ++ tokens))) fuel done.length
        (.ofWritten maxListLen (done.map listedFd)) =
      .ok (.ofWritten maxListLen ((done ++ tokens).map listedFd), (done ++ tokens).length) := by
  induction tokens generalizing done fuel with
  | nil =>
    obtain _ | fuel := fuel
    · omega
    have hload : (Block.ofWritten maxListLen (closed (done ++ []))).load done.length =
        .ok none := Block.load_ofWritten (by simp [closed])
    rw [List.append_nil] at hload ⊢
    simp only [convertFrom, hload, bind, Except.bind, pure, Except.pure]
  | cons token rest ih =>
    obtain _ | fuel := fuel
    · omega
    have hload : (Block.ofWritten maxListLen (closed (done ++ token :: rest))).load
        done.length = .ok (some token) := Block.load_ofWritten (by simp [closed])
    have hs := Block.store_ofWritten (n := maxListLen) (done.map listedFd)
      (by rw [List.length_append, List.length_cons] at h; rw [List.length_map]; omega)
      (listedFd token)
    rw [List.length_map] at hs
    have hnext := ih (done ++ [token]) fuel (by simpa using h) (by simpa using hf)
    simp only [convertFrom, hload, hs, bind, Except.bind]
    simpa using hnext

theorem convertFds_eq {tokens : List Text} (h : tokens.length < maxListLen) :
    convertFds (.ofWritten maxListLen (closed tokens)) =
      .ok (.ofWritten maxListLen (tokens.map listedFd), tokens.length) := by
  have hc := convertFrom_eq [] tokens (maxListLen + 1) (by simpa using h) (by omega)
  rw [convertFds, Block.size_ofWritten (by rw [closed_length]; omega),
    Block.alloc_eq_ofWritten]
  exact hc

def ListsFit (paths fds : Option Text) : Prop :=
  ∀ p, paths = some p → (strtok ':' p).length < maxListLen ∧
    ∀ f, fds = some f → (strtok ':' f).length < maxListLen

instance (paths fds : Option Text) : Decidable (ListsFit paths fds) :=
  match paths, fds with
  | none, _ => .isTrue (by simp [ListsFit])
  | some p, none => decidable_of_iff ((strtok ':' p).length < maxListLen) (by simp [ListsFit])
  | some p, some f =>
    decidable_of_iff ((strtok ':' p).length < maxListLen ∧ (strtok ':' f).length < maxListLen)
      (by simp [ListsFit])

def Lists.ofTokens (paths fds : List Text) : Lists :=
  ⟨.ofWritten maxListLen (closed paths), .ofWritten maxListLen (fds.map listedFd), fds.length⟩

theorem readLists_of_fit {paths fds : Option Text} (h : ListsFit paths fds) :
    readLists paths fds =
      .ok (match paths, fds with
        | some p, some f => some (.ofTokens (strtok ':' p) (strtok ':' f))
        | _, _ => none) := by
  cases paths with
  | none => rfl
  | some p =>
    obtain ⟨hp, hf⟩ := h p rfl
    cases fds with
    | none => simp [readLists, getStringList_eq, hp, bind, Except.bind, pure, Except.pure]
    | some f =>
      have hf := hf f rfl
      simp [readLists, getStringList_eq, hp, hf, convertFds_eq hf, Lists.ofTokens,
        bind, Except.bind, pure, Except.pure]

theorem readLists_of_not_fit {paths fds : Option Text} (h : ¬ ListsFit paths fds) :
    ∃ e, readLists paths fds = .error e := by
  cases paths with
  | none => exact (h (by simp [ListsFit])).elim
  | some p =>
    by_cases hp : (strtok ':' p).length < maxListLen
    · cases fds with
      | none => exact (h (by simpa [ListsFit] using hp)).elim
      | some f =>
        have hf : ¬ (strtok ':' f).length < maxListLen :=
          fun hf => h (by simpa [ListsFit] using ⟨hp, hf⟩)
        simp [readLists, getStringList_eq, hp, hf, bind, Except.bind]
    · simp [readLists, getStringList_eq, hp, bind, Except.bind]

/-- The first of the first `count` pointers of a closed list whose path reads
like the target. The null pointer reads like a path without fields. -/
def matchIndex (target : Option Text) (paths : List Text) (count : ℕ) : Option ℕ :=
  ((closed paths).take count).findIdx? (fun e => readFields target = readFields e)

theorem findFrom_eq (target : Option Text) (size : ℕ) (written : List (Option Text))
    (count i : ℕ) :
    match ((written.drop i).take count).findIdx? (fun e => readFields target = readFields e) with
    | some j => findFrom target (.ofWritten size written) count i = .ok ((i + j : ℕ) : ℤ)
    | none =>
      if i + count ≤ written.length ∨ count = 0 then
        findFrom target (.ofWritten size written) count i = .ok (-1)
      else ∃ f, findFrom target (.ofWritten size written) count i = .error f := by
  induction count generalizing i with
  | zero => simp [findFrom]
  | succ count ih =>
    cases he : written[i]? with
    | none =>
      have hi := List.getElem?_eq_none_iff.mp he
      rw [List.drop_eq_nil_of_le hi, List.take_nil, List.findIdx?_nil]
      obtain ⟨f, hf⟩ := Block.load_ofWritten_past (n := size) hi
      rw [if_neg (by omega)]
      exact ⟨f, by simp only [findFrom, hf, bind, Except.bind]⟩
    | some e =>
      obtain ⟨hi, rfl⟩ := List.getElem?_eq_some_iff.mp he
      have hload := Block.load_ofWritten (n := size) he
      have hnext := ih (i + 1)
      rw [List.drop_eq_getElem_cons hi, List.take_succ_cons, List.findIdx?_cons]
      simp only [findFrom, hload, componentsMatch_start, bind, Except.bind, pure,
        Except.pure]
      by_cases hm : readFields target = readFields written[i]
      · simp [hm]
      · simp only [hm, decide_false, Bool.false_eq_true, if_false]
        cases hr : ((written.drop (i + 1)).take count).findIdx?
            (fun e => readFields target = readFields e) with
        | some j =>
          rw [hr] at hnext
          simp only [hnext, Option.map_some, Except.ok.injEq, Nat.cast_inj]
          omega
        | none =>
          rw [hr] at hnext
          simp only [Option.map_none]
          have hiff : (i + (count + 1) ≤ written.length ∨ count + 1 = 0) ↔
              (i + 1 + count ≤ written.length ∨ count = 0) := by omega
          simpa only [hiff] using hnext

/-- The search finds the first match, or nothing; it faults exactly when it
runs past the null pointer, which needs two descriptors more than paths. -/
theorem findMatchingPreopenPath_eq (target : Option Text) (paths : List Text) (count : ℕ) :
    match matchIndex target paths count with
    | some j => findMatchingPreopenPath target (.ofWritten maxListLen (closed paths)) count =
        .ok (j : ℤ)
    | none =>
      if count ≤ paths.length + 1 then
        findMatchingPreopenPath target (.ofWritten maxListLen (closed paths)) count = .ok (-1)
      else ∃ f, findMatchingPreopenPath target
        (.ofWritten maxListLen (closed paths)) count = .error f := by
  have h := findFrom_eq target maxListLen (closed paths) count 0
  unfold matchIndex findMatchingPreopenPath
  rw [List.drop_zero] at h
  cases hm : ((closed paths).take count).findIdx? (fun e => readFields target = readFields e) with
  | some j => simpa [hm] using h
  | none =>
    rw [hm] at h
    have hiff : (0 + count ≤ (closed paths).length ∨ count = 0) ↔
        count ≤ paths.length + 1 := by rw [closed_length]; omega
    simpa only [hiff] using h

theorem matchIndex_lt {target : Option Text} {paths : List Text} {count j : ℕ}
    (h : matchIndex target paths count = some j) : j < count ∧ j ≤ paths.length := by
  obtain ⟨hj, -⟩ := List.findIdx?_eq_some_iff_getElem.mp h
  rw [List.length_take, closed_length] at hj
  omega

end AwaitGlibc.PreopenLists

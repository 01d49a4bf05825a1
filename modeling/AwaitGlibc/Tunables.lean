import AwaitGlibc.CheckedArray
import AwaitGlibc.CText

/-!
# Reading the tunables variable

`GLIBC_TUNABLES` is a list of pairs `name=value` separated by colons. For a
secure program `parse_tunables` rewrites a copy of the variable in place, so that
only tunables of a level other than `SXID_ERASE` are left for children. Names are
looked up in the copy, values are taken from the original, and both are moved
through with one position `p`; `off` is where the next pair is written.

The position goes past a pair only if a colon follows it. After the last pair it
stays at the beginning of the value, which is then read as a name again.

Levels and names of the tunables are not changed by `tunable_initialize`; its
calls are recorded.
-/
namespace AwaitGlibc.Tunables
open CText CheckedArray

/-- `tunable_seclevel_t`. -/
inductive SecLevel where
  | sxidErase
  | sxidIgnore
  | none
deriving DecidableEq, Repr

/-- A tunable; names have dots between words, but no separators. -/
structure Tunable where
  name : Text
  securityLevel : SecLevel
  name_ok : '=' ∉ name ∧ ':' ∉ name ∧ nul ∉ name
deriving DecidableEq, Repr

structure CString where
  text : Text
  noNul : nul ∉ text
deriving DecidableEq, Repr

/-- `tunables_strdup`: one byte more than needed is allocated. -/
def tunablesStrdup (t : Text) : Block Char := .ofWritten (t.length + 2) (t ++ [nul])

def pointer (b : Block Char) (i : ℕ) : Block Char := ⟨b.cells.drop i⟩

/-- `tunable_is_name` with the name in the environment at index `i`. -/
def tunableIsName (b : Block Char) : Text → ℕ → Except Fault Bool
  | [], i => do
      let c ← b.load i
      return c == '='
  | o :: orig, i => do
      let c ← b.load i
      if c = nul ∨ o ≠ c then return false
      tunableIsName b orig (i + 1)

/-- The loop over the tunable list, which ends at the first match. -/
def findTunable (b : Block Char) (name : ℕ) : List Tunable → Except Fault (Option Tunable)
  | [] => .ok none
  | cur :: tunables => do
      if ← tunableIsName b cur.name name then return some cur
      findTunable b name tunables

structure Parse where
  tunestr : Block Char
  valstring : Block Char
  p : ℕ
  off : ℕ
  initialized : List (Tunable × Text)
deriving DecidableEq, Repr

/-- The pair is written at `off`; its value stands at `value` and ends before `fin`. -/
def writeBack (cur : Tunable) (value fin : ℕ) (σ : Parse) : Except Fault Parse := do
  let v ← σ.valstring.loadAll value (fin - value)
  let pair := (if 0 < σ.off then [':'] else []) ++ cur.name ++ '=' :: v
  let b ← σ.tunestr.storeAll σ.off pair
  return { σ with tunestr := b, off := σ.off + pair.length }

/-- A secure program keeps the pair unless its tunable is to be erased. -/
def keepPair (secure : Bool) (cur : Tunable) (value fin : ℕ) (σ : Parse) : Except Fault Parse :=
  if secure ∧ cur.securityLevel ≠ .sxidErase then writeBack cur value fin σ else .ok σ

/-- The tunable is set, in a secure program only if its level allows it. The value
is ended in the original for that. -/
def setTunable (secure : Bool) (cur : Tunable) (value fin : ℕ) (σ : Parse) : Except Fault Parse :=
  if secure ∧ cur.securityLevel ≠ .none then .ok σ
  else do
    let b ← σ.valstring.store fin nul
    let v ← b.loadAll value (fin - value)
    return { σ with valstring := b, initialized := σ.initialized ++ [(cur, v)] }

def useFound (secure : Bool) (found : Option Tunable) (value fin : ℕ) (σ : Parse) :
    Except Fault Parse :=
  match found with
  | none => .ok σ
  | some cur => do
      let σ ← keepPair secure cur value fin σ
      setTunable secure cur value fin σ

def endsName (c : Char) : Bool := c = '=' || c = ':' || c = nul

def endsValue (c : Char) : Bool := c = ':' || c = nul

/-- A pair with its name at `p`, and the position behind it. -/
def parsePair (secure : Bool) (tunables : List Tunable) (value : ℕ) (σ : Parse) :
    Except Fault Parse := do
  let fin ← σ.tunestr.scan endsValue value
  let found ← findTunable σ.tunestr σ.p tunables
  let σ ← useFound secure found value fin σ
  let c ← σ.tunestr.load fin
  return { σ with p := if c ≠ nul then fin + 1 else value }

def parseLoop (secure : Bool) (tunables : List Tunable) : ℕ → Parse → Except Fault Parse
  | 0, _ => .error .outOfFuel
  | fuel + 1, σ => do
      let nameEnd ← σ.tunestr.scan endsName σ.p
      let c ← σ.tunestr.load nameEnd
      if c = nul then
        if secure then
          let b ← σ.tunestr.store σ.off nul
          return { σ with tunestr := b }
        return σ
      if c = ':' then parseLoop secure tunables fuel { σ with p := nameEnd + 1 }
      else
        let σ ← parsePair secure tunables (nameEnd + 1) σ
        parseLoop secure tunables fuel σ

def glibcTunables : Text := "GLIBC_TUNABLES".toList

/-- The arguments of `parse_tunables` in `__tunables_init`: the copy of the entry
behind the name, and the value in the environment. -/
def start (s : CString) : Parse where
  tunestr := pointer (tunablesStrdup (glibcTunables ++ '=' :: s.text)) (glibcTunables.length + 1)
  valstring := .ofWritten (s.text.length + 1) (s.text ++ [nul])
  p := 0
  off := 0
  initialized := []

def parseTunables (secure : Bool) (tunables : List Tunable) (s : CString) : Except Fault Parse :=
  if s.text = [] then .ok (start s)
  else parseLoop secure tunables (s.text.length + 1) (start s)

theorem pointer_tunablesStrdup (name value : Text) :
    pointer (tunablesStrdup (name ++ '=' :: value)) (name.length + 1) = tunablesStrdup value := by
  have hsize : (name ++ '=' :: value).length + 2 - (name ++ '=' :: value ++ [nul]).length =
      value.length + 2 - (value ++ [nul]).length := by
    simp only [List.length_append, List.length_cons, List.length_nil]
    omega
  unfold pointer tunablesStrdup Block.ofWritten
  rw [hsize, List.append_assoc, List.cons_append, List.append_cons, List.map_append,
    List.append_assoc]
  exact congrArg Block.mk (List.drop_left' (by simp))

section Lookup
variable {n : ℕ} {written name rest : Text} {i : ℕ}

theorem tunableIsName_eq (hwritten : written.drop i = name ++ '=' :: rest)
    (hname : '=' ∉ name ∧ nul ∉ name) {orig : Text} (horig : '=' ∉ orig) :
    tunableIsName (.ofWritten n written) orig i = .ok (orig = name) := by
  induction orig generalizing i name with
  | nil =>
    cases name with
    | nil =>
      have hload : written[i]? = some '=' := by rw [← List.head?_drop, hwritten]; rfl
      rw [tunableIsName, Block.load_ofWritten hload]
      rfl
    | cons c name =>
      have hload : written[i]? = some c := by rw [← List.head?_drop, hwritten]; rfl
      have hc : c ≠ '=' := fun h => hname.1 (h ▸ List.mem_cons_self)
      rw [tunableIsName, Block.load_ofWritten hload]
      simp [bind, Except.bind, pure, Except.pure, hc]
  | cons o orig ih =>
    have ho : o ≠ '=' := fun h => horig (h ▸ List.mem_cons_self)
    cases name with
    | nil =>
      have hload : written[i]? = some '=' := by rw [← List.head?_drop, hwritten]; rfl
      rw [tunableIsName, Block.load_ofWritten hload]
      simp [bind, Except.bind, pure, Except.pure, ho]
    | cons c name =>
      have hload : written[i]? = some c := by rw [← List.head?_drop, hwritten]; rfl
      have hc : c ≠ nul := fun h => hname.2 (h ▸ List.mem_cons_self)
      have hnext : written.drop (i + 1) = name ++ '=' :: rest := by
        rw [← List.tail_drop, hwritten]
        rfl
      have hstep := ih hnext
        ⟨fun h => hname.1 (List.mem_cons_of_mem c h), fun h => hname.2 (List.mem_cons_of_mem c h)⟩
        fun h => horig (List.mem_cons_of_mem o h)
      rw [tunableIsName, Block.load_ofWritten hload]
      simp only [bind, Except.bind, hc, false_or, hstep, List.cons.injEq]
      by_cases heq : o = c
      · simp [heq]
      · simp [heq, pure, Except.pure]

def lookup (tunables : List Tunable) (name : Text) : Option Tunable :=
  tunables.find? (·.name = name)

theorem findTunable_eq (hwritten : written.drop i = name ++ '=' :: rest)
    (hname : '=' ∉ name ∧ nul ∉ name) (tunables : List Tunable) :
    findTunable (.ofWritten n written) i tunables = .ok (lookup tunables name) := by
  induction tunables with
  | nil => rfl
  | cons cur tunables ih =>
    rw [findTunable, tunableIsName_eq hwritten hname cur.name_ok.1, lookup, List.find?_cons]
    by_cases hcur : cur.name = name
    · simp [bind, Except.bind, pure, Except.pure, hcur]
    · simp only [bind, Except.bind, hcur, decide_false, Bool.false_eq_true, if_false]
      exact ih

end Lookup

section Steps
variable {secure : Bool} {tunables : List Tunable} {cur : Tunable} {value fin : ℕ} {σ σ' : Parse}

theorem setTunable_tunestr (h : setTunable secure cur value fin σ = .ok σ') :
    σ'.tunestr = σ.tunestr := by
  unfold setTunable at h
  split_ifs at h
  · cases h
    rfl
  · obtain ⟨b, -, h⟩ := ok_of_bind h
    obtain ⟨v, -, h⟩ := ok_of_bind h
    cases h
    rfl

/-- Where no NUL is left to be found, the loop runs past the end of the copy. -/
theorem parseLoop_stuck (hsize : σ.tunestr.size ≤ σ.p + 1)
    (hnul : ∀ j, σ.p ≤ j → σ.tunestr.load j ≠ .ok nul) (fuel : ℕ) :
    parseLoop secure tunables fuel σ ≠ .ok σ' := by
  intro h
  obtain _ | fuel := fuel
  · cases h
  obtain ⟨nameEnd, hscan, h⟩ := ok_of_bind h
  obtain ⟨c, hc, h⟩ := ok_of_bind h
  have hname := Block.scan_bounds hscan
  have hc' : c ≠ nul := by
    rintro rfl
    exact hnul _ hname.1 hc
  rw [if_neg hc'] at h
  split_ifs at h
  · obtain _ | fuel := fuel
    · cases h
    obtain ⟨nameEnd', hscan', -⟩ := ok_of_bind h
    have := Block.scan_bounds hscan'
    dsimp only at this
    omega
  · obtain ⟨σ₁, hpair, -⟩ := ok_of_bind h
    obtain ⟨fin, hscan', -⟩ := ok_of_bind hpair
    have := Block.scan_bounds hscan'
    omega

/-- A relation that the two writers keep, and that does not depend on the rest of the
state, holds between the start and the end of a parse. -/
structure Steps (secure : Bool) (R : Parse → Parse → Prop) : Prop where
  trans : ∀ {σ₁ σ₂ σ₃}, R σ₁ σ₂ → R σ₂ σ₃ → R σ₁ σ₃
  move : ∀ {σ σ' : Parse}, σ'.off = σ.off → σ'.initialized = σ.initialized → R σ σ'
  write : ∀ {cur value fin σ σ'}, writeBack cur value fin σ = .ok σ' → R σ σ'
  set : ∀ {cur value fin σ σ'}, setTunable secure cur value fin σ = .ok σ' → R σ σ'

variable {R : Parse → Parse → Prop}

theorem Steps.useFound (hR : Steps secure R) {found : Option Tunable}
    (h : useFound secure found value fin σ = .ok σ') : R σ σ' := by
  cases found with
  | none =>
    cases h
    exact hR.move rfl rfl
  | some cur =>
    obtain ⟨σ₁, hkeep, hset⟩ := ok_of_bind h
    refine hR.trans ?_ (hR.set hset)
    unfold keepPair at hkeep
    split_ifs at hkeep
    · exact hR.write hkeep
    · cases hkeep
      exact hR.move rfl rfl

theorem Steps.parsePair (hR : Steps secure R) (h : parsePair secure tunables value σ = .ok σ') :
    R σ σ' := by
  obtain ⟨fin, -, h⟩ := ok_of_bind h
  obtain ⟨found, -, h⟩ := ok_of_bind h
  obtain ⟨σ₁, huse, h⟩ := ok_of_bind h
  obtain ⟨c, -, h⟩ := ok_of_bind h
  cases h
  refine hR.trans (hR.useFound huse) ?_
  exact hR.move rfl rfl

theorem Steps.parseLoop (hR : Steps secure R) {fuel : ℕ}
    (h : parseLoop secure tunables fuel σ = .ok σ') : R σ σ' := by
  induction fuel generalizing σ with
  | zero => cases h
  | succ fuel ih =>
    obtain ⟨nameEnd, -, h⟩ := ok_of_bind h
    obtain ⟨c, -, h⟩ := ok_of_bind h
    split_ifs at h
    · obtain ⟨b, -, h⟩ := ok_of_bind h
      cases h
      exact hR.move rfl rfl
    · cases h
      exact hR.move rfl rfl
    · refine hR.trans ?_ (ih h)
      exact hR.move rfl rfl
    · obtain ⟨σ₁, hpair, h⟩ := ok_of_bind h
      exact hR.trans (hR.parsePair hpair) (ih h)

end Steps

end AwaitGlibc.Tunables

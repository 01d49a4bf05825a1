import AwaitGlibc.TunablesFilter
import Mathlib.Data.List.Forall2

/-!
# The environment behind `__tunables_init`

The loop over the environment passes an entry on, replaces it when it is
`GLIBC_TUNABLES`, or erases all entries of its name from there on and reads again
from the same place. The inner loop over the tunables goes on after an erasure with
the name of the entry that is gone, and it ends at a tunable that is read. So an alias
that a tunable to be erased shares with one that is read is erased only if the former
comes first in the list. `initLoop_eq` says what is left: a secure program passes on the
entries that no tunable has erased, each once and in order.
-/
namespace AwaitGlibc.TunablesInit
open CText CheckedArray Tunables TunablesRewrite TunablesFilter

structure Listed extends Tunable where
  envAlias : Text
  initialized : Bool
  alias_ok : '=' ∉ envAlias ∧ envAlias ≠ glibcTunables

def isName : Text → Text → Bool
  | o :: orig, c :: env => o == c && isName orig env
  | [], c :: _ => c == '='
  | _, [] => false

def valueOf (e : Text) : CString where
  text := ((e.dropWhile (· != '=')).drop 1).takeWhile (· != nul)
  noNul := fun h => by simpa using List.mem_takeWhile_imp h

def erase (name : Text) : List Text → List Text
  | [] => []
  | e :: env => if isName name e then erase name env else e :: erase name env

section Model
variable (secure : Bool) (accepts : Listed → Text → Bool)

/-- `tunable_initialize`: the flag is set when the value is accepted. -/
def tunableInitialize (cur : Listed) (value : Text) : Listed :=
  { cur with initialized := cur.initialized || accepts cur value }

/-- What the loop over the tunables leaves: the list, the environment from the entry
on, and whether it is to be read again from there. -/
structure Tried where
  tunables : List Listed
  env : List Text
  again : Bool

/-- The loop over the tunables for the entry `e`. -/
def tryAliases (e : Text) : List Listed → List Text → Bool → Tried
  | [], env, again => ⟨[], env, again⟩
  | cur :: rest, env, again =>
    let skip (env : List Text) (again : Bool) : Tried :=
      let r := tryAliases e rest env again
      { r with tunables := cur :: r.tunables }
    if cur.initialized || cur.envAlias.isEmpty then skip env again
    else if isName cur.envAlias e then
      if secure && cur.securityLevel == .sxidErase then skip (erase cur.envAlias env) true
      else if secure && cur.securityLevel != .none then skip env again
      else ⟨tunableInitialize accepts cur (valueOf e).text :: rest, env, again⟩
    else skip env again

def markParsed (σ : Parse) (cur : Listed) : Listed :=
  { cur with initialized := cur.initialized ||
      σ.initialized.any fun p => p.1 == cur.toTunable && accepts cur p.2 }

/-- The loop of `__tunables_init`: `done` stands in front of the iterator. -/
def initLoop : ℕ → List Text → List Text → List Listed → Except Fault (List Text)
  | 0, _, _, _ => .error .outOfFuel
  | _ + 1, done, [], _ => .ok done
  | fuel + 1, done, e :: env, tunables =>
    if '=' ∉ e then initLoop fuel (done ++ [e]) env tunables
    else if isName glibcTunables e then do
      let σ ← parseTunables secure (tunables.map (·.toTunable)) (valueOf e)
      initLoop fuel (done ++ [glibcTunables ++ '=' :: cText σ.tunestr]) env
        (tunables.map (markParsed accepts σ))
    else
      let r := tryAliases secure accepts e tunables (e :: env) false
      if r.again then initLoop fuel done r.env r.tunables
      else initLoop fuel (done ++ [e]) env r.tunables

def tunablesInit (tunables : List Listed) (env : List Text) : Except Fault (List Text) :=
  initLoop secure accepts (env.length + 1) [] env tunables

end Model

def Erased (tunables : List Listed) (e : Text) : Bool :=
  tunables.any fun t => t.securityLevel == .sxidErase && !t.envAlias.isEmpty && isName t.envAlias e

/-- Of the tunables with this alias that are not set and not ignored, the first one in
the list is to be erased. -/
def erasedFirst (tunables : List Listed) (e : Text) : Bool :=
  (tunables.find? fun t => !(t.initialized || t.envAlias.isEmpty) &&
    (isName t.envAlias e && t.securityLevel != .sxidIgnore)).any (·.securityLevel == .sxidErase)

/-- `GLIBC_TUNABLES` with its filtered text, and any other entry as it is. -/
def replaced (ts : List Tunable) (e : Text) : Text :=
  if isName glibcTunables e then glibcTunables ++ '=' :: filteredText ts (valueOf e).text else e

theorem isName_iff {name e : Text} : isName name e = true ↔ ∃ v, e = name ++ '=' :: v := by
  induction name generalizing e with
  | nil => cases e <;> simp [isName]
  | cons o name ih =>
    cases e with
    | nil => simp [isName]
    | cons c e =>
      simp only [isName, Bool.and_eq_true, beq_iff_eq, ih, List.cons_append, List.cons.injEq]
      constructor
      · rintro ⟨rfl, v, rfl⟩
        exact ⟨v, rfl, rfl⟩
      · rintro ⟨v, rfl, rfl⟩
        exact ⟨rfl, v, rfl⟩

theorem isName_unique {a b e : Text} (ha : '=' ∉ a) (hb : '=' ∉ b) (h : isName a e = true)
    (h' : isName b e = true) : a = b := by
  obtain ⟨v, rfl⟩ := isName_iff.mp h
  obtain ⟨w, hw⟩ := isName_iff.mp h'
  rw [← takeWhile_of_not_mem ha v, hw, takeWhile_of_not_mem hb]

theorem erase_eq_filter (name : Text) (env : List Text) :
    erase name env = env.filter (!isName name ·) := by
  induction env with
  | nil => rfl
  | cons e env ih =>
    rw [erase, ih]
    cases h : isName name e <;> simp [h]

theorem erase_erase (name : Text) (env : List Text) :
    erase name (erase name env) = erase name env := by
  simp [erase_eq_filter, List.filter_filter]

theorem filter_erase (p : Text → Bool) {name : Text} (env : List Text)
    (h : ∀ e ∈ env, isName name e = true → p e = false) :
    (erase name env).filter p = env.filter p := by
  rw [erase_eq_filter, List.filter_filter]
  apply List.filter_congr
  intro e he
  cases hn : isName name e with
  | false => simp
  | true => simp [h e he hn]

/-! ### One entry -/

section Entry
variable {accepts : Listed → Text → Bool} {tunables tunables' : List Listed} {e name : Text}

/-- `t'` is `t` at a later time: it may have been set, unless it is to be erased. -/
structure Later (t t' : Listed) : Prop where
  same : t'.toTunable = t.toTunable
  alias_eq : t'.envAlias = t.envAlias
  stays_set : t.initialized = true → t'.initialized = true
  not_set : t.securityLevel = .sxidErase → t'.initialized = t.initialized

theorem later_refl (tunables : List Listed) : List.Forall₂ Later tunables tunables :=
  List.forall₂_same.mpr fun _ _ => ⟨rfl, rfl, id, fun _ => rfl⟩

/-- A tunable that a secure program reads may be set. -/
theorem Later.set {t t' : Listed} (h : Later t t') {b : Bool}
    (hlevel : b = true → t'.securityLevel = .none) :
    Later t { t' with initialized := t'.initialized || b } := by
  refine ⟨h.same, h.alias_eq, fun hset => by simp [h.stays_set hset], fun herase => ?_⟩
  have hb : b = false := by
    rw [Bool.eq_false_iff]
    intro hb
    have hl := hlevel hb
    rw [show t'.securityLevel = t.securityLevel by rw [h.same], herase] at hl
    cases hl
  simpa [hb] using h.not_set herase

theorem later_tryAliases (h : List.Forall₂ Later tunables tunables') (env : List Text)
    (again : Bool) :
    List.Forall₂ Later tunables (tryAliases true accepts e tunables' env again).tunables := by
  induction h generalizing env again with
  | nil => exact .nil
  | cons hcur hrest ih =>
    simp only [tryAliases, Bool.true_and]
    split_ifs with hskip hname herase hlevel
    · exact .cons hcur (ih ..)
    · exact .cons hcur (ih ..)
    · exact .cons hcur (ih ..)
    · exact .cons (hcur.set fun _ => by simpa using hlevel) hrest
    · exact .cons hcur (ih ..)

theorem erasedFirst_cons (cur : Listed) (rest : List Listed) (e : Text) :
    erasedFirst (cur :: rest) e =
      if cur.initialized || cur.envAlias.isEmpty then erasedFirst rest e
      else if isName cur.envAlias e then
        match cur.securityLevel with
        | .sxidErase => true
        | .sxidIgnore => erasedFirst rest e
        | .none => false
      else erasedFirst rest e := by
  unfold erasedFirst
  rw [List.find?_cons]
  cases cur.initialized || cur.envAlias.isEmpty with
  | true => rfl
  | false =>
    cases isName cur.envAlias e with
    | false => rfl
    | true =>
      cases hl : cur.securityLevel with
      | sxidErase => exact (congrArg (· == SecLevel.sxidErase) hl).trans rfl
      | sxidIgnore => rfl
      | none => exact (congrArg (· == SecLevel.sxidErase) hl).trans rfl

/-- The entry is erased with all of its name behind it, or nothing is. The tunables
behind the one that erased it find nothing more to erase. -/
theorem tryAliases_eq (accepts : Listed → Text → Bool) (hname : '=' ∉ name)
    (he : isName name e = true) (tunables : List Listed) (env : List Text) (again : Bool) :
    (tryAliases true accepts e tunables env again).env =
        (if erasedFirst tunables e then erase name env else env) ∧
      (tryAliases true accepts e tunables env again).again = (erasedFirst tunables e || again) := by
  induction tunables generalizing env again with
  | nil => exact ⟨rfl, rfl⟩
  | cons cur rest ih =>
    rw [erasedFirst_cons]
    simp only [tryAliases, Bool.true_and]
    by_cases hskip : (cur.initialized || cur.envAlias.isEmpty) = true
    · simp only [if_pos hskip]
      exact ih env again
    simp only [if_neg hskip]
    by_cases hn : isName cur.envAlias e = true
    swap
    · simp only [if_neg hn]
      exact ih env again
    simp only [if_pos hn]
    cases hl : cur.securityLevel with
    | sxidErase =>
      have hal : cur.envAlias = name := isName_unique cur.alias_ok.1 hname hn he
      obtain ⟨henv, hagain⟩ := ih (erase name env) true
      rw [erase_erase, ite_self] at henv
      rw [hal]
      exact ⟨henv, hagain.trans (Bool.or_true _)⟩
    | sxidIgnore => exact ih env again
    | none => exact ⟨rfl, rfl⟩

theorem steps_level : Steps true fun σ σ' =>
    (∀ p ∈ σ.initialized, p.1.securityLevel = .none) →
      ∀ p ∈ σ'.initialized, p.1.securityLevel = .none where
  trans h h' := h' ∘ h
  move _ hi h := hi ▸ h
  write hrun h := by
    obtain ⟨v, -, hrun⟩ := ok_of_bind hrun
    obtain ⟨b, -, hrun⟩ := ok_of_bind hrun
    cases hrun
    exact h
  set hrun h := by
    unfold setTunable at hrun
    split_ifs at hrun with hlevel
    · cases hrun
      exact h
    · obtain ⟨b, -, hrun⟩ := ok_of_bind hrun
      obtain ⟨v, -, hrun⟩ := ok_of_bind hrun
      cases hrun
      simp only [List.forall_mem_append, List.forall_mem_singleton]
      exact ⟨h, by simpa using hlevel⟩

theorem later_markParsed {s : CString} {σ : Parse} {ts : List Tunable}
    (h : List.Forall₂ Later tunables tunables') (hrun : parseTunables true ts s = .ok σ) :
    List.Forall₂ Later tunables (tunables'.map (markParsed accepts σ)) := by
  have hlevel : ∀ p ∈ σ.initialized, p.1.securityLevel = .none := by
    unfold parseTunables at hrun
    split_ifs at hrun
    · cases hrun
      simp [start]
    · exact steps_level.parseLoop hrun (by simp [start])
  rw [List.forall₂_map_right_iff]
  refine h.imp fun t t' hlater => hlater.set fun hset => ?_
  obtain ⟨p, hp, hset⟩ := List.any_eq_true.mp hset
  rw [Bool.and_eq_true, beq_iff_eq] at hset
  rw [← hset.1]
  exact hlevel p hp

end Entry

/-! ### The whole environment -/

section Environment
variable {accepts : Listed → Text → Bool} {tunables tunables' : List Listed} {e : Text}

theorem erased_iff : Erased tunables e = true ↔ ∃ t ∈ tunables, t.securityLevel = .sxidErase ∧
    t.envAlias ≠ [] ∧ isName t.envAlias e = true := by
  simp [Erased, and_assoc]

theorem erased_of_erasedFirst (h : erasedFirst tunables e = true) : Erased tunables e = true := by
  unfold erasedFirst at h
  obtain ⟨t, ht⟩ : ∃ t, tunables.find? (fun t => !(t.initialized || t.envAlias.isEmpty) &&
      (isName t.envAlias e && t.securityLevel != .sxidIgnore)) = some t := by
    rw [← Option.isSome_iff_exists]
    exact Option.isSome_of_any h
  rw [ht] at h
  have hl : t.securityLevel = .sxidErase := by simpa using h
  have hfound := List.find?_some ht
  simp only [Bool.and_eq_true, Bool.not_eq_true', Bool.or_eq_false_iff] at hfound
  refine erased_iff.mpr ⟨t, List.mem_of_find?_eq_some ht, hl, ?_, hfound.2.1⟩
  simpa using hfound.1.2

theorem Later.erased (h : List.Forall₂ Later tunables tunables') :
    Erased tunables' e = Erased tunables e := by
  induction h with
  | nil => rfl
  | cons hcur _ ih => simp only [Erased, List.any_cons, hcur.same, hcur.alias_eq] at ih ⊢; rw [ih]

theorem Later.map_toTunable (h : List.Forall₂ Later tunables tunables') :
    tunables'.map (·.toTunable) = tunables.map (·.toTunable) := by
  induction h with
  | nil => rfl
  | cons hcur _ ih => rw [List.map_cons, List.map_cons, ih, hcur.same]

/-- A tunable to be erased that came first still does. -/
theorem Later.erasedFirst (h : List.Forall₂ Later tunables tunables')
    (hfirst : erasedFirst tunables e = true) : TunablesInit.erasedFirst tunables' e = true := by
  induction h with
  | nil => exact hfirst
  | @cons cur cur' rest rest' hcur _ ih =>
    have hlevel : cur'.securityLevel = cur.securityLevel := by rw [hcur.same]
    rw [erasedFirst_cons] at hfirst ⊢
    rw [hcur.alias_eq, hlevel]
    by_cases hskip : (cur.initialized || cur.envAlias.isEmpty) = true
    · rw [if_pos hskip] at hfirst
      have hskip' : (cur'.initialized || cur.envAlias.isEmpty) = true := by
        rw [Bool.or_eq_true] at hskip ⊢
        exact hskip.imp_left hcur.stays_set
      rw [if_pos hskip']
      exact ih hfirst
    rw [if_neg hskip] at hfirst
    by_cases hn : isName cur.envAlias e = true
    · rw [if_pos hn] at hfirst ⊢
      cases hl : cur.securityLevel with
      | sxidErase => rw [hcur.not_set hl, if_neg hskip]
      | sxidIgnore =>
        rw [hl] at hfirst
        rw [ih hfirst]
        exact ite_self _
      | none =>
        rw [hl] at hfirst
        cases hfirst
    · rw [if_neg hn] at hfirst ⊢
      rw [ih hfirst, ite_self]

/-- What holds of the list of tunables throughout the loop. -/
structure Stable (accepts : Listed → Text → Bool) (I : List Listed → Prop) : Prop where
  tryAliases : ∀ {tunables}, I tunables → ∀ e env again,
    I (tryAliases true accepts e tunables env again).tunables
  markParsed : ∀ {tunables ts s σ}, I tunables → parseTunables true ts s = .ok σ →
    I (tunables.map (markParsed accepts σ))

theorem stable_later (accepts : Listed → Text → Bool) (tunables : List Listed) :
    Stable accepts (List.Forall₂ Later tunables) :=
  ⟨fun h _ => later_tryAliases h, fun h => later_markParsed h⟩

theorem tryAliases_never (tunables : List Listed) (e : Text) (env : List Text) (again : Bool) :
    (tryAliases true (fun _ _ => false) e tunables env again).tunables = tunables := by
  induction tunables generalizing env again with
  | nil => rfl
  | cons cur rest ih =>
    simp only [tryAliases, tunableInitialize, Bool.or_false]
    split_ifs <;> simp only [ih]

/-- When no value is accepted, nothing is ever set. -/
theorem stable_never (tunables : List Listed) : Stable (fun _ _ => false) (· = tunables) where
  tryAliases := fun h _ _ _ => by rw [tryAliases_never, h]
  markParsed := by
    rintro _ ts s σ rfl -
    have hnone : σ.initialized.any (fun _ => false) = false := List.any_eq_false.mpr (by simp)
    exact List.map_id'' (fun t => by simp [TunablesInit.markParsed, hnone]) _

/-- An entry that is not erased, replaced if it is `GLIBC_TUNABLES`. -/
def pass (ts : List Tunable) (e : Text) : Except Fault Text :=
  if isName glibcTunables e then do
    let σ ← parseTunables true ts (valueOf e)
    return glibcTunables ++ '=' :: cText σ.tunestr
  else .ok e

def passAll (ts : List Tunable) : List Text → Except Fault (List Text)
  | [] => .ok []
  | e :: env => do
    let e' ← pass ts e
    let env' ← passAll ts env
    return e' :: env'

theorem erasedFirst_congr {name e' : Text} (hname : '=' ∉ name) (he : isName name e = true)
    (he' : isName name e' = true) : erasedFirst tunables e = erasedFirst tunables e' := by
  have hiff : ∀ t : Listed, isName t.envAlias e = isName t.envAlias e' := by
    intro t
    rw [Bool.eq_iff_iff]
    constructor
    · intro h
      rwa [isName_unique t.alias_ok.1 hname h he]
    · intro h
      rwa [isName_unique t.alias_ok.1 hname h he']
  simp only [erasedFirst, hiff]

theorem not_erased_of_glibcTunables (tunables : List Listed) (h : isName glibcTunables e = true) :
    Erased tunables e = false := by
  rw [Bool.eq_false_iff]
  intro he
  obtain ⟨t, -, -, -, hn⟩ := erased_iff.mp he
  exact t.alias_ok.2 (isName_unique t.alias_ok.1 (by decide) hn h)

theorem not_erasedFirst (h : Erased tunables e = false) : erasedFirst tunables e = false := by
  rw [Bool.eq_false_iff] at h ⊢
  exact mt erased_of_erasedFirst h

theorem isName_takeWhile (h : '=' ∈ e) : isName (e.takeWhile (· != '=')) e = true := by
  obtain ⟨name, v, rfl, hname⟩ := List.eq_append_cons_of_mem h
  rw [takeWhile_of_not_mem hname]
  exact isName_iff.mpr ⟨v, rfl⟩

theorem not_isName_of_no_equals (h : '=' ∉ e) (name : Text) : isName name e = false := by
  rw [Bool.eq_false_iff]
  intro hn
  obtain ⟨v, rfl⟩ := isName_iff.mp hn
  simp at h

theorem erase_cons_sublist {name : Text} (h : isName name e = true) (env : List Text) :
    (erase name (e :: env)).Sublist env := by
  rw [erase, if_pos h, erase_eq_filter]
  exact List.filter_sublist

theorem bind_passAll_cons {ts : List Tunable} {env done : List Text} {e' : Text}
    (h : pass ts e = .ok e') :
    (passAll ts (e :: env) >>= fun out => Except.ok (done ++ out)) =
      passAll ts env >>= fun out => Except.ok (done ++ [e'] ++ out) := by
  rw [passAll, h, ok_bind]
  cases passAll ts env with
  | error f => rfl
  | ok out =>
    change Except.ok (done ++ e' :: out) = Except.ok (done ++ [e'] ++ out)
    rw [List.append_cons]

/-- Each round passes one entry or erases at least the one it looks at, so that the
length of the environment bounds the rounds. -/
theorem initLoop_eq {I : List Listed → Prop} (hstable : Stable accepts I) {ts : List Tunable}
    (hts : ∀ tunables, I tunables → tunables.map (·.toTunable) = ts) {erases : Text → Bool}
    (fuel : ℕ) (h : I tunables) (done env : List Text)
    (herases : ∀ tunables, I tunables → ∀ e ∈ env, erasedFirst tunables e = erases e)
    (hfuel : env.length < fuel) :
    initLoop true accepts fuel done env tunables =
      passAll ts (env.filter (!erases ·)) >>= fun out => .ok (done ++ out) := by
  induction fuel generalizing done env tunables with
  | zero => omega
  | succ fuel ih =>
    cases env with
    | nil => simp [initLoop, passAll, bind, Except.bind]
    | cons e env =>
      rw [List.length_cons] at hfuel
      have he := herases tunables h e List.mem_cons_self
      have hrest : ∀ tunables, I tunables → ∀ x ∈ env, erasedFirst tunables x = erases x :=
        fun tunables h x hx => herases tunables h x (List.mem_cons_of_mem e hx)
      -- what is left when the entry stays
      have hstay : ∀ {tunables' e'}, I tunables' → erasedFirst tunables e = false →
          pass ts e = .ok e' → initLoop true accepts fuel (done ++ [e']) env tunables' =
            passAll ts ((e :: env).filter (!erases ·)) >>= fun out => .ok (done ++ out) := by
        intro tunables' e' h' hnot hpass
        rw [ih h' _ env hrest (by omega), List.filter_cons_of_pos (by simp [← he, hnot]),
          bind_passAll_cons hpass]
      rw [initLoop]
      by_cases heq : '=' ∈ e
      · rw [if_neg (not_not.mpr heq)]
        cases hg : isName glibcTunables e with
        | true =>
          have hnot := not_erasedFirst (not_erased_of_glibcTunables tunables hg)
          rw [if_pos rfl, hts tunables h]
          cases hrun : parseTunables true ts (valueOf e) with
          | error f =>
            rw [List.filter_cons_of_pos (by simp [← he, hnot]), passAll, pass, if_pos hg, hrun]
            rfl
          | ok σ =>
            refine hstay (hstable.markParsed h hrun) hnot ?_
            rw [pass, if_pos hg, hrun]
            rfl
        | false =>
          have hname := isName_takeWhile heq
          have hnot : '=' ∉ e.takeWhile (· != '=') := fun hm => by
            simpa using List.mem_takeWhile_imp hm
          obtain ⟨henv, hagain⟩ := tryAliases_eq accepts hnot hname tunables (e :: env) false
          have hnext := hstable.tryAliases h e (e :: env) false
          rw [if_neg Bool.false_ne_true]
          dsimp only
          rw [henv, hagain]
          cases hfirst : erasedFirst tunables e with
          | false => exact hstay hnext hfirst (by rw [pass, hg]; rfl)
          | true =>
            have hsame : ∀ x ∈ e :: env, isName (e.takeWhile (· != '=')) x = true →
                (!erases x) = false := by
              intro x hx hn
              rw [← herases tunables h x hx, ← erasedFirst_congr hnot hname hn, hfirst]
              rfl
            have hsub := erase_cons_sublist hname env
            have hloop := ih hnext done _
              (fun tunables h x hx => hrest tunables h x (hsub.subset hx))
              (lt_of_le_of_lt hsub.length_le (by omega))
            rw [filter_erase _ _ hsame] at hloop
            exact hloop
      · rw [if_pos heq]
        have hnot := not_isName_of_no_equals heq
        refine hstay h (not_erasedFirst ?_) (by rw [pass, hnot]; rfl)
        simp [Erased, hnot]

theorem pass_eq_iff {ts : List Tunable} :
    pass ts e = .ok (replaced ts e) ↔ (isName glibcTunables e = true →
      readOnceSegments (writtenBack ts) 0 ((valueOf e).text.splitOn ':') = true) := by
  unfold pass replaced
  cases isName glibcTunables e with
  | false => simp
  | true =>
    simp only [if_true, forall_true_left]
    rw [← leaves_filteredText_iff]
    cases parseTunables true ts (valueOf e) with
    | error f => simp [Leaves, bind, Except.bind]
    | ok σ => simp [Leaves, bind, Except.bind, pure, Except.pure]

theorem passAll_eq_iff {ts : List Tunable} (env : List Text) :
    passAll ts env = .ok (env.map (replaced ts)) ↔
      ∀ e ∈ env, pass ts e = .ok (replaced ts e) := by
  induction env with
  | nil => simp [passAll]
  | cons e env ih =>
    rw [List.forall_mem_cons, ← ih, passAll]
    constructor
    · intro hrun
      obtain ⟨e', he', hrun⟩ := ok_of_bind hrun
      obtain ⟨env', henv', hrun⟩ := ok_of_bind hrun
      obtain ⟨rfl, rfl⟩ := List.cons.inj (Except.ok.inj hrun)
      exact ⟨he', henv'⟩
    · rintro ⟨he, henv⟩
      rw [he, ok_bind, henv]
      rfl

theorem length_passAll {ts : List Tunable} {env out : List Text} (h : passAll ts env = .ok out) :
    out.length = env.length := by
  induction env generalizing out with
  | nil =>
    cases h
    rfl
  | cons e env ih =>
    obtain ⟨e', -, h⟩ := ok_of_bind h
    obtain ⟨env', henv', h⟩ := ok_of_bind h
    cases h
    rw [List.length_cons, List.length_cons, ih henv']

end Environment

/-- The environment that `__tunables_init` is to leave. -/
def filteredEnv (tunables : List Listed) (env : List Text) : List Text :=
  (env.filter (!Erased tunables ·)).map (replaced (tunables.map (·.toTunable)))

section Examples

def erasedTunable : Listed where
  name := "x".toList
  securityLevel := .sxidErase
  name_ok := by decide
  envAlias := "A".toList
  initialized := false
  alias_ok := by decide

/-- Two adjacent entries of the name are erased and the entries around them stay. -/
example : tunablesInit true (fun _ _ => true) [erasedTunable]
    ["B=1".toList, "A=1".toList, "A=2".toList, "C".toList] = .ok ["B=1".toList, "C".toList] := by
  decide

end Examples

end AwaitGlibc.TunablesInit

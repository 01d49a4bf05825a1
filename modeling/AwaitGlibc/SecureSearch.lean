import AwaitGlibc.EnvVars
import AwaitGlibc.LibrarySearch

/-!
# The library search of a secure program

For a secure program the environment must not decide where libraries come from.
Two environments that differ in the variables of the library search only should
therefore lead to the same search, and the variables should not be passed on.
`sameSearch_iff` says that this is so exactly when the variable with the
descriptors does not occur, or the loader stops before it searches at all.

The other settings are not affected: `forget` drops what that variable sets, and
up to it the loop over the environment depends on the other entries only.
-/
namespace AwaitGlibc.SecureSearch
open CText CheckedArray MainState EnvVars OpenatPaths LibrarySearch

structure SearchState where
  libraryPath : Option Text
  libraryPathFds : Option Text
  capsicum : Option Bool
  envPathList : SearchPath
  openatPaths : Option (Block ℤ)
deriving DecidableEq, Repr

/-- The part of `_dl_init_paths` for the environment. `fillinRpath` splits a
path and expands its tokens. -/
def dlInitPaths (fillinRpath : Text → List Text) (llp : Option Text) : SearchPath :=
  match llp with
  | none => .removed
  | some [] => .removed
  | some s =>
    match fillinRpath s with
    | [] => .removed
    | first :: rest => .dirs first rest

def callInitPaths (fillinRpath : Text → List Text) (state : DlMainState) : SearchPath :=
  dlInitPaths fillinRpath state.libraryPath

def callInitOpenatPaths (state : DlMainState) : Except Fault (Option (Block ℤ)) :=
  dlInitOpenatPaths state.libraryPathFds none

/-- The startup of a secure program up to the search, and the environment that
is passed on. -/
def startSearch (fillinRpath : Text → List Text) (suidDebug : Bool) (environ : List Text) :
    Except Halt (SearchState × List Text) := do
  let (s, environ) ← processEnvvars true suidDebug environ
  match callInitOpenatPaths s.state with
  | .error f => .error (.fault f)
  | .ok openatPaths =>
    return (⟨s.state.libraryPath, s.state.libraryPathFds, s.state.capsicum,
      callInitPaths fillinRpath s.state, openatPaths⟩, environ)

def searchVars : List LdVar := [.libraryPath, .libraryPathFds, .originPath]

def isSearchEntry (entry : Text) : Bool := searchVars.any fun v => sets v.envName entry

/-- Two runs that end in the same search and pass on no variable of the search,
or that stop in the same way. The flag `capsicum` counts as equal in two runs that
leave it unset. -/
def SameSearch (r r' : Except Halt (SearchState × List Text)) : Prop :=
  match r, r' with
  | .ok (s, environ), .ok (s', environ') =>
    s = s' ∧ ∀ entry ∈ environ ++ environ', isSearchEntry entry = false
  | .error h, .error h' => h = h'
  | _, _ => False

section Forget

/-- The state without what the variable with the descriptors sets. -/
def forget (s : Startup) : Startup :=
  s.setState ({ · with capsicum := none, libraryPathFds := none, libraryPathSource := none })

theorem applyDebopt_forget (token : Text) (s : Startup) :
    applyDebopt token (forget s) = forget (applyDebopt token s) := by
  unfold applyDebopt
  cases debopts.find? (·.1 = token) <;> rfl

theorem processDlDebug_forget (value : Text) (s : Startup) :
    processDlDebug value (forget s) = (processDlDebug value s).map forget := by
  have hfold : (debugTokens value).foldl (fun s token => applyDebopt token s) (forget s) =
      forget ((debugTokens value).foldl (fun s token => applyDebopt token s) s) :=
    List.foldl_hom forget (fun s token => applyDebopt_forget token s)
  have hbind : ∀ s, bindForUnused (forget s) = forget (bindForUnused s) := by
    intro s
    unfold bindForUnused
    rw [apply_ite forget]
    rfl
  unfold processDlDebug
  rw [hfold, hbind]
  rw [apply_ite (Except.map forget)]
  rfl

theorem handleSetting_forget {v : LdVar} (hv : v ≠ .libraryPathFds) (value : Text) (s : Startup) :
    handleSetting true v value (forget s) = (handleSetting true v value s).map forget := by
  cases v with
  | libraryPathFds => exact (hv rfl).elim
  | debug => exact processDlDebug_forget value s
  | audit =>
    simp only [handleSetting, auditListAddString]
    split_ifs with h₁ h₂ h₃ h₃
    · rfl
    · rfl
    · exact (h₃ h₂).elim
    · exact (h₂ h₃).elim
    · rfl
  | profile | profileOutput =>
    simp only [handleSetting]
    split_ifs <;> rfl
  | _ => rfl

def isSearchVar (v : LdVar) : Bool := searchVars.contains v

/-- In a secure program the other two variables are not read. -/
theorem handleSetting_skip {v : LdVar} (hv : v = .libraryPath ∨ v = .originPath) (value : Text)
    (s : Startup) : handleSetting true v value s = .ok s := by
  rcases hv with rfl | rfl <;> rfl

theorem isSearchVar_cases {v : LdVar} (h : isSearchVar v = true) :
    v = .libraryPathFds ∨ v = .libraryPath ∨ v = .originPath := by
  revert h
  cases v <;> decide

theorem handleSettings_forget (es : List (LdVar × Text)) (s : Startup) :
    (handleSettings true es s).map forget =
      handleSettings true (es.filter (!isSearchVar ·.1)) (forget s) := by
  induction es generalizing s with
  | nil => rfl
  | cons e es ih =>
    rw [handleSettings]
    cases hv : isSearchVar e.1 with
    | true =>
      rw [List.filter_cons_of_neg (by simp [hv])]
      rcases isSearchVar_cases hv with hfds | hother
      · rw [hfds]
        exact ih _
      · rw [handleSetting_skip hother]
        exact ih s
    | false =>
      have hne : e.1 ≠ .libraryPathFds := by
        intro h
        rw [h] at hv
        cases hv
      rw [List.filter_cons_of_pos (by simp [hv]), handleSettings, handleSetting_forget hne]
      cases handleSetting true e.1 e.2 s with
      | error h => rfl
      | ok s' => exact ih s'

/-- Without the variable with the descriptors nothing has to be forgotten. -/
theorem handleSettings_filter {es : List (LdVar × Text)} (h : ∀ e ∈ es, e.1 ≠ .libraryPathFds)
    (s : Startup) :
    handleSettings true es s = handleSettings true (es.filter (!isSearchVar ·.1)) s := by
  induction es generalizing s with
  | nil => rfl
  | cons e es ih =>
    have hrest := ih (fun e he => h e (List.mem_cons_of_mem _ he))
    rw [handleSettings]
    cases hv : isSearchVar e.1 with
    | true =>
      rw [List.filter_cons_of_neg (by simp [hv])]
      rcases isSearchVar_cases hv with hfds | hother
      · exact (h e List.mem_cons_self hfds).elim
      · rw [handleSetting_skip hother]
        exact hrest s
    | false =>
      rw [List.filter_cons_of_pos (by simp [hv]), handleSettings]
      cases handleSetting true e.1 e.2 s with
      | error h => rfl
      | ok s' => exact hrest s'

theorem finishSecure_forget (suidDebug : Bool) (s : Startup) :
    finishSecure suidDebug (forget s) = (finishSecure suidDebug s).map forget := by
  cases suidDebug with
  | true =>
    simp only [finishSecure, if_true]
    rw [apply_ite (Except.map forget)]
    rfl
  | false =>
    simp only [finishSecure, Bool.false_eq_true, if_false]
    rw [apply_ite (Except.map forget)]
    rfl

end Forget

section Environments
variable {environ environ' : List Text}

theorem isSearchEntry_of_ldSetting {entry value : Text} {v : LdVar}
    (h : ldSetting entry = some (v, value)) : isSearchEntry entry = isSearchVar v := by
  rw [Bool.eq_iff_iff, isSearchEntry, isSearchVar, List.any_eq_true, List.contains_iff_mem]
  constructor
  · rintro ⟨v', hv', hsets⟩
    obtain ⟨value', h'⟩ := (sets_envName_iff v').mp hsets
    rw [h] at h'
    cases h'
    exact hv'
  · intro hv
    exact ⟨v, hv, (sets_envName_iff v).mpr ⟨value, h⟩⟩

theorem ldSettings_filter (environ : List Text) :
    ldSettings (environ.filter (!isSearchEntry ·)) =
      (ldSettings environ).filter (!isSearchVar ·.1) := by
  induction environ with
  | nil => rfl
  | cons entry environ ih =>
    cases h : ldSetting entry with
    | none =>
      have hskip : ldSettings (entry :: environ) = ldSettings environ :=
        List.filterMap_cons_none h
      rw [hskip, ← ih, List.filter_cons]
      split_ifs
      · exact List.filterMap_cons_none h
      · rfl
    | some e =>
      have hkeep : ∀ l, ldSettings (entry :: l) = e :: ldSettings l :=
        fun l => List.filterMap_cons_some h
      rw [hkeep, List.filter_cons, List.filter_cons, isSearchEntry_of_ldSetting h]
      split_ifs
      · rw [hkeep, ih]
      · exact ih

section
variable (suidDebug : Bool)
  (h : environ.filter (!isSearchEntry ·) = environ'.filter (!isSearchEntry ·))
include suidDebug h

theorem secureStartup_forget :
    (secureStartup suidDebug environ).map forget = (secureStartup suidDebug environ').map forget := by
  have hone : ∀ environ, (secureStartup suidDebug environ).map forget =
      (handleSettings true (ldSettings (environ.filter (!isSearchEntry ·))) (.init true)) >>=
        finishSecure suidDebug := by
    intro environ
    have hinit := handleSettings_forget (ldSettings environ) (.init true)
    rw [← ldSettings_filter] at hinit
    refine Eq.trans ?_ (congrArg (· >>= finishSecure suidDebug) hinit)
    unfold secureStartup
    cases handleSettings true (ldSettings environ) (.init true) with
    | error h => rfl
    | ok s => exact (finishSecure_forget suidDebug s).symm
  rw [hone, hone, h]

theorem secureStartup_eq
    (hnone : ∀ entry ∈ environ ++ environ', sets LdVar.libraryPathFds.envName entry = false) :
    secureStartup suidDebug environ = secureStartup suidDebug environ' := by
  have hone : ∀ l ⊆ environ ++ environ', secureStartup suidDebug l =
      (handleSettings true (ldSettings (l.filter (!isSearchEntry ·))) (.init true)) >>=
        finishSecure suidDebug := by
    intro l hl
    have hno : ∀ e ∈ ldSettings l, e.1 ≠ .libraryPathFds := by
      intro e he hfds
      obtain ⟨entry, hentry, hset⟩ := List.mem_filterMap.mp he
      have hsets := (sets_envName_iff e.1).mpr ⟨e.2, hset⟩
      rw [hfds, hnone entry (hl hentry)] at hsets
      cases hsets
    rw [ldSettings_filter, ← handleSettings_filter hno, secureStartup]
  rw [hone environ (List.subset_append_left _ _), hone environ' (List.subset_append_right _ _), h]

end

theorem mem_removeUnsecure_of_fds {entry : Text} (hentry : entry ∈ environ)
    (hsets : sets LdVar.libraryPathFds.envName entry = true) : entry ∈ removeUnsecure environ := by
  refine mem_removeUnsecure.mpr ⟨hentry, fun name hname => ?_⟩
  by_contra hother
  have hnames : ∀ name ∈ unsecureEnvvars, '=' ∉ name ∧ name ≠ LdVar.libraryPathFds.envName := by
    decide +kernel
  have hsame := name_unique (hnames name hname).1
    (show '=' ∉ LdVar.libraryPathFds.envName by decide) (by simpa using hother) hsets
  exact (hnames name hname).2 hsame

theorem isSearchEntry_of_mem_removeUnsecure {entry : Text} (hentry : entry ∈ removeUnsecure environ)
    (hsets : sets LdVar.libraryPathFds.envName entry = false) : isSearchEntry entry = false := by
  obtain ⟨-, hremoved⟩ := mem_removeUnsecure.mp hentry
  have hpath := hremoved LdVar.libraryPath.envName (by decide +kernel)
  have horigin := hremoved LdVar.originPath.envName (by decide +kernel)
  simp [isSearchEntry, searchVars, hsets, hpath, horigin]

variable (fillinRpath : Text → List Text)

def searchOf (s : Startup) : SearchState where
  libraryPath := s.state.libraryPath
  libraryPathFds := s.state.libraryPathFds
  capsicum := s.state.capsicum
  envPathList := callInitPaths fillinRpath s.state
  openatPaths := pathsBlock (storedFds s.state.libraryPathFds)

theorem startSearch_eq (suidDebug : Bool) (environ : List Text) :
    startSearch fillinRpath suidDebug environ =
      (secureStartup suidDebug environ).map fun s =>
        (searchOf fillinRpath s, removeUnsecure environ) := by
  unfold startSearch
  rw [processEnvvars_secure]
  cases secureStartup suidDebug environ with
  | error h => rfl
  | ok s =>
    simp only [Except.map, bind, Except.bind, callInitOpenatPaths, dlInitOpenatPaths_eq]
    rfl

/-- Two environments of a secure program that differ in the variables of the
search only: the search is the same and the variables are removed exactly when
the loader stops early or the variable with the descriptors is in neither. -/
theorem sameSearch_iff (suidDebug : Bool)
    (h : environ.filter (!isSearchEntry ·) = environ'.filter (!isSearchEntry ·)) :
    SameSearch (startSearch fillinRpath suidDebug environ)
        (startSearch fillinRpath suidDebug environ') ↔
      StopsEarly true environ ∨
        ∀ entry ∈ environ ++ environ', sets LdVar.libraryPathFds.envName entry = false := by
  have hforget := secureStartup_forget suidDebug h
  rw [startSearch_eq, startSearch_eq, ← secureStartup_error_iff suidDebug environ]
  cases hrun : secureStartup suidDebug environ with
  | error e =>
    rw [hrun] at hforget
    cases hrun' : secureStartup suidDebug environ' with
    | error e' =>
      rw [hrun'] at hforget
      cases hforget
      exact iff_of_true rfl (.inl ⟨e, rfl⟩)
    | ok s' =>
      rw [hrun'] at hforget
      cases hforget
  | ok s =>
    rw [hrun] at hforget
    cases hrun' : secureStartup suidDebug environ' with
    | error e' =>
      rw [hrun'] at hforget
      cases hforget
    | ok s' =>
      simp only [reduceCtorEq, exists_false, false_or]
      constructor
      · rintro ⟨-, hleft⟩ entry hentry
        by_contra hsets
        rw [Bool.not_eq_false] at hsets
        have hkept : entry ∈ removeUnsecure environ ++ removeUnsecure environ' := by
          rcases List.mem_append.mp hentry with hmem | hmem
          · exact List.mem_append_left _ (mem_removeUnsecure_of_fds hmem hsets)
          · exact List.mem_append_right _ (mem_removeUnsecure_of_fds hmem hsets)
        have hsearch := hleft entry hkept
        simp [isSearchEntry, searchVars, hsets] at hsearch
      · intro hnone
        have heq := secureStartup_eq suidDebug h hnone
        rw [hrun, hrun'] at heq
        cases heq
        refine ⟨rfl, fun entry hentry => ?_⟩
        rcases List.mem_append.mp hentry with hmem | hmem
        · exact isSearchEntry_of_mem_removeUnsecure hmem
            (hnone entry (List.mem_append_left _ (mem_removeUnsecure.mp hmem).1))
        · exact isSearchEntry_of_mem_removeUnsecure hmem
            (hnone entry (List.mem_append_right _ (mem_removeUnsecure.mp hmem).1))

end Environments

section Runs

/-- With and without a library path, the search of a secure program is the same. -/
theorem library_path_ignored :
    SameSearch (startSearch (strtok ':') false ["LD_LIBRARY_PATH=/t".toList, "HOME=/".toList])
      (startSearch (strtok ':') false ["HOME=/".toList]) := by
  refine (sameSearch_iff (strtok ':') false (by decide +kernel)).mpr (.inr ?_)
  decide +kernel

/-- The descriptor 3 of the caller becomes a library directory of the secure
program, and the variable is passed on. -/
theorem descriptors_enter_secure_search :
    ["LD_LIBRARY_PATH_FDS=3".toList, "HOME=/".toList].filter (!isSearchEntry ·) =
        ["HOME=/".toList].filter (!isSearchEntry ·) ∧
      ¬ SameSearch
        (startSearch (strtok ':') false ["LD_LIBRARY_PATH_FDS=3".toList, "HOME=/".toList])
        (startSearch (strtok ':') false ["HOME=/".toList]) := by
  refine ⟨by decide +kernel, ?_⟩
  rintro ⟨hsame, -⟩
  cases hsame

end Runs

end AwaitGlibc.SecureSearch

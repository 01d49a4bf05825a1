import AwaitGlibc.MainState

/-!
# The environment of the loader

`process_envvars` goes through the entries that start with `LD_`. The switch of
the source is on the length of the name; since every name is compared in full
this is a comparison of names. For a secure program most variables that name
files are skipped, and the variables of a fixed list are removed from the
environment afterwards.

The variable with the descriptors of library directories is in neither group:
it is read without a test for a secure program, and it is not in the list.
-/
namespace AwaitGlibc.EnvVars
open CText CheckedArray MainState

def sets (name entry : Text) : Bool := (name ++ ['=']).isPrefixOf entry

/-- The variables of the loader, without those that only print. -/
inductive LdVar where
  | warn
  | debug
  | audit
  | verbose
  | preload
  | profile
  | bindNow
  | bindNot
  | originPath
  | libraryPath
  | debugOutput
  | dynamicWeak
  | assumeKernel
  | useLoadBias
  | profileOutput
  | tracePrelinking
  | libraryPathFds
  | traceLoadedObjects
deriving DecidableEq, Repr

def LdVar.name : LdVar → Text
  | .warn => "WARN".toList
  | .debug => "DEBUG".toList
  | .audit => "AUDIT".toList
  | .verbose => "VERBOSE".toList
  | .preload => "PRELOAD".toList
  | .profile => "PROFILE".toList
  | .bindNow => "BIND_NOW".toList
  | .bindNot => "BIND_NOT".toList
  | .originPath => "ORIGIN_PATH".toList
  | .libraryPath => "LIBRARY_PATH".toList
  | .debugOutput => "DEBUG_OUTPUT".toList
  | .dynamicWeak => "DYNAMIC_WEAK".toList
  | .assumeKernel => "ASSUME_KERNEL".toList
  | .useLoadBias => "USE_LOAD_BIAS".toList
  | .profileOutput => "PROFILE_OUTPUT".toList
  | .tracePrelinking => "TRACE_PRELINKING".toList
  | .libraryPathFds => "LIBRARY_PATH_FDS".toList
  | .traceLoadedObjects => "TRACE_LOADED_OBJECTS".toList

/-- The order of the switch: by length, and the source's order within a length. -/
def LdVar.all : List LdVar :=
  [.warn, .debug, .audit, .verbose, .preload, .profile, .bindNow, .bindNot, .originPath,
    .libraryPath, .debugOutput, .dynamicWeak, .assumeKernel, .useLoadBias, .profileOutput,
    .tracePrelinking, .libraryPathFds, .traceLoadedObjects]

def ldVar? (name : Text) : Option LdVar := LdVar.all.find? (·.name = name)

/-- An entry for the loader: the variable and its value. Entries without an
equals sign are ignored, and so are names that are not known. -/
def ldSetting (entry : Text) : Option (LdVar × Text) :=
  match entry with
  | 'L' :: 'D' :: '_' :: envline => do
      let t ← strchr '=' envline
      let v ← ldVar? (envline.takeWhile (· != '='))
      return (v, t.drop 1)
  | _ => none

def ldSettings (environ : List Text) : List (LdVar × Text) := environ.filterMap ldSetting

def unsetenv (name : Text) (environ : List Text) : List Text := environ.filter (!sets name ·)

def unsecureEnvvars : List Text :=
  ["GCONV_PATH", "GETCONF_DIR", "HOSTALIASES", "LD_AUDIT", "LD_DEBUG", "LD_DEBUG_OUTPUT",
    "LD_DYNAMIC_WEAK", "LD_HWCAP_MASK", "LD_LIBRARY_PATH", "LD_ORIGIN_PATH", "LD_PRELOAD",
    "LD_PROFILE", "LD_SHOW_AUXV", "LD_USE_LOAD_BIAS", "LOCALDOMAIN", "LOCPATH", "MALLOC_TRACE",
    "NIS_PATH", "NLSPATH", "RESOLV_HOST_CONF", "RES_OPTIONS", "TMPDIR", "TZDIR"].map
    String.toList

def handleSetting (secure : Bool) (v : LdVar) (value : Text) (s : Startup) : Except Halt Startup :=
  match v with
  | .warn => .ok (s.setGlro ({ · with verbose := value ≠ [] }))
  | .debug => processDlDebug value s
  | .audit => auditListAddString value s
  | .verbose => .ok (s.setState ({ · with versionInfo := value ≠ [] }))
  | .preload => .ok (s.setState ({ · with preloadlist := some value }))
  | .profile => .ok (if value ≠ [] then s.setGlro ({ · with profile := some value }) else s)
  | .bindNow => .ok (s.setGlro ({ · with lazy := if value = [] then 1 else 0 }))
  | .bindNot => .ok (s.setGlro ({ · with bindNot := value ≠ [] }))
  | .originPath => .ok (if secure then s else s.setGlro ({ · with originPath := some value }))
  | .libraryPath =>
    .ok (if secure then s else s.setState ({ · with
      libraryPath := some value, libraryPathSource := some "LD_LIBRARY_PATH".toList }))
  | .debugOutput => .ok { s with debugOutput := some value }
  | .dynamicWeak => .ok (if secure then s else s.setGlro ({ · with dynamicWeak := true }))
  | .assumeKernel => .ok (s.setGlro (dlOsversionInit value))
  | .useLoadBias =>
    .ok (if secure then s else s.setGlro ({ · with
      useLoadBias := if value.head? = some '1' then -1 else 0 }))
  | .profileOutput =>
    .ok (if secure ∨ value = [] then s else s.setGlro ({ · with profileOutput := value }))
  | .tracePrelinking =>
    .ok ((s.setState ({ · with mode := .trace })).setGlro fun g => { g with
      verbose := true, debugMask := g.debugMask ||| debugPrelink, tracePrelink := some value })
  | .libraryPathFds =>
    .ok (s.setState ({ · with
      capsicum := some true, libraryPathFds := some value,
      libraryPathSource := some "LD_LIBRARY_PATH_FDS".toList }))
  | .traceLoadedObjects => .ok (s.setState ({ · with mode := .trace }))

def handleSettings (secure : Bool) : List (LdVar × Text) → Startup → Except Halt Startup
  | [], s => .ok s
  | e :: es, s => do
      let s ← handleSetting secure e.1 e.2 s
      handleSettings secure es s

/-- The end of the work for a secure program. `suidDebug` tells whether the file
`/etc/suid-debug` is there. -/
def finishSecure (suidDebug : Bool) (s : Startup) : Except Halt Startup :=
  let s := if suidDebug then s else s.setGlro ({ · with debugMask := 0 })
  if s.state.mode ≠ .normal then .error (.exit 5) else .ok s

def removeUnsecure (environ : List Text) : List Text :=
  unsecureEnvvars.foldl (fun e name => unsetenv name e) environ

/-- What follows the loop of `process_envvars`. -/
def finishEnvvars (secure suidDebug : Bool) (environ : List Text) (s : Startup) :
    Except Halt (Startup × List Text) :=
  if secure then do
    let s ← finishSecure suidDebug s
    return (s, removeUnsecure environ)
  else if s.state.anyDebug ∧ s.debugOutput ≠ none then
    return (s.setGlro ({ · with debugFile := s.debugOutput }), environ)
  else return (s, environ)

/-- `process_envvars`, and the environment it leaves. -/
def processEnvvars (secure suidDebug : Bool) (environ : List Text) :
    Except Halt (Startup × List Text) := do
  let s ← handleSettings secure (ldSettings environ) (.init secure)
  finishEnvvars secure suidDebug environ s

section Entries
variable {name value entry : Text}

theorem sets_append (name value : Text) : sets name (name ++ '=' :: value) = true := by
  rw [sets, List.isPrefixOf_iff_prefix]
  exact ⟨value, by simp⟩

theorem sets_iff : sets name entry = true ↔ ∃ value, entry = name ++ '=' :: value := by
  constructor
  · intro h
    obtain ⟨value, hvalue⟩ := List.isPrefixOf_iff_prefix.mp h
    exact ⟨value, by rw [← hvalue]; simp⟩
  · rintro ⟨value, rfl⟩
    exact sets_append name value

/-- Names do not contain an equals sign, so an entry sets one variable. -/
theorem name_unique {name' : Text} (hname : '=' ∉ name) (hname' : '=' ∉ name')
    (h : sets name entry = true) (h' : sets name' entry = true) : name = name' := by
  obtain ⟨value, rfl⟩ := sets_iff.mp h
  obtain ⟨value', hvalue'⟩ := sets_iff.mp h'
  rw [← takeWhile_of_not_mem hname value, hvalue', takeWhile_of_not_mem hname' value']

theorem LdVar.name_no_equals (v : LdVar) : '=' ∉ v.name := by cases v <;> decide

theorem ldVar?_eq_some_iff {v : LdVar} : ldVar? name = some v ↔ name = v.name := by
  constructor
  · intro h
    have hname := List.find?_some h
    exact (of_decide_eq_true hname).symm
  · rintro rfl
    cases v <;> decide +kernel

def LdVar.envName (v : LdVar) : Text := 'L' :: 'D' :: '_' :: v.name

theorem ldSetting_eq_some {v : LdVar} (h : ldSetting entry = some (v, value)) :
    entry = v.envName ++ '=' :: value := by
  unfold ldSetting at h
  split at h
  next envline =>
    have hsplit := List.takeWhile_append_dropWhile (p := (· != '=')) (l := envline)
    obtain ⟨t, ht, h⟩ := Option.bind_eq_some_iff.mp h
    obtain ⟨v', hv, h⟩ := Option.bind_eq_some_iff.mp h
    cases h
    unfold strchr at ht
    split at ht
    next => cases ht
    next t' hne =>
      cases ht
      obtain ⟨c, u, hu⟩ := List.exists_cons_of_ne_nil hne
      have hc : c = '=' := by
        have := List.head_dropWhile_not (· != '=') (l := envline) (by simp [hu])
        simpa [hu] using this
      rw [ldVar?_eq_some_iff.mp hv, hu, hc] at hsplit
      rw [hu]
      exact congrArg (fun t => 'L' :: 'D' :: '_' :: t) hsplit.symm
  next => cases h

theorem sets_envName_iff (v : LdVar) :
    sets v.envName entry = true ↔ ∃ value, ldSetting entry = some (v, value) := by
  constructor
  · intro h
    obtain ⟨value, rfl⟩ := sets_iff.mp h
    refine ⟨value, ?_⟩
    simp only [ldSetting, LdVar.envName, List.cons_append, strchr_of_not_mem v.name_no_equals,
      takeWhile_of_not_mem v.name_no_equals, ldVar?_eq_some_iff.mpr rfl, bind, Option.bind, pure,
      List.drop_one, List.tail_cons]
  · rintro ⟨value, h⟩
    rw [ldSetting_eq_some h]
    exact sets_append v.envName value

theorem mem_foldl_unsetenv (names environ : List Text) :
    entry ∈ names.foldl (fun e name => unsetenv name e) environ ↔
      entry ∈ environ ∧ ∀ name ∈ names, sets name entry = false := by
  induction names generalizing environ with
  | nil => simp
  | cons name names ih =>
    rw [List.foldl_cons, ih, unsetenv, List.mem_filter]
    simp [and_assoc]

theorem mem_removeUnsecure {environ : List Text} :
    entry ∈ removeUnsecure environ ↔
      entry ∈ environ ∧ ∀ name ∈ unsecureEnvvars, sets name entry = false :=
  mem_foldl_unsetenv unsecureEnvvars environ

end Entries

section Stopping

def modeAfter : LdVar → RtldMode → RtldMode
  | .tracePrelinking, _ => .trace
  | .traceLoadedObjects, _ => .trace
  | _, mode => mode

def auditOf : LdVar → Text → List Text
  | .audit, value => if value = [] then [] else [value]
  | _, _ => []

variable {s : Startup}

theorem auditListAddString_cases (string : Text) (hlen : s.state.auditList.length ≤ dlNns) :
    (dlNns < (s.state.auditList ++ auditOf .audit string).length ∧
        auditListAddString string s = .error (.exit 127)) ∨
      ((s.state.auditList ++ auditOf .audit string).length ≤ dlNns ∧
        auditListAddString string s =
          .ok (s.setState ({ · with auditList := s.state.auditList ++ auditOf .audit string }))) := by
  unfold auditListAddString auditOf
  by_cases hnil : string = []
  · simp only [if_pos hnil, List.append_nil]
    exact .inr ⟨hlen, rfl⟩
  · simp only [if_neg hnil, List.length_append, List.length_singleton]
    split_ifs with hfull
    · exact .inl ⟨by omega, rfl⟩
    · exact .inr ⟨by omega, rfl⟩

/-- The entry stops a run that has already put `n` strings on the audit list. -/
def stops : LdVar → Text → ℕ → Bool
  | .debug, value, _ => (debugTokens value).contains "help".toList
  | .audit, value, n => value ≠ [] && n = dlNns
  | _, _, _ => false

theorem debopts_help : ∀ o ∈ debopts, (o.2 &&& debugHelp = 0 ↔ o.1 ≠ "help".toList) := by
  decide +kernel

def NoHelp (s : Startup) : Prop := s.glro.debugMask &&& debugHelp = 0

theorem noHelp_or_iff {m m' : DebugMask} :
    (m ||| m') &&& debugHelp = 0 ↔ m &&& debugHelp = 0 ∧ m' &&& debugHelp = 0 := by
  rw [BitVec.and_comm, BitVec.and_or_distrib_left, BitVec.and_comm debugHelp,
    BitVec.and_comm debugHelp]
  exact BitVec.or_eq_zero_iff

theorem applyDebopt_frame (token : Text) (s : Startup) :
    (NoHelp (applyDebopt token s) ↔ NoHelp s ∧ token ≠ "help".toList) ∧
      (applyDebopt token s).state =
        { s.state with anyDebug := (applyDebopt token s).state.anyDebug } := by
  unfold applyDebopt
  cases hfind : debopts.find? (·.1 = token) with
  | none =>
    have hnot : token ≠ "help".toList := by
      rintro rfl
      revert hfind
      decide +kernel
    exact ⟨⟨fun h => ⟨h, hnot⟩, And.left⟩, rfl⟩
  | some o =>
    have htoken : o.1 = token := by simpa using List.find?_some hfind
    have hhelp := debopts_help o (List.mem_of_find?_eq_some hfind)
    refine ⟨?_, rfl⟩
    rw [← htoken, ← hhelp]
    exact noHelp_or_iff

theorem foldl_applyDebopt_frame (tokens : List Text) (s : Startup) :
    (NoHelp (tokens.foldl (fun s token => applyDebopt token s) s) ↔
        NoHelp s ∧ "help".toList ∉ tokens) ∧
      (tokens.foldl (fun s token => applyDebopt token s) s).state = { s.state with
        anyDebug := (tokens.foldl (fun s token => applyDebopt token s) s).state.anyDebug } := by
  induction tokens generalizing s with
  | nil => exact ⟨⟨fun h => ⟨h, List.not_mem_nil⟩, And.left⟩, rfl⟩
  | cons token tokens ih =>
    obtain ⟨hhelp, hstate⟩ := applyDebopt_frame token s
    obtain ⟨hhelp', hstate'⟩ := ih (applyDebopt token s)
    rw [List.foldl_cons]
    constructor
    · rw [hhelp', hhelp, List.mem_cons, not_or, and_assoc, ne_comm]
    · rw [hstate', hstate]

theorem bindForUnused_frame (s : Startup) :
    (bindForUnused s).state = s.state ∧ (bindForUnused s).glro.debugMask = s.glro.debugMask := by
  unfold bindForUnused
  split_ifs
  · exact ⟨rfl, rfl⟩
  · exact ⟨rfl, rfl⟩

variable (secure : Bool) (v : LdVar) (value : Text) (es : List (LdVar × Text)) (suidDebug : Bool) (environ : List Text)

theorem processDlDebug_error_iff (hs : NoHelp s) :
    (∃ h, processDlDebug value s = .error h) ↔ "help".toList ∈ debugTokens value := by
  have hhelp := (foldl_applyDebopt_frame (debugTokens value) s).1
  rw [and_iff_right hs, NoHelp, ← (bindForUnused_frame _).2] at hhelp
  unfold processDlDebug
  by_cases hzero : (bindForUnused ((debugTokens value).foldl
      (fun s token => applyDebopt token s) s)).glro.debugMask &&& debugHelp = 0
  · simp only [hzero, ne_eq, not_true_eq_false, if_false, reduceCtorEq, exists_false, false_iff]
    exact hhelp.mp hzero
  · simp only [hzero, ne_eq, not_false_eq_true, if_true]
    exact ⟨fun _ => not_not.mp (mt hhelp.mpr hzero), fun _ => ⟨_, rfl⟩⟩

theorem processDlDebug_ok {value : Text} {s' : Startup} (h : processDlDebug value s = .ok s') :
    NoHelp s' ∧ s'.state = { s.state with anyDebug := s'.state.anyDebug } := by
  obtain ⟨-, hstate⟩ := foldl_applyDebopt_frame (debugTokens value) s
  obtain ⟨hsame, -⟩ := bindForUnused_frame
    ((debugTokens value).foldl (fun s token => applyDebopt token s) s)
  unfold processDlDebug at h
  dsimp only at h
  split_ifs at h with hzero
  cases h
  refine ⟨not_not.mp hzero, ?_⟩
  rw [hsame]
  exact hstate

theorem handleSetting_error_iff (hs : NoHelp s) :
    (∃ h, handleSetting secure v value s = .error h) ↔
      stops v value s.state.auditList.length = true := by
  cases v with
  | debug =>
    rw [stops, List.contains_iff_mem]
    exact processDlDebug_error_iff value hs
  | audit =>
    simp only [handleSetting, auditListAddString, stops]
    split_ifs with hnil hfull
    · simp [hnil]
    · simp [hnil, hfull]
    · simp [hnil, hfull]
  | _ =>
    constructor
    · rintro ⟨_, h⟩
      cases h
    · intro h
      cases h

/-- The parts of the state that decide how the program is opened. -/
structure Settings where
  auditList : List Text
  mode : RtldMode
  capsicum : Option Bool
  execFd : Option Text
deriving DecidableEq, Repr

def settings (s : Startup) : Settings :=
  ⟨s.state.auditList, s.state.mode, s.state.capsicum, s.state.execFd⟩

def Settings.after (t : Settings) (e : LdVar × Text) : Settings where
  auditList := t.auditList ++ auditOf e.1 e.2
  mode := modeAfter e.1 t.mode
  capsicum := if e.1 = .libraryPathFds then some true else t.capsicum
  execFd := t.execFd

theorem handleSetting_ok {secure : Bool} {e : LdVar × Text} {s' : Startup} (hs : NoHelp s)
    (h : handleSetting secure e.1 e.2 s = .ok s') :
    NoHelp s' ∧ settings s' = (settings s).after e := by
  obtain ⟨v, value⟩ := e
  have hsame : settings s = ⟨s.state.auditList ++ [], s.state.mode, s.state.capsicum,
      s.state.execFd⟩ := by rw [List.append_nil]; rfl
  cases v with
  | debug =>
    obtain ⟨hs', hstate⟩ := processDlDebug_ok h
    refine ⟨hs', ?_⟩
    rw [settings, hstate]
    exact hsame
  | audit =>
    simp only [handleSetting, auditListAddString] at h
    split_ifs at h with hnil hfull
    · cases h
      exact ⟨hs, by simp [Settings.after, settings, auditOf, modeAfter, hnil]⟩
    · cases h
      exact ⟨hs, by simp [Settings.after, settings, auditOf, modeAfter, hnil, Startup.setState]⟩
  | profile | originPath | libraryPath | dynamicWeak | useLoadBias | profileOutput =>
    cases h
    split_ifs <;> exact ⟨hs, hsame⟩
  | assumeKernel =>
    cases h
    refine ⟨?_, hsame⟩
    rw [NoHelp, Startup.setGlro, dlOsversionInit]
    split_ifs <;> exact hs
  | tracePrelinking =>
    cases h
    refine ⟨noHelp_or_iff.mpr ⟨hs, by decide⟩, ?_⟩
    simp [Settings.after, settings, auditOf, modeAfter, Startup.setState, Startup.setGlro]
  | libraryPathFds =>
    cases h
    exact ⟨hs, by simp [Settings.after, settings, auditOf, modeAfter, Startup.setState]⟩
  | traceLoadedObjects =>
    cases h
    exact ⟨hs, by simp [Settings.after, settings, auditOf, modeAfter, Startup.setState]⟩
  | _ =>
    cases h
    exact ⟨hs, hsame⟩

def asksHelp (e : LdVar × Text) : Prop := e.1 = .debug ∧ "help".toList ∈ debugTokens e.2

def isTrace (v : LdVar) : Prop := v = .tracePrelinking ∨ v = .traceLoadedObjects

instance (e : LdVar × Text) : Decidable (asksHelp e) := inferInstanceAs (Decidable (_ ∧ _))

instance (v : LdVar) : Decidable (isTrace v) := inferInstanceAs (Decidable (_ ∨ _))

def auditStrings (es : List (LdVar × Text)) : List Text := es.flatMap fun e => auditOf e.1 e.2

theorem stops_iff {v : LdVar} {value : Text} {n : ℕ} (hn : n ≤ dlNns) :
    stops v value n = true ↔ asksHelp (v, value) ∨ dlNns < n + (auditOf v value).length := by
  cases v with
  | debug => simp [stops, asksHelp, auditOf, hn]
  | audit =>
    by_cases hnil : value = []
    · simp [stops, asksHelp, auditOf, hnil, hn]
    · simp [stops, asksHelp, auditOf, hnil]
      omega
  | _ => simp [stops, asksHelp, auditOf, hn]

theorem handleSettings_error_iff (hs : NoHelp s) (hlen : s.state.auditList.length ≤ dlNns) :
    (∃ h, handleSettings secure es s = .error h) ↔
      (∃ e ∈ es, asksHelp e) ∨
        dlNns < s.state.auditList.length + (auditStrings es).length := by
  induction es generalizing s with
  | nil => simp [handleSettings, auditStrings, hlen]
  | cons e es ih =>
    have hstop := handleSetting_error_iff secure e.1 e.2 hs
    rw [stops_iff hlen] at hstop
    have hlength : (auditStrings (e :: es)).length =
        (auditOf e.1 e.2).length + (auditStrings es).length := by simp [auditStrings]
    rw [hlength, List.exists_mem_cons_iff, handleSettings]
    cases hstep : handleSetting secure e.1 e.2 s with
    | error h =>
      refine iff_of_true ⟨h, rfl⟩ ?_
      rcases hstop.mp ⟨h, hstep⟩ with hhelp | hfull
      · exact .inl (.inl hhelp)
      · exact .inr (by omega)
    | ok s' =>
      obtain ⟨hs', hsettings⟩ := handleSetting_ok hs hstep
      have haudit : s'.state.auditList = s.state.auditList ++ auditOf e.1 e.2 :=
        congrArg Settings.auditList hsettings
      have hgo : ¬ (asksHelp e ∨
          dlNns < s.state.auditList.length + (auditOf e.1 e.2).length) := by
        intro h
        obtain ⟨_, herr⟩ := hstop.mpr h
        rw [hstep] at herr
        cases herr
      rw [not_or, not_lt] at hgo
      have hlen' : s'.state.auditList.length ≤ dlNns := by
        rw [haudit, List.length_append]
        exact hgo.2
      have hrest := ih hs' hlen'
      rw [haudit, List.length_append, Nat.add_assoc] at hrest
      simp only [hgo.1, false_or]
      exact hrest

def Settings.afterAll (t : Settings) (es : List (LdVar × Text)) : Settings where
  auditList := t.auditList ++ auditStrings es
  mode := es.foldl (fun mode e => modeAfter e.1 mode) t.mode
  capsicum := if ∃ e ∈ es, e.1 = .libraryPathFds then some true else t.capsicum
  execFd := t.execFd

theorem Settings.afterAll_cons (t : Settings) (e : LdVar × Text) (es : List (LdVar × Text)) :
    t.afterAll (e :: es) = (t.after e).afterAll es := by
  have hcapsicum : (if ∃ e' ∈ e :: es, e'.1 = .libraryPathFds then some true else t.capsicum) =
      if ∃ e' ∈ es, e'.1 = .libraryPathFds then some true else (t.after e).capsicum := by
    simp only [List.exists_mem_cons_iff, Settings.after]
    by_cases he : e.1 = .libraryPathFds
    · simp only [he, true_or, if_true, ite_self]
    · simp only [he, false_or, if_false]
  rw [Settings.afterAll, hcapsicum, Settings.afterAll]
  simp only [Settings.after, auditStrings, List.flatMap_cons, List.append_assoc, List.foldl_cons]

theorem handleSettings_ok {secure : Bool} {es : List (LdVar × Text)} {s' : Startup} (hs : NoHelp s)
    (h : handleSettings secure es s = .ok s') : settings s' = (settings s).afterAll es := by
  induction es generalizing s with
  | nil =>
    cases h
    simp [Settings.afterAll, auditStrings, settings]
  | cons e es ih =>
    obtain ⟨s₁, hstep, h⟩ := ok_of_bind h
    obtain ⟨hs₁, hsettings⟩ := handleSetting_ok hs hstep
    rw [ih hs₁ h, hsettings, Settings.afterAll_cons]

theorem modeAfter_eq_normal_iff (mode : RtldMode) :
    modeAfter v mode = .normal ↔ mode = .normal ∧ ¬ isTrace v := by
  cases v <;> simp [modeAfter, isTrace]

theorem afterAll_mode_eq_normal_iff (t : Settings) (es : List (LdVar × Text)) :
    (t.afterAll es).mode = .normal ↔ t.mode = .normal ∧ ∀ e ∈ es, ¬ isTrace e.1 := by
  induction es generalizing t with
  | nil => simp [Settings.afterAll]
  | cons e es ih =>
    rw [Settings.afterAll_cons, ih, Settings.after, modeAfter_eq_normal_iff,
      List.forall_mem_cons, and_assoc]

/-- The environment makes the loader stop: it asks for help, for too many audit
modules or, which is refused to a secure program, for a mode of its own. -/
def StopsEarly (secure : Bool) (environ : List Text) : Prop :=
  (∃ e ∈ ldSettings environ, asksHelp e) ∨
    dlNns < (auditStrings (ldSettings environ)).length ∨
    secure = true ∧ ∃ e ∈ ldSettings environ, isTrace e.1

instance (secure : Bool) (environ : List Text) : Decidable (StopsEarly secure environ) :=
  inferInstanceAs (Decidable (_ ∨ _ ∨ _))

theorem noHelp_init : NoHelp (.init secure) :=
  show (0 : DebugMask) &&& debugHelp = 0 by decide

theorem handleSetting_noFault (s : Startup) : NoFault (handleSetting secure v value s) := by
  cases v with
  | debug =>
    intro f
    simp only [handleSetting, processDlDebug]
    split_ifs <;> exact fun h => nomatch h
  | audit => exact auditListAddString_noFault value s
  | _ => exact fun f h => nomatch h

theorem handleSettings_noFault (s : Startup) : NoFault (handleSettings secure es s) := by
  induction es generalizing s with
  | nil => exact fun f h => nomatch h
  | cons e es ih => exact (handleSetting_noFault secure e.1 e.2 s).bind ih

/-- After the loop only the mode of a secure program is still looked at. -/
theorem finishEnvvars_cases (s : Startup) :
    ((secure = true ∧ s.state.mode ≠ .normal) ∧
        finishEnvvars secure suidDebug environ s = .error (.exit 5)) ∨
      (¬ (secure = true ∧ s.state.mode ≠ .normal) ∧
        ∃ s' environ', finishEnvvars secure suidDebug environ s = .ok (s', environ') ∧
          s'.state = s.state) := by
  have hstate : (if suidDebug then s else s.setGlro ({ · with debugMask := 0 })).state =
      s.state := by split_ifs <;> rfl
  cases secure with
  | true =>
    rw [finishEnvvars, if_pos rfl, finishSecure, hstate]
    by_cases hmode : s.state.mode = .normal
    · refine .inr ⟨fun h => h.2 hmode, _, removeUnsecure environ, ?_, hstate⟩
      rw [if_neg (not_not.mpr hmode)]
      rfl
    · refine .inl ⟨⟨rfl, hmode⟩, ?_⟩
      rw [if_pos hmode]
      rfl
  | false =>
    right
    refine ⟨fun h => Bool.false_ne_true h.1, ?_⟩
    rw [finishEnvvars, if_neg Bool.false_ne_true]
    split_ifs
    · exact ⟨_, _, rfl, rfl⟩
    · exact ⟨_, _, rfl, rfl⟩

theorem processEnvvars_cases :
    (StopsEarly secure environ ∧
        ∃ code, processEnvvars secure suidDebug environ = .error (.exit code)) ∨
      (¬ StopsEarly secure environ ∧
        ∃ s environ', processEnvvars secure suidDebug environ = .ok (s, environ') ∧
          settings s = (settings (.init secure)).afterAll (ldSettings environ)) := by
  have hloop := handleSettings_error_iff secure (ldSettings environ) (noHelp_init secure)
    (Nat.zero_le _)
  rw [show (Startup.init secure).state.auditList.length = 0 from rfl, Nat.zero_add] at hloop
  unfold processEnvvars StopsEarly
  rw [← or_assoc, ← hloop]
  cases hrun : handleSettings secure (ldSettings environ) (.init secure) with
  | error h =>
    cases h with
    | exit code => exact .inl ⟨.inl ⟨_, rfl⟩, code, rfl⟩
    | fault f => exact absurd hrun (handleSettings_noFault _ _ _ f)
  | ok s =>
    have hsettings := handleSettings_ok (noHelp_init secure) hrun
    have hmode : s.state.mode ≠ .normal ↔ ∃ e ∈ ldSettings environ, isTrace e.1 := by
      rw [Ne, show s.state.mode = (settings s).mode from rfl, hsettings,
        afterAll_mode_eq_normal_iff,
        and_iff_right (show (settings (.init secure)).mode = .normal from rfl)]
      simp only [not_forall, not_not, exists_prop]
    simp only [reduceCtorEq, exists_false, false_or]
    rw [← hmode, ← hsettings]
    rcases finishEnvvars_cases secure suidDebug environ s with
      ⟨hstop, hfinish⟩ | ⟨hgo, s', environ', hfinish, hstate⟩
    · exact .inl ⟨hstop, 5, hfinish⟩
    · refine .inr ⟨hgo, s', environ', hfinish, ?_⟩
      rw [settings, hstate]
      rfl

def secureStartup (suidDebug : Bool) (environ : List Text) : Except Halt Startup := do
  let s ← handleSettings true (ldSettings environ) (.init true)
  finishSecure suidDebug s

theorem processEnvvars_secure :
    processEnvvars true suidDebug environ =
      (secureStartup suidDebug environ).map (·, removeUnsecure environ) := by
  unfold processEnvvars secureStartup
  cases handleSettings true (ldSettings environ) (.init true) with
  | error h => rfl
  | ok s =>
    cases finishSecure suidDebug s with
    | error h => rfl
    | ok s => rfl

theorem secureStartup_error_iff :
    (∃ h, secureStartup suidDebug environ = .error h) ↔ StopsEarly true environ := by
  have hcases := processEnvvars_cases true suidDebug environ
  rw [processEnvvars_secure] at hcases
  cases hrun : secureStartup suidDebug environ with
  | error h =>
    rw [hrun] at hcases
    refine iff_of_true ⟨h, rfl⟩ (hcases.elim And.left ?_)
    rintro ⟨-, s, environ', hok, -⟩
    cases hok
  | ok s =>
    rw [hrun] at hcases
    refine iff_of_false (by rintro ⟨_, h⟩; cases h) (hcases.elim ?_ And.left)
    rintro ⟨-, code, herr⟩
    cases herr

end Stopping

end AwaitGlibc.EnvVars

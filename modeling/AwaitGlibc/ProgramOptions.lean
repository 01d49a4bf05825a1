import AwaitGlibc.EnvVars
import AwaitGlibc.MapObject

/-!
# The loader run as a program

Run as a program, `dl_main` reads options up to the name of a program and maps
that program. A pair `-- N` names a descriptor of the program. But the branch
that uses the descriptor is chosen by `capsicum`, which only the variable
`LD_LIBRARY_PATH_FDS` sets, so the pair and the variable must be given together:
the variable alone makes the loader copy a null string, and without the variable
the flag is read although nothing has set it.

The loop is shown to be the splitting of the arguments into options and the rest,
followed by the options in turn. What is printed is left out; the functions that
print end the process.
-/
namespace AwaitGlibc.ProgramOptions
open CText CheckedArray DlStrtoul OpenatPaths MainState EnvVars LibrarySearch MapObject

inductive Flag where
  | list
  | verify
  | inhibitCache
  | listTunables
  | listDiagnostics
  | help
deriving DecidableEq, Repr

/-- Options that take the next argument. -/
inductive Valued where
  | libraryPath
  | inhibitRpath
  | audit
  | preload
  | argv0
  | glibcHwcapsPrepend
  | glibcHwcapsMask
  | execFd
  | libraryPathFds
deriving DecidableEq, Repr

def Flag.name : Flag → Text
  | .list => "--list".toList
  | .verify => "--verify".toList
  | .inhibitCache => "--inhibit-cache".toList
  | .listTunables => "--list-tunables".toList
  | .listDiagnostics => "--list-diagnostics".toList
  | .help => "--help".toList

def Valued.name : Valued → Text
  | .libraryPath => "--library-path".toList
  | .inhibitRpath => "--inhibit-rpath".toList
  | .audit => "--audit".toList
  | .preload => "--preload".toList
  | .argv0 => "--argv0".toList
  | .glibcHwcapsPrepend => "--glibc-hwcaps-prepend".toList
  | .glibcHwcapsMask => "--glibc-hwcaps-mask".toList
  | .execFd => "--".toList
  | .libraryPathFds => "--library-path-fds".toList

def flag? (arg : Text) : Option Flag :=
  [.list, .verify, .inhibitCache, .listTunables, .listDiagnostics, .help].find? (·.name = arg)

def valued? (arg : Text) : Option Valued :=
  [.libraryPath, .inhibitRpath, .audit, .preload, .argv0, .glibcHwcapsPrepend, .glibcHwcapsMask,
    .execFd, .libraryPathFds].find? (·.name = arg)

inductive Opt where
  | flag (f : Flag)
  | valued (v : Valued) (value : Text)
deriving DecidableEq, Repr

structure Command where
  startup : Startup
  argv0 : Option Text
  skipArgs : ℕ
deriving DecidableEq, Repr

def Command.next (c : Command) (n : ℕ) (startup : Startup) : Command :=
  { c with startup, skipArgs := c.skipArgs + n }

/-- One turn of the loop. `--help` is not counted among the skipped arguments. -/
def applyOption : Opt → Command → Except Halt Command
  | .flag .list, c =>
    .ok (c.next 1 (if c.startup.state.mode = .help then c.startup else
      (c.startup.setState ({ · with mode := .list })).setGlro ({ · with lazy := -1 })))
  | .flag .verify, c =>
    .ok (c.next 1 (if c.startup.state.mode = .help then c.startup else
      c.startup.setState ({ · with mode := .verify })))
  | .flag .inhibitCache, c => .ok (c.next 1 (c.startup.setGlro ({ · with inhibitCache := true })))
  | .flag .listTunables, c =>
    .ok (c.next 1 (c.startup.setState ({ · with mode := .listTunables })))
  | .flag .listDiagnostics, c =>
    .ok (c.next 1 (c.startup.setState ({ · with mode := .listDiagnostics })))
  | .flag .help, c => .ok (c.next 0 (c.startup.setState ({ · with mode := .help })))
  | .valued .libraryPath value, c =>
    .ok (c.next 2 (c.startup.setState ({ · with
      libraryPath := some value, libraryPathSource := some "--library-path".toList })))
  | .valued .inhibitRpath value, c =>
    .ok (c.next 2 (c.startup.setGlro ({ · with inhibitRpath := some value })))
  | .valued .audit value, c => do
      let s ← auditListAddString value c.startup
      return c.next 2 s
  | .valued .preload value, c =>
    .ok (c.next 2 (c.startup.setState ({ · with preloadarg := some value })))
  | .valued .argv0 value, c => .ok { c.next 2 c.startup with argv0 := some value }
  | .valued .glibcHwcapsPrepend value, c =>
    .ok (c.next 2 (c.startup.setState ({ · with glibcHwcapsPrepend := some value })))
  | .valued .glibcHwcapsMask value, c =>
    .ok (c.next 2 (c.startup.setState ({ · with glibcHwcapsMask := some value })))
  | .valued .execFd value, c =>
    .ok (c.next 2 (c.startup.setState ({ · with execFd := some value })))
  | .valued .libraryPathFds value, c =>
    .ok (c.next 2 (c.startup.setState ({ · with
      libraryPathFds := some value, libraryPathSource := some "--library-path-fds".toList })))

/-- An argument the loop does not take. The test for the end of the options asks
whether the second of two dashes is a NUL, so `--` with nothing behind it is an
unknown option as well. -/
def notAnOption (arg : Text) (rest : List Text) (c : Command) :
    Except Halt (Command × List Text) :=
  if arg = "--version".toList then .error (.exit 0)
  else if "--".toList.isPrefixOf arg then .error (.exit 1)
  else .ok (c, rest)

/-- The loop over the arguments behind `argv[0]`, and the arguments left. -/
def optionLoop : List Text → Command → Except Halt (Command × List Text)
  | [], c => .ok (c, [])
  | [arg], c =>
    match flag? arg with
    | some f => do
        let c ← applyOption (.flag f) c
        optionLoop [] c
    | none => notAnOption arg [arg] c
  | arg :: value :: args, c =>
    match flag? arg, valued? arg with
    | some f, _ => do
        let c ← applyOption (.flag f) c
        optionLoop (value :: args) c
    | none, some v => do
        let c ← applyOption (.valued v value) c
        optionLoop args c
    | none, none => notAnOption arg (arg :: value :: args) c

/-- The checks between the loop and the mapping; the name of the program. -/
def programName (c : Command) (rest : List Text) : Except Halt Text :=
  if c.startup.state.mode = .listTunables then .error (.exit 0)
  else if c.startup.state.mode = .listDiagnostics then .error (.exit 0)
  else
    match rest with
    | [] => .error (.exit (if c.startup.state.mode = .help then 0 else 1))
    | progname :: _ => .ok progname

/-- `GL(dl_exec_fd)` when the program is mapped. -/
def execDescriptor (state : DlMainState) : Except Halt ℤ :=
  if state.mode = .verify ∨ state.mode = .help then .ok 0
  else
    match state.capsicum with
    | none => .error (.fault .unsetField)
    | some false => .ok 0
    | some true =>
      match state.execFd with
      | none => .error (.fault .nullPointer)
      | some t => .ok (tokenFd t)

inductive Source where
  | byName
  | descriptor (fd : ℤ)
deriving DecidableEq, Repr

/-- The choice made in `_dl_map_object`. -/
def sourceOf (execFd : ℤ) (name : Text) : Source :=
  if 0 < execFd ∧ '/' ∈ name then .descriptor execFd else .byName

/-- `dl_main` up to the opening of the program. -/
def openProgram (secure suidDebug : Bool) (environ args : List Text) : Except Halt Source := do
  let (s, _) ← processEnvvars secure suidDebug environ
  let (c, rest) ← optionLoop args ⟨s, none, 0⟩
  let progname ← programName c rest
  let fd ← execDescriptor c.startup.state
  return sourceOf fd progname

section Mapping
open SystemCalls LibraryPaths
variable {φ : Type} (K : Kernel φ) (D : Disk φ) {m : MapCall} {p : Rtld φ}

/-- `_dl_map_object` verifies the file behind the descriptor. -/
theorem findFile_of_descriptor {fd : ℤ} {realname : Text}
    (h : sourceOf p.execFd m.name = .descriptor fd) (hname : m.realname = some realname) :
    findFile K D m p = (do
      let (fd, s) ← openVerify K D realname fd (freshSearch p.loader.search)
      return (fd, p.loader.setSearch { s with realname := some realname })) := by
  unfold sourceOf at h
  split_ifs at h with hgiven
  cases h
  simp only [findFile, not_not.mpr hgiven.2, if_false, hname, if_pos hgiven.1]

/-- Otherwise it goes on as if no descriptor had been given. -/
theorem findFile_of_byName (h : sourceOf p.execFd m.name = .byName) :
    findFile K D m p = findFile K D m { p with execFd := -1 } := by
  unfold sourceOf at h
  split_ifs at h with hgiven
  unfold findFile
  by_cases hslash : '/' ∈ m.name
  · have hexec : ¬ 0 < p.execFd := fun hexec => hgiven ⟨hexec, hslash⟩
    simp only [if_neg hexec, if_neg (show ¬ (0 : ℤ) < -1 by decide)]
  · rw [if_pos hslash, if_pos hslash]

end Mapping

section Options

def splitOptions : List Text → List Opt × List Text
  | [] => ([], [])
  | [arg] =>
    match flag? arg with
    | some f => ([.flag f], [])
    | none => ([], [arg])
  | arg :: value :: args =>
    match flag? arg, valued? arg with
    | some f, _ => (splitOptions (value :: args)).map (.flag f :: ·) id
    | none, some v => (splitOptions args).map (.valued v value :: ·) id
    | none, none => ([], arg :: value :: args)

def applyOptions (os : List Opt) (c : Command) : Except Halt Command :=
  os.foldlM (fun c o => applyOption o c) c

def endOptions : List Text → Command → Except Halt (Command × List Text)
  | [], c => .ok (c, [])
  | arg :: args, c => notAnOption arg (arg :: args) c

theorem optionLoop_eq (args : List Text) (c : Command) :
    optionLoop args c =
      applyOptions (splitOptions args).1 c >>= endOptions (splitOptions args).2 := by
  induction args, c using optionLoop.induct with
  | case1 c => rfl
  | case2 arg c f hf ih =>
    simp only [optionLoop, splitOptions, hf, applyOptions, List.foldlM_cons, List.foldlM_nil,
      bind_pure]
    rfl
  | case3 arg c hf =>
    simp only [optionLoop, splitOptions, hf]
    rfl
  | case4 arg value args c f hf ih =>
    simp only [optionLoop, splitOptions, hf, applyOptions, Prod.map, List.foldlM_cons, bind_assoc]
    exact bind_congr ih
  | case5 arg value args c v hv hf ih =>
    simp only [optionLoop, splitOptions, hf, hv, applyOptions, Prod.map, List.foldlM_cons,
      bind_assoc]
    exact bind_congr ih
  | case6 arg value args c hv hf =>
    simp only [optionLoop, splitOptions, hf, hv]
    rfl

def optionSettings (t : Settings) : Opt → Settings
  | .flag .list => { t with mode := if t.mode = .help then .help else .list }
  | .flag .verify => { t with mode := if t.mode = .help then .help else .verify }
  | .flag .listTunables => { t with mode := .listTunables }
  | .flag .listDiagnostics => { t with mode := .listDiagnostics }
  | .flag .help => { t with mode := .help }
  | .valued .audit value => { t with auditList := t.auditList ++ auditOf .audit value }
  | .valued .execFd value => { t with execFd := some value }
  | _ => t

variable (os : List Opt) (t : Settings)

theorem optionSettings_length (o : Opt) :
    t.auditList.length ≤ (optionSettings t o).auditList.length := by
  unfold optionSettings
  split <;> simp

theorem foldl_optionSettings_length (os : List Opt) :
    t.auditList.length ≤ (os.foldl optionSettings t).auditList.length := by
  induction os generalizing t with
  | nil => exact le_rfl
  | cons o os ih => exact (optionSettings_length t o).trans (ih _)

/-- An option only stops the loader when the audit list is full. -/
theorem applyOption_cases (o : Opt) {c : Command}
    (hlen : (settings c.startup).auditList.length ≤ dlNns) :
    (dlNns < (optionSettings (settings c.startup) o).auditList.length ∧
        applyOption o c = .error (.exit 127)) ∨
      ((optionSettings (settings c.startup) o).auditList.length ≤ dlNns ∧
        ∃ c', applyOption o c = .ok c' ∧
          settings c'.startup = optionSettings (settings c.startup) o) := by
  cases o with
  | flag f =>
    refine .inr ⟨?_, ?_⟩
    · cases f <;> exact hlen
    · cases f with
      | list | verify =>
        refine ⟨_, rfl, ?_⟩
        by_cases hmode : c.startup.state.mode = .help
        · simp [settings, optionSettings, Command.next, hmode]
        · simp [settings, optionSettings, Command.next, hmode, Startup.setState,
            Startup.setGlro]
      | _ => exact ⟨_, rfl, rfl⟩
  | valued v value =>
    cases v with
    | audit =>
      rcases auditListAddString_cases value hlen with ⟨hfull, hrun⟩ | ⟨hfit, hrun⟩
      · refine .inl ⟨hfull, ?_⟩
        rw [applyOption, hrun]
        rfl
      · refine .inr ⟨hfit, ?_⟩
        rw [applyOption, hrun]
        exact ⟨_, rfl, rfl⟩
    | _ => exact .inr ⟨hlen, _, rfl, rfl⟩

theorem applyOptions_cases {c : Command} (hlen : (settings c.startup).auditList.length ≤ dlNns) :
    (dlNns < (os.foldl optionSettings (settings c.startup)).auditList.length ∧
        applyOptions os c = .error (.exit 127)) ∨
      ((os.foldl optionSettings (settings c.startup)).auditList.length ≤ dlNns ∧
        ∃ c', applyOptions os c = .ok c' ∧
          settings c'.startup = os.foldl optionSettings (settings c.startup)) := by
  induction os generalizing c with
  | nil => exact .inr ⟨hlen, c, rfl, rfl⟩
  | cons o os ih =>
    rw [List.foldl_cons]
    unfold applyOptions
    rw [List.foldlM_cons]
    rcases applyOption_cases o hlen with ⟨hfull, hrun⟩ | ⟨hfit, c', hrun, hsettings⟩
    · rw [hrun]
      exact .inl ⟨hfull.trans_le (foldl_optionSettings_length _ os), rfl⟩
    · rw [hrun, ← hsettings]
      rw [← hsettings] at hfit
      exact ih hfit

/-- The settings the program is opened with, and the arguments from its name on. -/
def finalSettings (environ args : List Text) : Settings :=
  (splitOptions args).1.foldl optionSettings
    ((settings (.init false)).afterAll (ldSettings environ))

theorem settings_init (secure : Bool) : settings (.init secure) = settings (.init false) := rfl

def askedFd (args : List Text) : Option Text :=
  (splitOptions args).1.foldl
    (fun fd o => match o with
      | .valued .execFd value => some value
      | _ => fd) none

theorem foldl_optionSettings_execFd :
    (os.foldl optionSettings t).execFd = os.foldl
      (fun fd o => match o with
        | .valued .execFd value => some value
        | _ => fd) t.execFd := by
  induction os generalizing t with
  | nil => rfl
  | cons o os ih =>
    rw [List.foldl_cons, List.foldl_cons, ih]
    congr 1
    cases o with
    | flag f => cases f <;> rfl
    | valued v value => cases v <;> rfl

theorem foldl_optionSettings_capsicum : (os.foldl optionSettings t).capsicum = t.capsicum := by
  induction os generalizing t with
  | nil => rfl
  | cons o os ih =>
    rw [List.foldl_cons, ih]
    cases o with
    | flag f => cases f <;> rfl
    | valued v value => cases v <;> rfl

end Options

section Opening

/-- The name of the program behind the options. A word with two dashes there is an
option that is not known or lacks its argument. -/
def programArg : List Text → Option Text
  | [] => none
  | arg :: _ => if "--".toList.isPrefixOf arg then none else some arg

def Exits (secure : Bool) (environ args : List Text) : Prop :=
  StopsEarly secure environ ∨ dlNns < (finalSettings environ args).auditList.length ∨
    programArg (splitOptions args).2 = none ∨
    (finalSettings environ args).mode = .listTunables ∨
    (finalSettings environ args).mode = .listDiagnostics

instance (secure : Bool) (environ args : List Text) : Decidable (Exits secure environ args) :=
  inferInstanceAs (Decidable (_ ∨ _ ∨ _))

def afterOptions (rest : List Text) (c : Command) : Except Halt Source := do
  let (c, rest) ← endOptions rest c
  let progname ← programName c rest
  let fd ← execDescriptor c.startup.state
  return sourceOf fd progname

theorem openProgram_eq (secure suidDebug : Bool) (environ args : List Text) :
    openProgram secure suidDebug environ args =
      processEnvvars secure suidDebug environ >>= fun r =>
        applyOptions (splitOptions args).1 ⟨r.1, none, 0⟩ >>= afterOptions (splitOptions args).2 := by
  unfold openProgram afterOptions
  simp only [optionLoop_eq, bind_assoc]

theorem afterOptions_cases (rest : List Text) (c : Command) :
    ((programArg rest = none ∨ (settings c.startup).mode = .listTunables ∨
          (settings c.startup).mode = .listDiagnostics) ∧
        ∃ code, afterOptions rest c = .error (.exit code)) ∨
      (¬ (programArg rest = none ∨ (settings c.startup).mode = .listTunables ∨
          (settings c.startup).mode = .listDiagnostics) ∧
        ∃ name, programArg rest = some name ∧
          afterOptions rest c = (execDescriptor c.startup.state).map (sourceOf · name)) := by
  unfold afterOptions
  cases rest with
  | nil =>
    refine .inl ⟨.inl rfl, ?_⟩
    simp only [endOptions, bind, Except.bind, programName]
    split_ifs <;> exact ⟨_, rfl⟩
  | cons arg rest =>
    by_cases hdashes : "--".toList.isPrefixOf arg = true
    · refine .inl ⟨.inl (if_pos hdashes), ?_⟩
      simp only [endOptions, notAnOption, if_pos hdashes]
      split_ifs <;> exact ⟨_, rfl⟩
    · have hversion : arg ≠ "--version".toList := by
        rintro rfl
        exact hdashes (by decide)
      simp only [endOptions, notAnOption, if_neg hdashes, if_neg hversion, programArg]
      simp only [bind, Except.bind, programName]
      by_cases htunables : c.startup.state.mode = .listTunables
      · exact .inl ⟨.inr (.inl htunables), 0, by simp only [if_pos htunables]⟩
      · by_cases hdiagnostics : c.startup.state.mode = .listDiagnostics
        · refine .inl ⟨.inr (.inr hdiagnostics), 0, ?_⟩
          simp only [if_neg htunables, if_pos hdiagnostics]
        · refine .inr ⟨?_, arg, rfl, ?_⟩
          · rintro (h | h | h)
            · cases h
            · exact htunables h
            · exact hdiagnostics h
          · simp only [if_neg htunables, if_neg hdiagnostics]
            cases execDescriptor c.startup.state with
            | error h => rfl
            | ok fd => rfl

/-- The loader exits, or maps the program with the settings of the environment and
the options. -/
theorem openProgram_cases (secure suidDebug : Bool) (environ args : List Text) :
    (Exits secure environ args ∧
        ∃ code, openProgram secure suidDebug environ args = .error (.exit code)) ∨
      (¬ Exits secure environ args ∧
        ∃ s name, programArg (splitOptions args).2 = some name ∧
          settings s = finalSettings environ args ∧
          openProgram secure suidDebug environ args =
            (execDescriptor s.state).map (sourceOf · name)) := by
  rw [openProgram_eq]
  unfold Exits
  rcases processEnvvars_cases secure suidDebug environ with
    ⟨hstop, code, hrun⟩ | ⟨hgo, s, environ', hrun, hsettings⟩
  · rw [hrun]
    exact .inl ⟨.inl hstop, code, rfl⟩
  · rw [settings_init] at hsettings
    have hlen : (settings s).auditList.length ≤ dlNns := by
      rw [hsettings]
      exact not_lt.mp fun h => hgo (.inr (.inl h))
    have hoptions := applyOptions_cases (splitOptions args).1 (c := ⟨s, none, 0⟩) hlen
    have hfinal : (splitOptions args).1.foldl optionSettings (settings s) =
        finalSettings environ args := by rw [hsettings, finalSettings]
    rw [hfinal] at hoptions
    rw [hrun]
    simp only [hgo, false_or]
    rcases hoptions with ⟨hfull, hopts⟩ | ⟨hfit, c, hopts, hc⟩
    · refine .inl ⟨.inl hfull, 127, ?_⟩
      simp only [bind, Except.bind, hopts]
    · simp only [not_lt.mpr hfit, false_or]
      rw [← hc]
      simp only [bind, Except.bind, hopts]
      rcases afterOptions_cases (splitOptions args).2 c with hexit | ⟨hgo', name, hname, hafter⟩
      · exact .inl hexit
      · exact .inr ⟨hgo', c.startup, name, hname, rfl, hafter⟩

/-- The program is opened as the arguments ask: from the descriptor of the last
pair `-- N`, or else by its name. -/
def OpensAsAsked (asked : Option Text) : Except Halt Source → Prop
  | .error (.exit _) => True
  | .error (.fault _) => False
  | .ok source => source = asked.elim .byName fun t => .descriptor (numeralValue t)

theorem sourceOf_eq_descriptor_iff (t name : Text) :
    sourceOf (tokenFd t) name = .descriptor (numeralValue t) ↔
      (1 ≤ numeralValue t ∧ numeralValue t ≤ intMax) ∧ '/' ∈ name := by
  unfold sourceOf tokenFd
  constructor
  · intro h
    split_ifs at h with hpos
    have hvalue : toInt (dlStrtoul t).1 = numeralValue t := Source.descriptor.inj h
    have hbounds := toInt_bounds (dlStrtoul t).1
    rw [hvalue] at hbounds hpos
    exact ⟨⟨hpos.1, hbounds.2⟩, hpos.2⟩
  · rintro ⟨⟨hlow, hhigh⟩, hslash⟩
    rw [toInt_dlStrtoul_of_range (by omega) hhigh, if_pos ⟨hlow, hslash⟩]

def HasFds (environ : List Text) : Prop := ∃ e ∈ ldSettings environ, e.1 = .libraryPathFds

instance (environ : List Text) : Decidable (HasFds environ) :=
  inferInstanceAs (Decidable (∃ e ∈ ldSettings environ, _))

/-- In the modes that only look at the program no descriptor is asked for; otherwise
`LD_LIBRARY_PATH_FDS` is set, the last pair `-- N` has a number that fits, and the
name of the program has a slash. -/
def Consistent (environ args : List Text) : Prop :=
  if (finalSettings environ args).mode = .verify ∨ (finalSettings environ args).mode = .help then
    askedFd args = none
  else
    HasFds environ ∧
      (∃ t ∈ askedFd args, 1 ≤ numeralValue t ∧ numeralValue t ≤ intMax) ∧
      ∃ name ∈ programArg (splitOptions args).2, '/' ∈ name

theorem opensAsAsked_iff (secure suidDebug : Bool) (environ args : List Text) :
    OpensAsAsked (askedFd args) (openProgram secure suidDebug environ args) ↔
      Exits secure environ args ∨ Consistent environ args := by
  rcases openProgram_cases secure suidDebug environ args with
    ⟨hexits, code, hrun⟩ | ⟨hgo, s, name, hname, hsettings, hrun⟩
  · rw [hrun]
    exact iff_of_true trivial (.inl hexits)
  · have hmode : s.state.mode = (finalSettings environ args).mode :=
      congrArg Settings.mode hsettings
    have hfd : s.state.execFd = askedFd args :=
      (congrArg Settings.execFd hsettings).trans (foldl_optionSettings_execFd _ _)
    have hcapsicum : s.state.capsicum = if HasFds environ then some true else none :=
      (congrArg Settings.capsicum hsettings).trans (foldl_optionSettings_capsicum _ _)
    rw [hrun, Consistent, execDescriptor, hmode, hfd, hcapsicum, hname, or_iff_right hgo]
    by_cases hlook : (finalSettings environ args).mode = .verify ∨
        (finalSettings environ args).mode = .help
    · simp only [if_pos hlook]
      cases askedFd args with
      | none => exact iff_of_true rfl rfl
      | some t => exact iff_of_false (fun h => nomatch h) (fun h => nomatch h)
    · simp only [if_neg hlook]
      by_cases hfds : HasFds environ
      · simp only [if_pos hfds]
        cases askedFd args with
        | none =>
          refine iff_of_false id ?_
          rintro ⟨-, ⟨t, ht, -⟩, -⟩
          cases ht
        | some t =>
          simp only [Option.mem_some_iff, exists_eq_left', true_and, hfds]
          exact sourceOf_eq_descriptor_iff t name
      · simp only [if_neg hfds]
        exact iff_of_false id (fun h => hfds h.1)

/-- Without the variable, a program that is asked for by name is opened by a branch
that depends on the flag nothing has set. -/
theorem plain_name_reads_unset_flag :
    openProgram false false [] ["/bin/true".toList] = .error (.fault .unsetField) ∧
      ¬ OpensAsAsked (askedFd ["/bin/true".toList])
        (openProgram false false [] ["/bin/true".toList]) := by
  have hrun : openProgram false false [] ["/bin/true".toList] = .error (.fault .unsetField) := by
    decide +kernel
  exact ⟨hrun, by rw [hrun]; exact id⟩

-- The pair alone does not help, and the variable alone makes the null string be copied.
example : openProgram false false [] ["--".toList, "7".toList, "/bin/true".toList] =
    .error (.fault .unsetField) := by decide +kernel

example : openProgram false false ["LD_LIBRARY_PATH_FDS=3".toList] ["/bin/true".toList] =
    .error (.fault .nullPointer) := by decide +kernel

example : openProgram false false ["LD_LIBRARY_PATH_FDS=3".toList]
    ["--".toList, "7".toList, "/bin/true".toList] = .ok (.descriptor 7) := by decide +kernel

end Opening

end AwaitGlibc.ProgramOptions

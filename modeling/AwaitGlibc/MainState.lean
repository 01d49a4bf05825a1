import AwaitGlibc.CheckedArray
import AwaitGlibc.DlStrtoul

/-!
# The state of `dl_main`

`dl_main` collects what the environment and the command line say in a
`dl_main_state` on its stack, and in some of the loader's global variables.
`dl_main_state_init` sets every field but one: the flag that tells whether
descriptors are used, `capsicum`, is left as it is. Here it starts as `none`.

The options of `LD_DEBUG` and the kernel version of `LD_ASSUME_KERNEL` are read
here as well. What is printed on the way is left out.
-/
namespace AwaitGlibc.MainState
open CText CheckedArray DlStrtoul

inductive RtldMode where
  | normal
  | list
  | verify
  | trace
  | listTunables
  | listDiagnostics
  | help
deriving DecidableEq, Repr

inductive Halt where
  | exit (code : ℕ)
  | fault (f : Fault)
deriving DecidableEq, Repr

/-- A stage of the startup that may stop, but reads no field that is not set and
follows no null pointer. -/
def NoFault {α : Type} (r : Except Halt α) : Prop := ∀ f, r ≠ .error (.fault f)

theorem NoFault.bind {α β : Type} {r : Except Halt α} {f : α → Except Halt β} (hr : NoFault r)
    (hf : ∀ a, NoFault (f a)) : NoFault (r >>= f) := by
  cases r with
  | error h => exact fun e he => hr e (congrArg Except.error (Except.error.inj he))
  | ok a => exact hf a

/-- `dl_main_state`. The audit list holds the strings added so far. -/
structure DlMainState where
  auditList : List Text
  execFd : Option Text
  libraryPathFds : Option Text
  libraryPath : Option Text
  libraryPathSource : Option Text
  preloadlist : Option Text
  preloadarg : Option Text
  glibcHwcapsPrepend : Option Text
  glibcHwcapsMask : Option Text
  mode : RtldMode
  anyDebug : Bool
  versionInfo : Bool
  capsicum : Option Bool
deriving DecidableEq, Repr

def dlMainStateInit : DlMainState where
  auditList := []
  execFd := none
  libraryPathFds := none
  libraryPath := none
  libraryPathSource := none
  preloadlist := none
  preloadarg := none
  glibcHwcapsPrepend := none
  glibcHwcapsMask := none
  mode := .normal
  anyDebug := false
  versionInfo := false
  capsicum := none

abbrev DebugMask := BitVec 32

/-- The global variables that are set on the way. `debugFile` is what the debug
descriptor refers to when it is not standard error; the process number is
appended to the name. -/
structure Globals where
  verbose : Bool
  debugMask : DebugMask
  debugFile : Option Text
  lazy : ℤ
  bindNot : Bool
  profile : Option Text
  profileOutput : Text
  originPath : Option Text
  dynamicWeak : Bool
  useLoadBias : ℤ
  tracePrelink : Option Text
  osversion : ℕ
  inhibitCache : Bool
  inhibitRpath : Option Text
deriving DecidableEq, Repr

def profileOutputDefault (secure : Bool) : Text :=
  if secure then "/var/profile".toList else "/var/tmp".toList

/-- The initial values; only the place of profiling data depends on the mode. -/
def Globals.init (secure : Bool) : Globals where
  verbose := false
  debugMask := 0
  debugFile := none
  lazy := 1
  bindNot := false
  profile := none
  profileOutput := profileOutputDefault secure
  originPath := none
  dynamicWeak := false
  useLoadBias := -2
  tracePrelink := none
  osversion := 0
  inhibitCache := false
  inhibitRpath := none

/-- Everything that is set; `debugOutput` is a local of `process_envvars`. -/
structure Startup where
  state : DlMainState
  glro : Globals
  debugOutput : Option Text
deriving DecidableEq, Repr

def Startup.init (secure : Bool) : Startup := ⟨dlMainStateInit, .init secure, none⟩

def Startup.setState (s : Startup) (f : DlMainState → DlMainState) : Startup :=
  { s with state := f s.state }

def Startup.setGlro (s : Startup) (f : Globals → Globals) : Startup := { s with glro := f s.glro }

/-- The number of namespaces, which bounds the audit list. -/
def dlNns : ℕ := 16

def auditListAddString (string : Text) (s : Startup) : Except Halt Startup :=
  if string = [] then .ok s
  else if s.state.auditList.length = dlNns then .error (.exit 127)
  else .ok (s.setState ({ · with auditList := s.state.auditList ++ [string] }))

theorem auditListAddString_noFault (string : Text) (s : Startup) :
    NoFault (auditListAddString string s) := by
  intro f
  unfold auditListAddString
  split_ifs <;> exact fun h => nomatch h

section Debug

def debugLibs : DebugMask := 1 <<< 0
def debugImpcalls : DebugMask := 1 <<< 1
def debugBindings : DebugMask := 1 <<< 2
def debugSymbols : DebugMask := 1 <<< 3
def debugVersions : DebugMask := 1 <<< 4
def debugReloc : DebugMask := 1 <<< 5
def debugFiles : DebugMask := 1 <<< 6
def debugStatistics : DebugMask := 1 <<< 7
def debugUnused : DebugMask := 1 <<< 8
def debugScopes : DebugMask := 1 <<< 9
def debugHelp : DebugMask := 1 <<< 10
def debugPrelink : DebugMask := 1 <<< 11
def debugRuncap : DebugMask := 1 <<< 12

def debopts : List (Text × DebugMask) :=
  [("libs".toList, debugLibs ||| debugImpcalls),
    ("reloc".toList, debugReloc ||| debugImpcalls),
    ("files".toList, debugFiles ||| debugImpcalls),
    ("runcap".toList, debugRuncap ||| debugImpcalls),
    ("symbols".toList, debugSymbols ||| debugImpcalls),
    ("bindings".toList, debugBindings ||| debugImpcalls),
    ("versions".toList, debugVersions ||| debugImpcalls),
    ("scopes".toList, debugScopes),
    ("all".toList, debugLibs ||| debugReloc ||| debugFiles ||| debugSymbols ||| debugBindings |||
      debugVersions ||| debugRuncap ||| debugImpcalls ||| debugScopes),
    ("statistics".toList, debugStatistics),
    ("unused".toList, debugUnused),
    ("help".toList, debugHelp)]

def isDebugSeparator (c : Char) : Bool := c = ' ' || c = ',' || c = ':'

def debugTokens (dlDebug : Text) : List Text :=
  (dlDebug.splitOnP isDebugSeparator).filter (· ≠ [])

/-- A known option enters the mask, an unknown one is only reported. -/
def applyDebopt (token : Text) (s : Startup) : Startup :=
  match debopts.find? (·.1 = token) with
  | none => s
  | some (_, mask) =>
    (s.setState ({ · with anyDebug := true })).setGlro
      ({ · with debugMask := s.glro.debugMask ||| mask })

/-- To find unused dependencies all relocations have to be processed. -/
def bindForUnused (s : Startup) : Startup :=
  if s.glro.debugMask &&& debugUnused ≠ 0 then s.setGlro ({ · with lazy := 0 }) else s

/-- `process_dl_debug`, which exits after the help text. -/
def processDlDebug (dlDebug : Text) (s : Startup) : Except Halt Startup :=
  let s := bindForUnused ((debugTokens dlDebug).foldl (fun s token => applyDebopt token s) s)
  if s.glro.debugMask &&& debugHelp ≠ 0 then .error (.exit 0) else .ok s

end Debug

/-- The parts of a version number, from part `i` on; a bad one makes it 0. -/
def osversionFrom : ℕ → ℕ → Text → ℕ → ℕ
  | 0, _, _, osversion => osversion
  | fuel + 1, i, p, osversion =>
    let r := dlStrtoul p
    if 255 ≤ r.1 ∨ r.2 = p ∨ (i < 2 ∧ r.2 ≠ [] ∧ r.2.head? ≠ some '.') then 0
    else
      let osversion := osversion ||| (r.1 <<< (16 - 8 * i))
      if r.2 = [] then osversion else osversionFrom fuel (i + 1) (r.2.drop 1) osversion

def dlOsversionInit (assumeKernel : Text) (g : Globals) : Globals :=
  let osversion := osversionFrom 3 0 assumeKernel 0
  if osversion ≠ 0 then { g with osversion := osversion } else g

end AwaitGlibc.MainState

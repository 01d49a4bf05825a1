import AwaitGlibc.Preopen

/-!
# The modified `open64`

`__libc_open64` looks for a log descriptor, asks `preopen`, logs, falls back to
`openat` and logs again. `libcOpen64_eq` gives its result on the decisions of
the preceding modules and `libcOpen64_fault` says that it has none otherwise.

With no variable set the function adds a single call to the plain open, the
`close` of the log descriptor it does not have. That call fails, so the `errno`
of the open survives only when it is the code of the failing close.
-/
namespace AwaitGlibc.Open64
open CText CheckedArray SystemCalls PreopenPaths PreopenLists Preopen

def atFdcwd : ℤ := -100

/-- The flag is zero on x86-64. -/
def oLargefile : Flags := 0

def openNeedsMode (oflag : Flags) : Bool :=
  oflag &&& oCreat ≠ 0 || oflag &&& oTmpfile = oTmpfile

/-- The variable argument is read only when the flags ask for a mode. -/
def openMode (oflag : Flags) (modeArg : ℤ) : ℤ := if openNeedsMode oflag then modeArg else 0

/-- The descriptor taken from `PREOPEN_DEBUG_FD`. The test for a positive
number is made before the value is narrowed. -/
def debugFdSetting (env : Env) : Option ℤ :=
  match env .debugFd with
  | none => none
  | some fdStr =>
    let r := strtol fdStr
    if r.rest = [] ∧ 0 < r.value then some (toInt r.value) else none

def logFlags : Flags := oWronly ||| oAppend ||| oCreat
def logMode : ℤ := 0x1b6

variable {φ : Type} (K : Kernel φ) (env : Env)

def getDebugFd (w : World φ) : ℤ × World φ :=
  match debugFdSetting env with
  | some fd => (fd, w)
  | none =>
    match env .debugFile with
    | none => (-1, w)
    | some debugLogPath => sysOpen K w debugLogPath logFlags (some logMode)

def logBufferSize : ℕ := 4096

def logStatus (fd : ℤ) : Text :=
  if 0 < fd then [' ', 's', 'u', 'c', 'c', 'e', 's', 's'] else [' ', 'f', 'a', 'i', 'l', 'e', 'd']

def logLine (pre filepath : Text) (fd : ℤ) : Text :=
  pre ++ ([':', ' '] ++ (filepath ++ (logStatus fd ++ ['\n'])))

/-- The line is put together piece by piece in a buffer of fixed size, without
a test, and then written with one call. -/
def debugLog (logFd : ℤ) (pre filepath : Text) (fd : ℤ) (w : World φ) :
    Except Fault (World φ) := do
  if logFd ≤ 0 then return w
  let buffer : Block Char := .filled logBufferSize nul
  let len := 0
  let buffer ← buffer.storeAll len pre
  let len := len + pre.length
  let buffer ← buffer.storeAll len [':', ' ']
  let len := len + 2
  let buffer ← buffer.storeAll len filepath
  let len := len + filepath.length
  let buffer ← buffer.storeAll len (logStatus fd)
  let len := len + (logStatus fd).length
  let _ ← buffer.store len '\n'
  return (sysWrite K w logFd (logLine pre filepath fd)).2

def preopenTag : Text := ['p', 'r', 'e', 'o', 'p', 'e', 'n']
def openTag : Text := ['o', 'p', 'e', 'n']

def libcOpen64 (file : Text) (oflag : Flags) (modeArg : ℤ) (w : World φ) :
    Except Fault (ℤ × World φ) := do
  let mode := openMode oflag modeArg
  let (logFd, w) := getDebugFd K env w
  let (fd, w) ← preopen K env file oflag mode w
  let w ← debugLog K logFd preopenTag file fd w
  if 0 < fd then return (fd, w)
  let (fd, w) := sysOpenat K w atFdcwd (some file) (oflag ||| oLargefile) (some mode)
  let w ← debugLog K logFd openTag file fd w
  let (_, w) := sysClose K w logFd
  return (fd, w)

section Log

def LogFits (logFd : ℤ) (pre filepath : Text) (fd : ℤ) : Prop :=
  logFd ≤ 0 ∨ (logLine pre filepath fd).length ≤ logBufferSize

def logged (logFd : ℤ) (pre filepath : Text) (fd : ℤ) (w : World φ) : World φ :=
  if logFd ≤ 0 then w else (sysWrite K w logFd (logLine pre filepath fd)).2

@[simp] theorem logged_fds (logFd : ℤ) (pre filepath : Text) (fd : ℤ) (w : World φ) :
    (logged K logFd pre filepath fd w).fds = w.fds := by
  unfold logged
  split_ifs
  · rfl
  · exact sysWrite_fds _ _

theorem logLine_length (pre filepath : Text) (fd : ℤ) :
    (logLine pre filepath fd).length =
      pre.length + 2 + filepath.length + (logStatus fd).length + 1 := by
  simp only [logLine, List.length_append, List.length_cons, List.length_nil]
  omega

variable {logFd fd : ℤ}

/-- The pieces fill the buffer from the front, so the line is stored as one. -/
theorem debugLog_of_pos (h : ¬ logFd ≤ 0) (pre filepath : Text) (fd : ℤ) (w : World φ) :
    debugLog K logFd pre filepath fd w =
      (Block.filled logBufferSize nul).storeAll 0 (logLine pre filepath fd) >>= fun _ =>
        pure (sysWrite K w logFd (logLine pre filepath fd)).2 := by
  unfold debugLog
  rw [if_neg h]
  conv_rhs => arg 1; rw [logLine]
  simp only [Block.storeAll_append, Block.storeAll_singleton, bind_assoc, List.length_cons,
    List.length_nil]

theorem debugLog_eq {pre filepath : Text} (h : LogFits logFd pre filepath fd) (w : World φ) :
    debugLog K logFd pre filepath fd w = .ok (logged K logFd pre filepath fd w) := by
  unfold logged
  split_ifs with hneg
  · rw [debugLog, if_pos hneg]
    rfl
  · obtain ⟨b, hb⟩ := (Block.storeAll_isOk (Block.filled logBufferSize nul) 0
      (logLine pre filepath fd)).mpr
        (.inr (by rw [Block.size_filled, Nat.zero_add]; exact h.resolve_left hneg))
    rw [debugLog_of_pos K hneg, hb]
    rfl

/-- A line that does not fit is stored all the same, across the end. -/
theorem debugLog_fault {pre filepath : Text} (h : ¬ LogFits logFd pre filepath fd) (w : World φ) :
    ∃ e, debugLog K logFd pre filepath fd w = .error e := by
  obtain ⟨hneg, hlen⟩ := not_or.mp h
  rw [debugLog_of_pos K hneg]
  cases hb : (Block.filled logBufferSize nul).storeAll 0 (logLine pre filepath fd) with
  | error e => exact ⟨e, rfl⟩
  | ok b =>
    rcases (Block.storeAll_isOk _ _ _).mp ⟨b, hb⟩ with hnil | hfit
    · exact (hlen (by rw [hnil]; exact Nat.zero_le _)).elim
    · rw [Block.size_filled, Nat.zero_add] at hfit
      exact (hlen hfit).elim

theorem logStatus_length (fd : ℤ) : (logStatus fd).length = if 0 < fd then 8 else 7 := by
  unfold logStatus
  split_ifs <;> rfl

/-- The second line is shorter than a first one that reports a failure. -/
theorem logFits_open {file : Text} (h : LogFits logFd preopenTag file fd) (hfd : ¬ 0 < fd)
    (fd' : ℤ) : LogFits logFd openTag file fd' := by
  refine h.imp_right (fun hlen => ?_)
  rw [logLine_length, logStatus_length, if_neg hfd] at hlen
  rw [logLine_length, logStatus_length]
  change 7 + 2 + _ + 7 + 1 ≤ _ at hlen
  change 4 + 2 + _ + _ + 1 ≤ _
  split_ifs <;> omega

end Log

def AccessesInBounds (file : Text) (oflag : Flags) (modeArg : ℤ) (w : World φ) : Prop :=
  InBounds K env file oflag (getDebugFd K env w).2.events ∧
    LogFits (getDebugFd K env w).1 preopenTag file
      (preopenAnswer K env file oflag (openMode oflag modeArg) (getDebugFd K env w).2).1

instance (file : Text) (oflag : Flags) (modeArg : ℤ) (w : World φ) :
    Decidable (AccessesInBounds K env file oflag modeArg w) :=
  inferInstanceAs (Decidable (_ ∧ (_ ∨ _)))

/-- What `__libc_open64` computes when every access is in bounds. -/
def openResult (file : Text) (oflag : Flags) (modeArg : ℤ) (w : World φ) : ℤ × World φ :=
  let mode := openMode oflag modeArg
  let log := getDebugFd K env w
  let pre := preopenAnswer K env file oflag mode log.2
  let w := logged K log.1 preopenTag file pre.1 pre.2
  if 0 < pre.1 then (pre.1, w)
  else
    let r := sysOpenat K w atFdcwd (some file) (oflag ||| oLargefile) (some mode)
    (r.1, (sysClose K (logged K log.1 openTag file r.1 r.2) log.1).2)

theorem libcOpen64_eq {file : Text} {oflag : Flags} {modeArg : ℤ} {w : World φ}
    (h : AccessesInBounds K env file oflag modeArg w) :
    libcOpen64 K env file oflag modeArg w = .ok (openResult K env file oflag modeArg w) := by
  unfold libcOpen64 openResult
  simp only [preopen_eq K env _ h.1, debugLog_eq K h.2, bind, Except.bind, pure, Except.pure]
  split_ifs with hfd
  · rfl
  · simp only [debugLog_eq K (logFits_open h.2 hfd _)]

theorem libcOpen64_fault {file : Text} {oflag : Flags} {modeArg : ℤ} {w : World φ}
    (h : ¬ AccessesInBounds K env file oflag modeArg w) :
    ∃ e, libcOpen64 K env file oflag modeArg w = .error e := by
  unfold libcOpen64
  by_cases hin : InBounds K env file oflag (getDebugFd K env w).2.events
  · obtain ⟨e, he⟩ := debugLog_fault K (fun hlog => h ⟨hin, hlog⟩)
      (preopenAnswer K env file oflag (openMode oflag modeArg) (getDebugFd K env w).2).2
    exact ⟨e, by simp only [preopen_eq K env _ hin, he, bind, Except.bind]⟩
  · obtain ⟨e, he⟩ := preopen_fault K env (openMode oflag modeArg) hin
    exact ⟨e, by simp only [he, bind, Except.bind]⟩

end AwaitGlibc.Open64

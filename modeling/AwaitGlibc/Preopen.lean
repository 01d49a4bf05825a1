import AwaitGlibc.PreopenLists

/-!
# `preopen`

`preopen` answers an open from descriptors that the environment lists, first by
the file itself, then through a directory. The definitions follow `open64.c`
statement by statement over a kernel and a world. `preopen_eq` separates what
the functions decide from how they get there: the descriptor listed for the
target, if any, and one `openat` when it is a directory.
-/
namespace AwaitGlibc.Preopen
open CText CheckedArray SystemCalls PreopenPaths PreopenLists

/-- The `PREOPEN_*` variables `open64.c` looks up. -/
inductive Variable where
  | debugFd
  | debugFile
  | files
  | fileFds
  | paths
  | pathFds
deriving DecidableEq, Repr

/-- `getenv` on those names. -/
abbrev Env := Variable → Option Text

def oWronly : Flags := 0x1
def oCreat : Flags := 0x40
def oAppend : Flags := 0x400
def oDirectory : Flags := 0x10000
def oTmpfile : Flags := 0x400000 ||| oDirectory

variable {φ : Type} (K : Kernel φ) (env : Env)

/-- The path that is matched: the argument, made absolute when it is not. -/
def absoluteTarget (file : Text) (w : World φ) : Except Fault (Option Text × World φ) :=
  if file.head? ≠ some '/' then getAbsolutePath K file w else .ok (some file, w)

def listedFor (lists : Lists) (target : Option Text) : Except Fault (Option ℤ) := do
  let pathIndex ← findMatchingPreopenPath target lists.paths lists.count
  if 0 ≤ pathIndex then
    let fd ← lists.fds.load pathIndex.toNat
    return some fd
  return none

def preopenFile (file : Text) (w : World φ) : Except Fault (ℤ × World φ) := do
  match ← readLists (env .files) (env .fileFds) with
  | none => return (-1, w)
  | some lists =>
    let (absFile, w) ← absoluteTarget K file w
    match ← listedFor lists absFile with
    | some fd => return (fd, w)
    | none => return (-1, w)

/-- The path matched against the directories: with `O_DIRECTORY` the last
component stays. -/
def directoryOf (oflag : Flags) (absPath : Option Text) : Option Text :=
  if oflag &&& oDirectory = 0 then removeLastComponent absPath else absPath

/-- The mode is passed to `openat` only with `O_CREAT`. -/
def dirMode (oflag : Flags) (mode : ℤ) : Option ℤ :=
  if oflag &&& oCreat ≠ 0 then some mode else none

def preopenFromDir (file : Text) (oflag : Flags) (mode : ℤ) (w : World φ) :
    Except Fault (ℤ × World φ) := do
  match ← readLists (env .paths) (env .pathFds) with
  | none => return (-1, w)
  | some lists =>
    let (absPath, w) ← absoluteTarget K file w
    -- the same variable is matched and then opened
    let absPath := directoryOf oflag absPath
    match ← listedFor lists absPath with
    | some dirfd =>
      let (fd, w) := sysOpenat K w dirfd absPath oflag (dirMode oflag mode)
      if fd ≠ -1 then return (fd, w)
      return (-1, w)
    | none => return (-1, w)

def preopen (file : Text) (oflag : Flags) (mode : ℤ) (w : World φ) :
    Except Fault (ℤ × World φ) := do
  let (preopenFd, w) ← preopenFile K env file w
  if 0 < preopenFd then return (preopenFd, w)
  let (preopenFd, w) ← preopenFromDir K env file oflag mode w
  if 0 < preopenFd then return (preopenFd, w)
  return (-1, w)

/-- The target of the match. It is missing when the working directory is, or
when the absolute form does not fit. -/
def target (file : Text) (events : List Event) : Option Text :=
  if file.head? ≠ some '/' then
    match K.getcwd events with
    | .error _ => none
    | .ok cwd =>
      let text := absoluteForm cwd file
      if pathMax < text.length + 1 then none
      else if text.getLast? = some '/' then some text.dropLast else some text
  else some file

/-- A failing `getcwd` leaves its error code. -/
def afterGetcwd (file : Text) (w : World φ) : World φ :=
  if file.head? ≠ some '/' then
    match K.getcwd w.events with
    | .error e => { w with errno := e }
    | .ok _ => w
  else w

@[simp] theorem afterGetcwd_events (file : Text) (w : World φ) :
    (afterGetcwd K file w).events = w.events := by
  unfold afterGetcwd
  split_ifs
  · split <;> rfl
  · rfl

@[simp] theorem afterGetcwd_fds (file : Text) (w : World φ) :
    (afterGetcwd K file w).fds = w.fds := by
  unfold afterGetcwd
  split_ifs
  · split <;> rfl
  · rfl

variable {file : Text}

/-- The stores of `get_absolute_path` stay inside its buffer: the length test
reserves the slash and the NUL. -/
theorem getAbsolutePath_eq (h : file.head? ≠ some '/') (w : World φ) :
    getAbsolutePath K file w = .ok (target K file w.events, afterGetcwd K file w) := by
  simp only [getAbsolutePath, target, afterGetcwd, if_pos h, if_neg h]
  cases K.getcwd w.events with
  | error e => rfl
  | ok cwd =>
    dsimp only
    have hlen : (absoluteForm cwd file).length = cwd.path.length + (pathToAppend file).length + 1 := by
      rw [absoluteForm, List.length_append, List.length_cons]
      omega
    by_cases hfit : pathMax < cwd.path.length + (pathToAppend file).length + 2
    · rw [if_pos hfit, if_pos (by omega)]
      rfl
    · obtain ⟨b₁, h₁⟩ := (Block.storeAll_isOk (Block.filled pathMax nul) 0 cwd.path).mpr
        (.inr (by rw [Block.size_filled]; omega))
      have s₁ : b₁.size = pathMax := by rw [Block.size_of_storeAll h₁, Block.size_filled]
      have h₂ := Block.store_of_lt (b := b₁) (i := cwd.path.length) (by omega) '/'
      have s₂ := Block.size_of_store h₂
      obtain ⟨b₃, h₃⟩ := (Block.storeAll_isOk ⟨b₁.cells.set cwd.path.length (some '/')⟩
        (cwd.path.length + 1) (pathToAppend file)).mpr (.inr (by omega))
      have s₃ := Block.size_of_storeAll h₃
      have h₄ := Block.store_of_lt (b := b₃) (i := cwd.path.length + (pathToAppend file).length + 1)
        (by omega) nul
      have s₄ := Block.size_of_store h₄
      have h₅ := fun i (hi : i < pathMax) => Block.store_of_lt
        (b := ⟨b₃.cells.set (cwd.path.length + (pathToAppend file).length + 1) (some nul)⟩) (i := i)
        (by omega) nul
      rw [if_neg hfit, if_neg (by omega)]
      simp only [h₁, h₂, h₃, h₄, bind, Except.bind, pure, Except.pure]
      by_cases hl : (absoluteForm cwd file).getLast? = some '/'
      · split_ifs with hcond
        · rw [h₅ _ (by omega)]
        · exfalso
          have hne : cwd.path ≠ [] := by
            intro hnil
            have := cwd.absolute
            rw [hnil] at this
            cases this
          have := List.length_pos_iff.mpr hne
          exact hcond ⟨by omega, hl⟩
      · rw [if_neg hl, if_neg (fun hc => hl hc.2)]

theorem absoluteTarget_eq (file : Text) (w : World φ) :
    absoluteTarget K file w = .ok (target K file w.events, afterGetcwd K file w) := by
  unfold absoluteTarget
  by_cases h : file.head? ≠ some '/'
  · rw [if_pos h, getAbsolutePath_eq K h]
  · simp only [target, afterGetcwd, if_neg h]

def listed (paths fds : Option Text) (target : Option Text) : Option ℤ :=
  match paths, fds with
  | some p, some f =>
    (matchIndex target (strtok ':' p) (strtok ':' f).length).bind
      (fun i => (strtok ':' f)[i]?.map listedFd)
  | _, _ => none

/-- The two lists are read, searched and indexed inside their arrays. -/
def ListsInBounds (paths fds : Option Text) (target : Option Text) : Prop :=
  ListsFit paths fds ∧ ∀ p f, paths = some p → fds = some f →
    (strtok ':' f).length ≤ (strtok ':' p).length + 1 ∨ (listed paths fds target).isSome

instance (paths fds t : Option Text) : Decidable (ListsInBounds paths fds t) :=
  match paths, fds with
  | none, fds => decidable_of_iff (ListsFit none fds) (by simp [ListsInBounds])
  | some p, none => decidable_of_iff (ListsFit (some p) none) (by simp [ListsInBounds])
  | some p, some f =>
    decidable_of_iff
      (ListsFit (some p) (some f) ∧ ((strtok ':' f).length ≤ (strtok ':' p).length + 1 ∨
        (listed (some p) (some f) t).isSome))
      (by simp [ListsInBounds])

variable {t : Option Text}

theorem listed_isSome {p f : Text} :
    (listed (some p) (some f) t).isSome =
      (matchIndex t (strtok ':' p) (strtok ':' f).length).isSome := by
  cases h : matchIndex t (strtok ':' p) (strtok ':' f).length with
  | none => simp [listed, h]
  | some i =>
    have hi := (matchIndex_lt h).1
    simp [listed, h, List.getElem?_eq_getElem hi]

theorem listedFor_of_inBounds {p f : Text} (h : ListsInBounds (some p) (some f) t) :
    listedFor (.ofTokens (strtok ':' p) (strtok ':' f)) t = .ok (listed (some p) (some f) t) := by
  have hfind := findMatchingPreopenPath_eq t (strtok ':' p) (strtok ':' f).length
  have hb := h.2 p f rfl rfl
  rw [listed_isSome] at hb
  simp only [listedFor, listed, Lists.ofTokens]
  cases hm : matchIndex t (strtok ':' p) (strtok ':' f).length with
  | none =>
    rw [hm] at hfind hb
    rw [if_pos (by simpa using hb)] at hfind
    simp only [hfind, bind, Except.bind, pure, Except.pure]
    rfl
  | some i =>
    rw [hm] at hfind
    have hi := (matchIndex_lt hm).1
    have hload : (Block.ofWritten maxListLen ((strtok ':' f).map listedFd)).load i =
        .ok (listedFd (strtok ':' f)[i]) :=
      Block.load_ofWritten (by simp [List.getElem?_eq_getElem hi])
    simp [hfind, hload, List.getElem?_eq_getElem hi, bind, Except.bind, pure, Except.pure]

theorem readLists_of_not_inBounds {paths fds : Option Text} (h : ¬ ListsInBounds paths fds t) :
    (∃ e, readLists paths fds = .error e) ∨
      ∃ lists e, readLists paths fds = .ok (some lists) ∧ listedFor lists t = .error e := by
  by_cases hfit : ListsFit paths fds
  · right
    rw [ListsInBounds, and_iff_right hfit] at h
    push Not at h
    obtain ⟨p, f, rfl, rfl, hlen, hlisted⟩ := h
    have hfind := findMatchingPreopenPath_eq t (strtok ':' p) (strtok ':' f).length
    rw [ne_eq, listed_isSome] at hlisted
    rw [Option.not_isSome_iff_eq_none.mp hlisted, if_neg hlen.not_ge] at hfind
    obtain ⟨e, he⟩ := hfind
    refine ⟨.ofTokens (strtok ':' p) (strtok ':' f), e, readLists_of_fit hfit, ?_⟩
    simp only [listedFor, Lists.ofTokens, he, bind, Except.bind]
  · exact .inl (readLists_of_not_fit hfit)

def afterSearch (paths fds : Option Text) (file : Text) (w : World φ) : World φ :=
  if paths.isSome ∧ fds.isSome then afterGetcwd K file w else w

@[simp] theorem afterSearch_events (paths fds : Option Text) (file : Text) (w : World φ) :
    (afterSearch K paths fds file w).events = w.events := by
  unfold afterSearch
  split_ifs
  · exact afterGetcwd_events K file w
  · rfl

@[simp] theorem afterSearch_fds (paths fds : Option Text) (file : Text) (w : World φ) :
    (afterSearch K paths fds file w).fds = w.fds := by
  unfold afterSearch
  split_ifs
  · exact afterGetcwd_fds K file w
  · rfl

variable {w : World φ}

theorem preopenFile_eq (h : ListsInBounds (env .files) (env .fileFds) (target K file w.events)) :
    preopenFile K env file w =
      .ok ((listed (env .files) (env .fileFds) (target K file w.events)).getD (-1),
        afterSearch K (env .files) (env .fileFds) file w) := by
  unfold preopenFile
  rw [readLists_of_fit h.1]
  generalize env .files = paths at *
  generalize env .fileFds = fds at *
  cases paths with
  | none => rfl
  | some p =>
    cases fds with
    | none => rfl
    | some f =>
      simp only [bind, Except.bind, absoluteTarget_eq, listedFor_of_inBounds h]
      cases listed (some p) (some f) (target K file w.events) <;> rfl

theorem preopenFile_fault
    (h : ¬ ListsInBounds (env .files) (env .fileFds) (target K file w.events)) :
    ∃ e, preopenFile K env file w = .error e := by
  obtain ⟨e, he⟩ | ⟨lists, e, hlists, he⟩ := readLists_of_not_inBounds h
  · exact ⟨e, by simp only [preopenFile, he, bind, Except.bind]⟩
  · exact ⟨e, by simp only [preopenFile, hlists, bind, Except.bind, absoluteTarget_eq, he]⟩

/-- The path matched against the directories, and then given to `openat`. -/
def dirTarget (file : Text) (oflag : Flags) (events : List Event) : Option Text :=
  directoryOf oflag (target K file events)

variable {oflag : Flags}

theorem preopenFromDir_eq (mode : ℤ)
    (h : ListsInBounds (env .paths) (env .pathFds) (dirTarget K file oflag w.events)) :
    preopenFromDir K env file oflag mode w =
      .ok (match listed (env .paths) (env .pathFds) (dirTarget K file oflag w.events) with
        | none => (-1, afterSearch K (env .paths) (env .pathFds) file w)
        | some dirfd => sysOpenat K (afterSearch K (env .paths) (env .pathFds) file w) dirfd
            (dirTarget K file oflag w.events) oflag (dirMode oflag mode)) := by
  unfold preopenFromDir
  rw [readLists_of_fit h.1]
  generalize env .paths = paths at *
  generalize env .pathFds = fds at *
  cases paths with
  | none => rfl
  | some p =>
    cases fds with
    | none => rfl
    | some f =>
      have hdir : directoryOf oflag (target K file w.events) =
          dirTarget K file oflag w.events := rfl
      simp only [bind, Except.bind, absoluteTarget_eq, hdir, listedFor_of_inBounds h]
      cases hd : listed (some p) (some f) (dirTarget K file oflag w.events) with
      | none => rfl
      | some dirfd =>
        change (if _ ≠ -1 then _ else _) = Except.ok (sysOpenat K (afterGetcwd K file w) _ _ _ _)
        split_ifs with hfd
        · rfl
        · rw [ne_eq, not_not] at hfd
          exact congrArg Except.ok (Prod.ext hfd.symm rfl)

theorem preopenFromDir_fault (mode : ℤ)
    (h : ¬ ListsInBounds (env .paths) (env .pathFds) (dirTarget K file oflag w.events)) :
    ∃ e, preopenFromDir K env file oflag mode w = .error e := by
  obtain ⟨e, he⟩ | ⟨lists, e, hlists, he⟩ := readLists_of_not_inBounds h
  · exact ⟨e, by simp only [preopenFromDir, he, bind, Except.bind]⟩
  · unfold dirTarget at he
    exact ⟨e, by simp only [preopenFromDir, hlists, bind, Except.bind, absoluteTarget_eq, he]⟩

def fileAnswer (file : Text) (events : List Event) : ℤ :=
  (listed (env .files) (env .fileFds) (target K file events)).getD (-1)

/-- The directory lists are read only when the file lists gave no positive
descriptor. -/
def InBounds (file : Text) (oflag : Flags) (events : List Event) : Prop :=
  ListsInBounds (env .files) (env .fileFds) (target K file events) ∧
    (¬ 0 < fileAnswer K env file events →
      ListsInBounds (env .paths) (env .pathFds) (dirTarget K file oflag events))

instance (file : Text) (oflag : Flags) (events : List Event) :
    Decidable (InBounds K env file oflag events) :=
  inferInstanceAs (Decidable (_ ∧ (_ → _)))

/-- The world in which `preopen_from_dir` calls `openat`. -/
def beforeOpenat (file : Text) (w : World φ) : World φ :=
  afterSearch K (env .paths) (env .pathFds) file
    (afterSearch K (env .files) (env .fileFds) file w)

@[simp] theorem beforeOpenat_events (file : Text) (w : World φ) :
    (beforeOpenat K env file w).events = w.events := by simp [beforeOpenat]

@[simp] theorem beforeOpenat_fds (file : Text) (w : World φ) :
    (beforeOpenat K env file w).fds = w.fds := by simp [beforeOpenat]

/-- The descriptor of the directory that `preopen_from_dir` opens from. -/
def dirListed (file : Text) (oflag : Flags) (events : List Event) : Option ℤ :=
  listed (env .paths) (env .pathFds) (dirTarget K file oflag events)

/-- What `preopen` computes when no access leaves its array. A descriptor 0
from `openat` is not passed on. -/
def preopenAnswer (file : Text) (oflag : Flags) (mode : ℤ) (w : World φ) : ℤ × World φ :=
  if 0 < fileAnswer K env file w.events then
    (fileAnswer K env file w.events, afterSearch K (env .files) (env .fileFds) file w)
  else
    match dirListed K env file oflag w.events with
    | none => (-1, beforeOpenat K env file w)
    | some dirfd =>
      let r := sysOpenat K (beforeOpenat K env file w) dirfd (dirTarget K file oflag w.events)
        oflag (dirMode oflag mode)
      if 0 < r.1 then r else (-1, r.2)

theorem preopen_eq (mode : ℤ) (h : InBounds K env file oflag w.events) :
    preopen K env file oflag mode w = .ok (preopenAnswer K env file oflag mode w) := by
  unfold preopen preopenAnswer
  rw [preopenFile_eq K env h.1]
  change (if 0 < fileAnswer K env file w.events then _ else _) = _
  split_ifs with hfile
  · rfl
  · have hdir := h.2 hfile
    rw [← afterSearch_events K (env .files) (env .fileFds) file w] at hdir
    have hlisted : listed (env .paths) (env .pathFds) (dirTarget K file oflag w.events) =
        dirListed K env file oflag w.events := rfl
    have hworld : afterSearch K (env .paths) (env .pathFds) file
        (afterSearch K (env .files) (env .fileFds) file w) = beforeOpenat K env file w := rfl
    simp only [bind, Except.bind, preopenFromDir_eq K env mode hdir, afterSearch_events, hlisted,
      hworld]
    cases dirListed K env file oflag w.events with
    | none => rfl
    | some dirfd =>
      dsimp only
      split_ifs <;> rfl

theorem preopen_fault (mode : ℤ) (h : ¬ InBounds K env file oflag w.events) :
    ∃ e, preopen K env file oflag mode w = .error e := by
  unfold preopen
  by_cases hf : ListsInBounds (env .files) (env .fileFds) (target K file w.events)
  · have hfile : ¬ 0 < fileAnswer K env file w.events :=
      fun hpos => h ⟨hf, fun hn => (hn hpos).elim⟩
    have hdir : ¬ ListsInBounds (env .paths) (env .pathFds) (dirTarget K file oflag
        (afterSearch K (env .files) (env .fileFds) file w).events) := by
      rw [afterSearch_events]
      exact fun hd => h ⟨hf, fun _ => hd⟩
    obtain ⟨e, he⟩ := preopenFromDir_fault K env mode hdir
    rw [preopenFile_eq K env hf]
    change ∃ e, (if 0 < fileAnswer K env file w.events then _ else _) = _
    rw [if_neg hfile, he]
    exact ⟨e, rfl⟩
  · obtain ⟨e, he⟩ := preopenFile_fault K env hf
    exact ⟨e, by simp only [he, bind, Except.bind]⟩

/-- The file opened through a directory descriptor, if the call gets so far. -/
def dirOpens (file : Text) (oflag : Flags) (mode : ℤ) (w : World φ) : Option φ :=
  if 0 < fileAnswer K env file w.events then none
  else
    match dirListed K env file oflag w.events with
    | none => none
    | some dirfd =>
      (openatAnswer K w dirfd (dirTarget K file oflag w.events) oflag
        (dirMode oflag mode)).toOption

theorem openatAnswer_beforeOpenat (file : Text) (w : World φ) (dirfd : ℤ) (path : Option Text)
    (oflag : Flags) (mode : Option ℤ) :
    openatAnswer K (beforeOpenat K env file w) dirfd path oflag mode =
      openatAnswer K w dirfd path oflag mode := by
  unfold openatAnswer
  rw [beforeOpenat_events]

theorem preopenAnswer_fst (file : Text) (oflag : Flags) (mode : ℤ) (w : World φ) :
    (preopenAnswer K env file oflag mode w).1 =
      if 0 < fileAnswer K env file w.events then fileAnswer K env file w.events
      else
        match dirOpens K env file oflag mode w with
        | none => -1
        | some _ => if lowestFree w.fds = 0 then -1 else lowestFree w.fds := by
  by_cases hfile : 0 < fileAnswer K env file w.events
  · simp only [preopenAnswer, hfile, if_true]
  · simp only [preopenAnswer, dirOpens, hfile, if_false]
    cases dirListed K env file oflag w.events with
    | none => rfl
    | some dirfd =>
      simp only [sysOpenat, openatAnswer_beforeOpenat]
      cases openatAnswer K w dirfd (dirTarget K file oflag w.events) oflag
          (dirMode oflag mode) with
      | error e => rfl
      | ok f =>
        simp only [World.answer, World.opened, beforeOpenat_fds]
        split_ifs <;> first | rfl | omega

/-- `preopen` adds at most the file it opened, at the lowest free descriptor. -/
theorem preopenAnswer_fds (file : Text) (oflag : Flags) (mode : ℤ) (w : World φ) :
    (preopenAnswer K env file oflag mode w).2.fds =
      installed w.fds (dirOpens K env file oflag mode w) := by
  by_cases hfile : 0 < fileAnswer K env file w.events
  · simp only [preopenAnswer, dirOpens, hfile, if_true, afterSearch_fds, installed]
  · simp only [preopenAnswer, dirOpens, hfile, if_false]
    cases dirListed K env file oflag w.events with
    | none => simp only [beforeOpenat_fds, installed]
    | some dirfd =>
      have hsnd : ∀ r : ℤ × World φ, (if 0 < r.1 then r else (-1, r.2)).2 = r.2 := by
        intro r
        split_ifs <;> rfl
      simp only [hsnd, sysOpenat, openatAnswer_beforeOpenat, World.fds_answer, beforeOpenat_fds]

end AwaitGlibc.Preopen

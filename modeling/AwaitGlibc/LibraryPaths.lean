import AwaitGlibc.CandidateSearch
import AwaitGlibc.CheckedArray
import AwaitGlibc.OpenatPaths

/-!
# Searching directories for a library

`open_verify` opens a file and tests whether it is an object for this machine;
`open_path` tries the directories of one search path, each with the hardware
capability subdirectories, and keeps a record of directories that do not exist.
Reading the header is summed up by a `Verdict` on the file. Auditing modules are
taken to be absent.

`FileSystem` is an assignment of outcomes: a name is absent, or it leads to a
usable object, or to one of the other ELF class. Over such an assignment
`openDirs_searched` says that a path is searched in order up to the first
usable object, and that everything else opened on the way is closed again.
-/
namespace AwaitGlibc.LibraryPaths
open CText CheckedArray SystemCalls CandidateSearch OpenatPaths

def oCloexec : Flags := 0x80000

inductive Verdict where
  | usable
  | otherClass
  | unsuitable
  | fatal (errval : Errno) (errstring : Text)
deriving DecidableEq, Repr

/-- Answers about files besides opening them: the header tests, `stat` on a name
and the set-user-ID bit of an open file. -/
structure Disk (φ : Type) where
  verdict : φ → Verdict
  stat : Text → Except Errno Bool
  isSuid : φ → Bool

inductive Status where
  | unknown
  | nonexisting
  | existing
deriving DecidableEq, Repr

/-- The state a search works on. `fb` is the file whose header the buffer holds
and `realname` the name reported for the hit; both start unset. -/
structure Search (φ : Type) where
  world : World φ
  fb : Option φ
  realname : Option Text
  foundOtherClass : Bool
  status : Text → Text → Status

/-- The ways a search ends without a value: an access outside the language, or
an error signalled to the caller. -/
inductive Stop (φ : Type) where
  | fault (f : Fault)
  | signal (w : World φ) (errcode : Errno) (objname errstring : Text)

def cannotReadFileData : Text := "cannot read file data".toList

section Model
variable {φ : Type} (K : Kernel φ) (D : Disk φ)

def discard (w : World φ) (fd : ℤ) : World φ := { (sysClose K w fd).2 with errno := enoent }

/-- `open_verify`. A descriptor other than -1 is taken over; reading from one
that is not open fails with `EBADF`. -/
def openVerify (name : Text) (fd : ℤ) (s : Search φ) : Except (Stop φ) (ℤ × Search φ) :=
  let r := if fd = -1 then sysOpen K s.world name (oRdonly ||| oCloexec) none else (fd, s.world)
  if r.1 = -1 then .ok (-1, { s with world := r.2 })
  else
    match r.2.file? r.1 with
    | none => .error (.signal (sysClose K r.2 r.1).2 ebadf name cannotReadFileData)
    | some f =>
      match D.verdict f with
      | .usable => .ok (r.1, { s with world := { r.2 with errno := 0 }, fb := some f })
      | .otherClass =>
        .ok (-1, { s with world := discard K r.2 r.1, fb := some f, foundOtherClass := true })
      | .unsuitable => .ok (-1, { s with world := discard K r.2 r.1, fb := some f })
      | .fatal errval errstring =>
        .error (.signal (sysClose K r.2 r.1).2 errval name errstring)

/-- What `open_path` takes from its caller and from global data: the capability
subdirectories, whether the loading namespace is auditing, and whether an
object needs the set-user-ID bit. -/
structure PathRules where
  caps : List Text
  auditing : Bool
  needsSuid : Bool

variable (R : PathRules)

def Search.setStatus (s : Search φ) (dir cap : Text) (st : Status) : Search φ :=
  { s with status := fun d c => if d = dir ∧ c = cap then st else s.status d c }

/-- The record made after the first attempt in a directory. The directory is
the buffer cut in front of the name, without its last character. -/
def recordStatus (dir cap : Text) (fd : ℤ) (s : Search φ) : Search φ :=
  if s.status dir cap ≠ .unknown then s
  else if fd ≠ -1 then s.setStatus dir cap .existing
  else if R.auditing then s
  else
    match D.stat (dir ++ cap).dropLast with
    | .error e => { s.setStatus dir cap .nonexisting with world := { s.world with errno := e } }
    | .ok false => s.setStatus dir cap .nonexisting
    | .ok true => s.setStatus dir cap .existing

/-- In secure mode an object without the set-user-ID bit is dropped. -/
def checkSuid (fd : ℤ) (s : Search φ) : ℤ × Search φ :=
  if fd ≠ -1 ∧ R.needsSuid then
    if (s.world.file? fd).any D.isSuid then (fd, s)
    else (-1, { s with world := discard K s.world fd })
  else (fd, s)

/-- One subdirectory of one directory. The Boolean remembers whether any
directory was there. -/
def tryCap (name dir cap : Text) (hereAny : Bool) (s : Search φ) :
    Except (Stop φ) (ℤ × Bool × Search φ) :=
  if s.status dir cap = .nonexisting then .ok (-1, hereAny, s)
  else do
    let (fd, s) ← openVerify K D (dir ++ cap ++ name) (-1) s
    let s := recordStatus D R dir cap fd s
    let hereAny := hereAny || s.status dir cap != .nonexisting
    let (fd, s) := checkSuid K D R fd s
    if fd ≠ -1 then return (fd, hereAny, { s with realname := some (dir ++ cap ++ name) })
    return (fd, hereAny, s)

def tryCaps (name dir : Text) : List Text → Bool → Search φ →
    Except (Stop φ) (ℤ × Bool × Search φ)
  | [], hereAny, s => .ok (-1, hereAny, s)
  | cap :: caps, hereAny, s => do
      let (fd, hereAny, s) ← tryCap K D R name dir cap hereAny s
      if fd ≠ -1 then return (fd, hereAny, s)
      tryCaps name dir caps hereAny s

/-- The directories of a path. The Boolean of the result is false when none of
them exists and the path is to be forgotten. -/
def openDirs (name : Text) : List Text → Bool → Search φ → Except (Stop φ) (ℤ × Bool × Search φ)
  | [], any, s => .ok (-1, any, s)
  | dir :: dirs, any, s => do
      let (fd, hereAny, s) ← tryCaps K D R name dir R.caps false s
      if fd ≠ -1 then return (fd, true, s)
      -- the file is there and readable, but something went wrong
      if hereAny ∧ s.world.errno ≠ enoent ∧ s.world.errno ≠ eacces then return (-1, true, s)
      openDirs name dirs (any || hereAny) s

end Model

section Outcomes

/-- An assignment of outcomes to names: absent, or a file, which is of the other
ELF class or usable. A failing `open` or `stat` reports `ENOENT`. -/
structure FileSystem (φ : Type) where
  openat : ℤ → Text → Option φ
  file : Text → Option φ
  isDir : Text → Bool
  wrongClass : φ → Bool
  isSuid : φ → Bool
  openat_nil : ∀ d, openat d [] = none
  file_nil : file [] = none

variable {φ : Type} (fs : FileSystem φ)

def orNoent : Option φ → Except Errno φ
  | none => .error enoent
  | some f => .ok f

def FileSystem.kernel : Kernel φ where
  openat _ d path _ _ := orNoent (fs.openat d path)
  openPath _ path _ _ := orNoent (fs.file path)
  write _ _ data := .ok data.length
  close _ _ := none
  getcwd _ := .error enoent

def FileSystem.disk : Disk φ where
  verdict f := if fs.wrongClass f then .otherClass else .usable
  stat path := if fs.isDir path then .ok true else .error enoent
  isSuid := fs.isSuid

theorem FileSystem.openatAnswer_eq (w : World φ) (d : ℤ) (path : Text) (oflag : Flags)
    (mode : Option ℤ) :
    openatAnswer fs.kernel w d (some path) oflag mode = orNoent (fs.openat d path) := by
  cases path with
  | nil => rw [fs.openat_nil]; rfl
  | cons c path => rfl

theorem FileSystem.openPathAnswer_eq (w : World φ) (path : Text) (oflag : Flags)
    (mode : Option ℤ) :
    openPathAnswer fs.kernel w path oflag mode = orNoent (fs.file path) := by
  cases path with
  | nil => rw [fs.file_nil]; rfl
  | cons c path => rfl

inductive Candidate where
  | descriptor (dirfd : ℤ)
  | path (dir cap : Text)
  | cached (file : Text)
deriving DecidableEq, Repr

variable (needsSuid : Bool) (name : Text)

def Candidate.realname : Candidate → Text
  | .descriptor _ => name
  | .path dir cap => dir ++ cap ++ name
  | .cached file => file

def Candidate.request : Candidate → Request
  | .descriptor dirfd => .openat dirfd (some name) oRdonly none
  | c => .openPath (c.realname name) (oRdonly ||| oCloexec) none

def FileSystem.fileAt : Candidate → Option φ
  | .descriptor dirfd => fs.openat dirfd name
  | c => fs.file (c.realname name)

/-- The object at a candidate can be mapped. The set-user-ID bit matters in
search directories only. -/
def FileSystem.usable (c : Candidate) : Bool :=
  match fs.fileAt name c with
  | none => false
  | some f =>
    !fs.wrongClass f &&
      match c with
      | .path _ _ => !needsSuid || fs.isSuid f
      | _ => true

/-- Candidates that need not be tried: those in a directory that is known not to
exist, or that the test of `open_path` finds not to. -/
def FileSystem.missing (known : Text → Text → Prop) : Candidate → Prop
  | .path dir cap => known dir cap ∨ fs.isDir (dir ++ cap).dropLast = false
  | _ => False

def foundFd (w : World φ) : Option Candidate → ℤ
  | none => -1
  | some _ => lowestFree w.fds

def FileSystem.foundFile (w : World φ) (hit : Option Candidate) (n : ℤ) : Option φ :=
  match hit with
  | none => w.file? n
  | some c => if n = lowestFree w.fds then fs.fileAt name c else w.file? n

variable (known : Text → Text → Prop)

/-- A directory on record as not existing is missing and has nothing usable. -/
def Recorded (s : Search φ) : Prop :=
  ∀ dir cap, s.status dir cap = .nonexisting →
    fs.missing known (.path dir cap) ∧ fs.usable needsSuid name (.path dir cap) = false

/-- The candidates have been searched in order: the descriptor is that of the
first usable one, it is the only one added to the table, it has been verified,
and exactly the candidates up to it were opened. -/
structure Searched (cands : List Candidate) (s : Search φ) (fd : ℤ) (s' : Search φ) : Prop where
  fd_eq : fd = foundFd s.world (cands.find? (fs.usable needsSuid name))
  table : ∀ n, s'.world.file? n =
    fs.foundFile name s.world (cands.find? (fs.usable needsSuid name)) n
  verified : ∀ c, cands.find? (fs.usable needsSuid name) = some c →
    s'.fb = fs.fileAt name c ∧ s'.realname = some (c.realname name)
  opens : ∃ rs, Tried (fs.missing known) (Candidate.request name)
    (upTo (fs.usable needsSuid name) cands) rs ∧
    s'.world.openRequests = s.world.openRequests ++ rs
  recorded : Recorded fs needsSuid name known s'

/-- Nothing but a request and an `errno` is left of a failed attempt. -/
structure Untouched (r : Request) (w w' : World φ) : Prop where
  table : ∀ n, w'.file? n = w.file? n
  opens : w'.openRequests = w.openRequests ++ [r]
  errno : w'.errno = enoent

variable {fs needsSuid name known} {s s' : Search φ}

theorem Searched.nil (h : Recorded fs needsSuid name known s) :
    Searched fs needsSuid name known [] s (-1) s where
  fd_eq := rfl
  table _ := rfl
  verified _ hc := by cases hc
  opens := ⟨[], .nil, (List.append_nil _).symm⟩
  recorded := h

variable {fd : ℤ} {f : φ}

theorem Searched.fd_eq_neg_one_iff {cands : List Candidate}
    (h : Searched fs needsSuid name known cands s fd s') :
    fd = -1 ↔ cands.find? (fs.usable needsSuid name) = none := by
  rw [h.fd_eq]
  cases cands.find? (fs.usable needsSuid name) with
  | none => simp [foundFd]
  | some c => simp only [foundFd, reduceCtorEq]

theorem Searched.append_of_none {cs ds : List Candidate} {s₁ : Search φ} {fd' : ℤ}
    (h : Searched fs needsSuid name known cs s fd s₁) (hfd : fd = -1)
    (h' : Searched fs needsSuid name known ds s₁ fd' s') :
    Searched fs needsSuid name known (cs ++ ds) s fd' s' := by
  have hnone := h.fd_eq_neg_one_iff.mp hfd
  have htable : ∀ n, s₁.world.file? n = s.world.file? n := by
    intro n
    rw [h.table, hnone]
    rfl
  have hfree : lowestFree s₁.world.fds = lowestFree s.world.fds := lowestFree_congr htable
  have hfind : (cs ++ ds).find? (fs.usable needsSuid name) =
      ds.find? (fs.usable needsSuid name) := by
    rw [List.find?_append, hnone, Option.none_or]
  obtain ⟨rs, hrs, hopens⟩ := h.opens
  obtain ⟨qs, hqs, hopens'⟩ := h'.opens
  refine ⟨?_, fun n => ?_, fun c hc => ?_, ⟨rs ++ qs, ?_, ?_⟩, h'.recorded⟩
  · rw [hfind, h'.fd_eq]
    cases ds.find? (fs.usable needsSuid name) <;> simp [foundFd, hfree]
  · rw [hfind, h'.table]
    cases ds.find? (fs.usable needsSuid name) <;>
      simp [FileSystem.foundFile, hfree, htable]
  · exact h'.verified c (hfind ▸ hc)
  · rw [upTo_append_of_none hnone]
    exact Tried.append (upTo_of_none hnone ▸ hrs) hqs
  · rw [hopens', hopens, List.append_assoc]

theorem Searched.append_of_found {cs : List Candidate}
    (h : Searched fs needsSuid name known cs s fd s') (hfd : fd ≠ -1) (ds : List Candidate) :
    Searched fs needsSuid name known (cs ++ ds) s fd s' := by
  obtain ⟨c, hc⟩ := Option.ne_none_iff_exists'.mp (mt h.fd_eq_neg_one_iff.mpr hfd)
  have hfind : (cs ++ ds).find? (fs.usable needsSuid name) =
      cs.find? (fs.usable needsSuid name) := by
    rw [List.find?_append, hc, Option.some_or]
  refine ⟨hfind ▸ h.fd_eq, hfind ▸ h.table, hfind ▸ h.verified, ?_, h.recorded⟩
  rw [upTo_append_of_some hc]
  exact h.opens

theorem Searched.of_untouched {c : Candidate} (hc : fs.usable needsSuid name c = false)
    (h : Untouched (c.request name) s.world s'.world)
    (hrec : Recorded fs needsSuid name known s') :
    Searched fs needsSuid name known [c] s (-1) s' := by
  have hfind : [c].find? (fs.usable needsSuid name) = none := by simp [hc]
  refine ⟨by rw [hfind]; rfl, by rw [hfind]; exact h.table, by simp [hfind],
    ⟨[c.request name], ?_, h.opens⟩, hrec⟩
  rw [upTo_of_none hfind]
  exact Tried.all (Candidate.request name) [c]

theorem Searched.of_found {c : Candidate} (hc : fs.usable needsSuid name c = true)
    (hf : fs.fileAt name c = some f)
    (htable : ∀ n, s'.world.file? n = if n = lowestFree s.world.fds then some f else s.world.file? n)
    (hopens : s'.world.openRequests = s.world.openRequests ++ [c.request name])
    (hfb : s'.fb = some f) (hname : s'.realname = some (c.realname name))
    (hrec : Recorded fs needsSuid name known s') :
    Searched fs needsSuid name known [c] s (lowestFree s.world.fds) s' := by
  have hfind : [c].find? (fs.usable needsSuid name) = some c := by simp [hc]
  refine ⟨by rw [hfind]; rfl, fun n => ?_, fun d hd => ?_, ⟨[c.request name], ?_, hopens⟩, hrec⟩
  · rw [hfind, FileSystem.foundFile, hf, htable]
  · rw [hfind] at hd
    cases hd
    exact ⟨hfb.trans hf.symm, hname⟩
  · rw [upTo, if_pos hc]
    exact Tried.all (Candidate.request name) [c]

theorem discard_file? {w w₁ : World φ} {K : Kernel φ}
    (htable : ∀ n, w₁.file? n = if n = lowestFree w.fds then some f else w.file? n) (n : ℤ) :
    (discard K w₁ (lowestFree w.fds)).file? n = w.file? n := by
  change (sysClose K w₁ _).2.file? n = _
  rw [sysClose_file?, htable]
  split_ifs with hn
  · rw [hn]
    exact (file?_lowestFree w.fds).symm
  · rfl

theorem discard_openRequests (K : Kernel φ) (w : World φ) (fd : ℤ) :
    (discard K w fd).openRequests = w.openRequests := sysClose_openRequests fd

theorem Untouched.of_discard {r : Request} {w w₁ : World φ} {K : Kernel φ}
    (htable : ∀ n, w₁.file? n = if n = lowestFree w.fds then some f else w.file? n)
    (hopens : w₁.openRequests = w.openRequests ++ [r]) :
    Untouched r w (discard K w₁ (lowestFree w.fds)) where
  table := discard_file? htable
  opens := (discard_openRequests K w₁ _).trans hopens
  errno := rfl

theorem opened_file? (r : Request) (w : World φ) (f : φ) (n : ℤ) :
    (w.opened r f).2.file? n = if n = lowestFree w.fds then some f else w.file? n :=
  file?_install w.fds f n

def pathRequest (path : Text) : Request := .openPath path (oRdonly ||| oCloexec) none

theorem openVerify_taken {path : Text} (hfd : fd ≠ -1) (hfile : s.world.file? fd = some f) :
    openVerify fs.kernel fs.disk path fd s =
      .ok (if fs.wrongClass f then
        (-1, { s with
          world := discard fs.kernel s.world fd, fb := some f, foundOtherClass := true })
      else (fd, { s with world := { s.world with errno := 0 }, fb := some f })) := by
  unfold openVerify
  simp only [if_neg hfd, hfile, FileSystem.disk]
  cases fs.wrongClass f <;> rfl

section Opening
variable {K : Kernel φ} {D : Disk φ} {path : Text}

theorem openVerify_opened {f : φ}
    (h : openPathAnswer K s.world path (oRdonly ||| oCloexec) none = .ok f) :
    openVerify K D path (-1) s =
      openVerify K D path (lowestFree s.world.fds)
        { s with world := (s.world.opened (pathRequest path) f).2 } := by
  have hfd : ¬ (lowestFree s.world.fds : ℤ) = -1 := by omega
  unfold openVerify
  simp only [if_neg hfd, if_true, sysOpen, h, World.answer, pathRequest, World.opened]

theorem openVerify_refused {e : Errno}
    (h : openPathAnswer K s.world path (oRdonly ||| oCloexec) none = .error e) :
    openVerify K D path (-1) s =
      .ok (-1, { s with world := (s.world.fail (pathRequest path) e).2 }) := by
  unfold openVerify
  simp only [if_true, sysOpen, h, World.answer, pathRequest, World.fail]

end Opening

variable (fs) in
theorem openVerify_path (path : Text) (s : Search φ) :
    ∃ s', openVerify fs.kernel fs.disk path (-1) s =
        .ok (match (fs.file path).filter (fun f => !fs.wrongClass f) with
          | none => -1
          | some _ => lowestFree s.world.fds, s') ∧
      s'.status = s.status ∧
      match (fs.file path).filter (fun f => !fs.wrongClass f) with
      | none => Untouched (pathRequest path) s.world s'.world
      | some f => s'.fb = some f ∧
          s'.world.openRequests = s.world.openRequests ++ [pathRequest path] ∧
          ∀ n, s'.world.file? n = if n = lowestFree s.world.fds then some f else s.world.file? n := by
  have hfd : (lowestFree s.world.fds : ℤ) ≠ -1 := by omega
  cases h : fs.file path with
  | none =>
    exact ⟨{ s with world := (s.world.fail (pathRequest path) enoent).2 },
      openVerify_refused (by rw [fs.openPathAnswer_eq, h]; rfl), rfl,
      fun _ => rfl, World.openRequests_answer rfl (.error enoent), rfl⟩
  | some f =>
    have hfile : (s.world.opened (pathRequest path) f).2.file? (lowestFree s.world.fds) =
        some f := by rw [opened_file?, if_pos rfl]
    have hrequests : (s.world.opened (pathRequest path) f).2.openRequests =
        s.world.openRequests ++ [pathRequest path] := World.openRequests_answer rfl (.ok f)
    rw [openVerify_opened (by rw [fs.openPathAnswer_eq, h]; rfl), openVerify_taken hfd hfile]
    cases hclass : fs.wrongClass f with
    | true =>
      rw [Option.filter_some_neg (by simp [hclass])]
      exact ⟨_, rfl, rfl, Untouched.of_discard (opened_file? _ _ f) hrequests⟩
    | false =>
      rw [Option.filter_some_pos (by simp [hclass])]
      exact ⟨_, rfl, rfl, rfl, hrequests, opened_file? (pathRequest path) s.world f⟩

section Record
variable {R : PathRules} {dir cap : Text} {fd : ℤ}

variable (fs R dir cap fd) in
/-- A directory enters the record as not existing only after a failed attempt
and a failed `stat`. -/
theorem recordStatus_cases (s : Search φ) :
    recordStatus fs.disk R dir cap fd s = s ∨
      recordStatus fs.disk R dir cap fd s = s.setStatus dir cap .existing ∨
      (fd = -1 ∧ fs.isDir (dir ++ cap).dropLast = false ∧
        recordStatus fs.disk R dir cap fd s =
          { s.setStatus dir cap .nonexisting with world := { s.world with errno := enoent } }) := by
  have hstat : fs.disk.stat (dir ++ cap).dropLast =
      if fs.isDir (dir ++ cap).dropLast then .ok true else .error enoent := rfl
  unfold recordStatus
  split_ifs with h₁ h₂ h₃
  · exact .inl rfl
  · exact .inr (.inl rfl)
  · exact .inl rfl
  · rw [hstat]
    cases hdir : fs.isDir (dir ++ cap).dropLast with
    | true => exact .inr (.inl rfl)
    | false => exact .inr (.inr ⟨not_not.mp h₂, rfl, rfl⟩)

variable (fs R dir cap fd) in
/-- The record does not touch the search, apart from the `errno` of `stat`. -/
theorem recordStatus_frame (s : Search φ) :
    (recordStatus fs.disk R dir cap fd s).fb = s.fb ∧
      (recordStatus fs.disk R dir cap fd s).world.fds = s.world.fds ∧
      (recordStatus fs.disk R dir cap fd s).world.events = s.world.events ∧
      (s.world.errno = enoent → (recordStatus fs.disk R dir cap fd s).world.errno = enoent) := by
  rcases recordStatus_cases fs R dir cap fd s with
    h | h | ⟨-, -, h⟩
  · rw [h]
    exact ⟨rfl, rfl, rfl, id⟩
  · rw [h]
    exact ⟨rfl, rfl, rfl, id⟩
  · rw [h]
    exact ⟨rfl, rfl, rfl, fun _ => rfl⟩

theorem setStatus_recorded {st : Status} (h : Recorded fs needsSuid name known s)
    (hst : st = .nonexisting → fs.isDir (dir ++ cap).dropLast = false ∧
      fs.usable needsSuid name (.path dir cap) = false) :
    Recorded fs needsSuid name known (s.setStatus dir cap st) := by
  intro d c hdc
  by_cases heq : d = dir ∧ c = cap
  · obtain ⟨rfl, rfl⟩ := heq
    have hst' : st = .nonexisting := by simpa [Search.setStatus] using hdc
    exact ⟨.inr (hst hst').1, (hst hst').2⟩
  · exact h d c (by simpa [Search.setStatus, heq] using hdc)

theorem recordStatus_recorded (h : Recorded fs needsSuid name known s)
    (hfd : fd = -1 → fs.usable needsSuid name (.path dir cap) = false) :
    Recorded fs needsSuid name known (recordStatus fs.disk R dir cap fd s) := by
  rcases recordStatus_cases fs R dir cap fd s with
    heq | heq | ⟨hneg, hdir, heq⟩
  · rw [heq]
    exact h
  · rw [heq]
    exact setStatus_recorded h (by simp)
  · rw [heq]
    exact setStatus_recorded h (fun _ => ⟨hdir, hfd hneg⟩)

end Record

section Search
variable {R : PathRules}

theorem FileSystem.usable_path (needsSuid : Bool) (name dir cap : Text) :
    fs.usable needsSuid name (.path dir cap) =
      match (fs.file (dir ++ cap ++ name)).filter (fun f => !fs.wrongClass f) with
      | none => false
      | some f => !needsSuid || fs.isSuid f := by
  simp only [FileSystem.usable, FileSystem.fileAt, Candidate.realname]
  cases fs.file (dir ++ cap ++ name) with
  | none => rfl
  | some f =>
    cases hclass : fs.wrongClass f with
    | true => rw [Option.filter_some_neg (by simp [hclass])]; simp [hclass]
    | false => rw [Option.filter_some_pos (by simp [hclass])]; simp [hclass]

variable (fs) in
theorem checkSuid_eq {fd : ℤ} {f : φ} (hfd : fd ≠ -1) (hfile : s.world.file? fd = some f) :
    checkSuid fs.kernel fs.disk R fd s =
      if !R.needsSuid || fs.isSuid f then (fd, s)
      else (-1, { s with world := discard fs.kernel s.world fd }) := by
  have hdisk : fs.disk.isSuid = fs.isSuid := rfl
  unfold checkSuid
  rw [hfile, hdisk]
  cases R.needsSuid <;> simp [hfd]

/-- One attempt. After a failure in a directory that exists, `errno` is
`ENOENT`, so the attempt does not end the search. -/
theorem tryCap_searched (dir cap : Text) {hereAny : Bool}
    (hrec : Recorded fs R.needsSuid name known s)
    (herrno : hereAny = true → s.world.errno = enoent) :
    ∃ fd hereAny' s', tryCap fs.kernel fs.disk R name dir cap hereAny s = .ok (fd, hereAny', s') ∧
      Searched fs R.needsSuid name known [.path dir cap] s fd s' ∧
      (fd = -1 → hereAny' = true → s'.world.errno = enoent) := by
  unfold tryCap
  by_cases hstatus : s.status dir cap = .nonexisting
  · rw [if_pos hstatus]
    obtain ⟨hmissing, husable⟩ := hrec dir cap hstatus
    have hfind : [Candidate.path dir cap].find? (fs.usable R.needsSuid name) = none := by
      simp [husable]
    refine ⟨-1, hereAny, s, rfl, ⟨by rw [hfind]; rfl, by rw [hfind]; exact fun _ => rfl,
      by simp [hfind], ⟨[], ?_, (List.append_nil _).symm⟩, hrec⟩, fun _ => herrno⟩
    rw [upTo_of_none hfind]
    exact .skip hmissing .nil
  rw [if_neg hstatus]
  obtain ⟨s₁, hverify, hsame, heffect⟩ := openVerify_path fs (dir ++ cap ++ name) s
  have hrec₁ : Recorded fs R.needsSuid name known s₁ := by
    intro d c hdc
    exact hrec d c (hsame ▸ hdc)
  have husable := fs.usable_path R.needsSuid name dir cap
  rw [hverify]
  cases hfile : (fs.file (dir ++ cap ++ name)).filter (fun f => !fs.wrongClass f) with
  | none =>
    rw [hfile] at heffect husable
    obtain ⟨-, hfds, hevents, herr⟩ := recordStatus_frame fs R dir cap (-1) s₁
    have huntouched : Untouched (pathRequest (dir ++ cap ++ name)) s.world
        (recordStatus fs.disk R dir cap (-1) s₁).world := by
      refine ⟨fun n => ?_, ?_, herr heffect.errno⟩
      · rw [World.file?, hfds]
        exact heffect.table n
      · rw [World.openRequests, hevents]
        exact heffect.opens
    refine ⟨-1, _, recordStatus fs.disk R dir cap (-1) s₁, rfl,
      Searched.of_untouched husable huntouched (recordStatus_recorded hrec₁ fun _ => husable),
      fun _ _ => huntouched.errno⟩
  | some f =>
    rw [hfile] at heffect husable
    obtain ⟨hfb, hopens, htable⟩ := heffect
    have hfd : (lowestFree s.world.fds : ℤ) ≠ -1 := by omega
    obtain ⟨hfb₂, hfds, hevents, -⟩ := recordStatus_frame fs R dir cap (lowestFree s.world.fds) s₁
    have hrec₂ : Recorded fs R.needsSuid name known
        (recordStatus fs.disk R dir cap (lowestFree s.world.fds) s₁) :=
      recordStatus_recorded hrec₁ (fun h => (hfd h).elim)
    have htable₂ : ∀ n, (recordStatus fs.disk R dir cap (lowestFree s.world.fds) s₁).world.file? n =
        if n = lowestFree s.world.fds then some f else s.world.file? n := by
      intro n
      rw [World.file?, hfds]
      exact htable n
    have hopens₂ : (recordStatus fs.disk R dir cap (lowestFree s.world.fds) s₁).world.openRequests =
        s.world.openRequests ++ [pathRequest (dir ++ cap ++ name)] := by
      rw [World.openRequests, hevents]
      exact hopens
    have hchecked := checkSuid_eq (R := R) fs hfd
      ((htable₂ (lowestFree s.world.fds)).trans (if_pos rfl))
    simp only [bind, Except.bind, hchecked]
    dsimp only at husable
    cases hs : !R.needsSuid || fs.isSuid f with
    | true =>
      rw [hs] at husable
      refine ⟨_, _, _, rfl, Searched.of_found husable ?_ htable₂ hopens₂ (hfb₂.trans hfb) rfl
        hrec₂, fun h => (hfd h).elim⟩
      exact (Option.filter_eq_some_iff.mp hfile).1
    | false =>
      rw [hs] at husable
      have huntouched := Untouched.of_discard (K := fs.kernel) htable₂ hopens₂
      exact ⟨_, _, _, rfl, Searched.of_untouched husable huntouched hrec₂,
        fun _ _ => rfl⟩

theorem tryCaps_searched (dir : Text) (caps : List Text) {hereAny : Bool}
    (hrec : Recorded fs R.needsSuid name known s)
    (herrno : hereAny = true → s.world.errno = enoent) :
    ∃ fd hereAny' s', tryCaps fs.kernel fs.disk R name dir caps hereAny s =
        .ok (fd, hereAny', s') ∧
      Searched fs R.needsSuid name known (caps.map (.path dir)) s fd s' ∧
      (fd = -1 → hereAny' = true → s'.world.errno = enoent) := by
  induction caps generalizing hereAny s with
  | nil => exact ⟨-1, hereAny, s, rfl, .nil hrec, fun _ => herrno⟩
  | cons cap caps ih =>
    obtain ⟨fd, any₁, s₁, htry, hsearched, herrno₁⟩ := tryCap_searched dir cap hrec herrno
    simp only [tryCaps, htry, bind, Except.bind]
    by_cases hfd : fd = -1
    · obtain ⟨fd', any₂, s₂, hrest, hsearched', herrno₂⟩ := ih hsearched.recorded (herrno₁ hfd)
      rw [if_neg (not_not.mpr hfd), hrest]
      exact ⟨fd', any₂, s₂, rfl, hsearched.append_of_none hfd hsearched', herrno₂⟩
    · rw [if_pos hfd]
      exact ⟨fd, any₁, s₁, rfl, hsearched.append_of_found hfd _, fun h => (hfd h).elim⟩

def pathCandidates (caps : List Text) (dirs : List Text) : List Candidate :=
  dirs.flatMap fun dir => caps.map (.path dir)

theorem openDirs_searched (dirs : List Text) (any : Bool)
    (hrec : Recorded fs R.needsSuid name known s) :
    ∃ fd any' s', openDirs fs.kernel fs.disk R name dirs any s = .ok (fd, any', s') ∧
      Searched fs R.needsSuid name known (pathCandidates R.caps dirs) s fd s' := by
  induction dirs generalizing any s with
  | nil => exact ⟨-1, any, s, rfl, .nil hrec⟩
  | cons dir dirs ih =>
    obtain ⟨fd, hereAny, s₁, htry, hsearched, herrno⟩ :=
      tryCaps_searched dir R.caps hrec (fun h : false = true => by cases h)
    simp only [openDirs, htry, bind, Except.bind]
    by_cases hfd : fd = -1
    · obtain ⟨fd', any', s₂, hrest, hsearched'⟩ := ih (any || hereAny) hsearched.recorded
      rw [if_neg (not_not.mpr hfd), if_neg (fun h => h.2.1 (herrno hfd h.1)), hrest]
      exact ⟨fd', any', s₂, rfl, hsearched.append_of_none hfd hsearched'⟩
    · rw [if_pos hfd]
      exact ⟨fd, true, s₁, rfl, hsearched.append_of_found hfd _⟩

end Search

end Outcomes

end AwaitGlibc.LibraryPaths

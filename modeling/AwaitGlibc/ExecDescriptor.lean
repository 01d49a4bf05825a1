import AwaitGlibc.MapObject
import AwaitGlibc.SearchOrder

/-!
# The descriptor of the executable

When the loader is started with a descriptor for the executable, `dl_main` puts
it in a global variable, maps the program, and leaves the variable set. The
descriptor is meant for the program only. But `_dl_map_object` looks at the
variable whenever a name has a slash, and closes the descriptor each time, so
later names are read from whatever file the number then refers to.

A call uses a descriptor by reading from it and closing it; the events of a call
are therefore enough to see which descriptors it used and where it got them.
-/
namespace AwaitGlibc.ExecDescriptor
open CText CheckedArray SystemCalls OpenatPaths LibraryPaths LibrarySearch MapObject SearchOrder

variable {φ : Type} {K : Kernel φ} {D : Disk φ} {I : Images φ}

/-- The world after a call that returns or signals an error. -/
def endWorld : Except (Stop φ) (Option Object × Rtld φ) → Option (World φ)
  | .ok (_, p) => some p.world
  | .error (.signal w _ _ _) => some w
  | .error (.fault _) => none

/-- Between the worlds a descriptor has been closed, and nothing else has
happened. -/
def Consumed (fd : ℤ) (w w' : World φ) : Prop :=
  ∃ es, es ≠ [] ∧ w'.events = w.events ++ es ∧ ∀ e ∈ es, e.request = .close fd

theorem Consumed.trans {fd : ℤ} {w w' w'' : World φ} (h : Consumed fd w w')
    (h' : Consumed fd w' w'') : Consumed fd w w'' := by
  obtain ⟨es, hne, hes, hclose⟩ := h
  obtain ⟨es', -, hes', hclose'⟩ := h'
  refine ⟨es ++ es', by simp [hne], by rw [hes', hes, List.append_assoc], fun e he => ?_⟩
  exact (List.mem_append.mp he).elim (hclose e) (hclose' e)

theorem sysClose_events (w : World φ) (fd : ℤ) :
    (sysClose K w fd).2.events = w.events ++ [⟨.close fd, (sysClose K w fd).1⟩] := by
  unfold sysClose
  split
  · rfl
  · split <;> rfl

theorem sysClose_consumed (w : World φ) (fd : ℤ) : Consumed fd w (sysClose K w fd).2 :=
  ⟨_, by simp, sysClose_events w fd, by simp⟩

theorem mapSegments_consumed (m : MapCall) (fd : ℤ) (f : φ) (realname : Text) (id : FileId)
    (p : Rtld φ) :
    ∃ w, endWorld (mapSegments K I m fd f realname id p) = some w ∧ Consumed fd p.world w := by
  have hclose := sysClose_consumed (K := K) p.world fd
  unfold mapSegments
  split
  · exact ⟨_, rfl, hclose⟩
  · dsimp only
    split_ifs
    · exact ⟨_, rfl, hclose.trans (sysClose_consumed _ fd)⟩
    · exact ⟨_, rfl, hclose⟩

theorem mapObjectFromFd_consumed (m : MapCall) (fd : ℤ) (f : φ) (realname : Text) (p : Rtld φ) :
    ∃ w, endWorld (mapObjectFromFd K I m fd f realname p) = some w ∧ Consumed fd p.world w := by
  have hclose := sysClose_consumed (K := K) p.world fd
  unfold mapObjectFromFd
  by_cases hexec : m.openexec = true
  · split_ifs
    · exact ⟨_, rfl, hclose⟩
    · exact mapSegments_consumed m fd f realname (0, 0) p
  · simp only [if_neg hexec]
    split
    · exact ⟨_, rfl, hclose⟩
    · split
      · exact ⟨_, rfl, hclose⟩
      · split_ifs
        · exact ⟨_, rfl, hclose⟩
        · exact ⟨_, rfl, hclose⟩
        · exact mapSegments_consumed m fd f realname _ p

theorem endWorld_noFile (m : MapCall) (p : Rtld φ) : endWorld (noFile m p) = some p.world := by
  unfold noFile
  split_ifs <;> rfl

/-- A descriptor that `open_verify` is given is handed on, or has been closed. -/
theorem openVerify_given (K : Kernel φ) (D : Disk φ) (path : Text) {fd : ℤ} (hfd : fd ≠ -1)
    (s : Search φ) :
    (∃ f s', openVerify K D path fd s = .ok (fd, s') ∧ s.world.file? fd = some f ∧
        s'.fb = some f ∧ s'.world.events = s.world.events) ∨
      (∃ s', openVerify K D path fd s = .ok (-1, s') ∧ s'.world = discard K s.world fd) ∨
      ∃ errcode errstring, openVerify K D path fd s =
        .error (.signal (sysClose K s.world fd).2 errcode path errstring) := by
  unfold openVerify
  simp only [if_neg hfd]
  cases hfile : s.world.file? fd with
  | none => exact .inr (.inr ⟨_, _, rfl⟩)
  | some f =>
    cases hverdict : D.verdict f with
    | usable =>
      exact .inl ⟨f, { s with world := { s.world with errno := 0 }, fb := some f },
        by simp only [hverdict], rfl, rfl, rfl⟩
    | otherClass =>
      exact .inr (.inl ⟨{ s with
        world := discard K s.world fd, fb := some f, foundOtherClass := true },
        by simp only [hverdict], rfl⟩)
    | unsuitable =>
      exact .inr (.inl ⟨{ s with world := discard K s.world fd, fb := some f },
        by simp only [hverdict], rfl⟩)
    | fatal errval errstring => exact .inr (.inr ⟨errval, errstring, by simp only [hverdict]⟩)

/-- The file stage of a call for a name with a slash, from the descriptor on. -/
def readFrom (K : Kernel φ) (D : Disk φ) (I : Images φ) (m : MapCall) (p : Rtld φ)
    (realname : Text) (fd : ℤ) (s : Search φ) : Except (Stop φ) (Option Object × Rtld φ) := do
  let (fd, s) ← openVerify K D realname fd s
  mapFound K I m fd { p with loader := p.loader.setSearch { s with realname := some realname } }

theorem readFrom_consumed (m : MapCall) (p : Rtld φ) (realname : Text) {fd : ℤ} (hfd : fd ≠ -1)
    (s : Search φ) :
    ∃ w, endWorld (readFrom K D I m p realname fd s) = some w ∧ Consumed fd s.world w := by
  unfold readFrom
  have hclosed := sysClose_consumed (K := K) s.world fd
  rcases openVerify_given K D realname hfd s with
    ⟨f, s', hrun, -, hfb, hevents⟩ | ⟨s', hrun, hworld⟩ | ⟨errcode, errstring, hrun⟩
  · simp only [hrun, bind, Except.bind]
    rw [mapFound_of_file hfd hfb rfl]
    obtain ⟨w, hw, es, hne, hes, hclose⟩ := mapObjectFromFd_consumed (K := K) (I := I) m fd f
      realname { p with loader := p.loader.setSearch { s' with realname := some realname } }
    exact ⟨w, hw, es, hne, hes.trans (congrArg (· ++ es) hevents), hclose⟩
  · simp only [hrun, bind, Except.bind, mapFound, if_true, endWorld_noFile]
    refine ⟨_, rfl, ?_⟩
    rw [hworld]
    exact hclosed
  · simp only [hrun, bind, Except.bind]
    exact ⟨_, rfl, hclosed⟩

section Call
variable {m : MapCall} {p : Rtld φ}

/-- The call gets as far as reading a file: no loaded object has the name, and
its tokens can be expanded. -/
def NeedsFile (m : MapCall) (p : Rtld φ) : Prop :=
  updateFirst (acceptName m.name) (p.loaded m.nsid) = none ∧ m.realname ≠ none

def givenFd (p : Rtld φ) : ℤ := if 0 < p.execFd then p.execFd else -1

theorem mapObject_of_needsFile (hslash : '/' ∈ m.name)
    (hnew : updateFirst (acceptName m.name) (p.loaded m.nsid) = none) {realname : Text}
    (hname : m.realname = some realname) :
    mapObject K D I m p =
      readFrom K D I m p realname (givenFd p) (freshSearch p.loader.search) := by
  simp only [mapObject, hnew, findFile, not_not.mpr hslash, if_false, hname, readFrom, givenFd]
  rw [bind_assoc]
  rfl

theorem endWorld_of_not_needsFile (hslash : '/' ∈ m.name) (h : ¬ NeedsFile m p) :
    endWorld (mapObject K D I m p) = some p.world := by
  unfold mapObject
  cases hloaded : updateFirst (acceptName m.name) (p.loaded m.nsid) with
  | some r => rfl
  | none =>
    have hname : m.realname = none := by
      by_contra hne
      exact h ⟨hloaded, hne⟩
    simp only [findFile, not_not.mpr hslash, if_false, hname, bind, Except.bind, mapFound,
      if_true, endWorld_noFile]
    rfl

def newEvents (w w' : World φ) : List Event := w'.events.drop w.events.length

theorem newEvents_of_append {w w' : World φ} {es : List Event} (h : w'.events = w.events ++ es) :
    newEvents w w' = es := by
  rw [newEvents, h, List.drop_left]

/-- The file that a call maps is the one the kernel gives out for the expanded
name, and the call closes only descriptors that it got by opening that name. -/
structure ReadsByName (K : Kernel φ) (D : Disk φ) (I : Images φ) (m : MapCall) (p : Rtld φ) :
    Prop where
  file : updateFirst (acceptName m.name) (p.loaded m.nsid) = none →
    ∀ fd σ, findFile K D m p = .ok (fd, σ) → fd ≠ -1 → ∃ realname f, m.realname = some realname ∧
      openPathAnswer K p.world realname (oRdonly ||| oCloexec) none = .ok f ∧
      σ.search.fb = some f ∧ σ.search.realname = some realname
  descriptors : ∃ w, endWorld (mapObject K D I m p) = some w ∧
    ∀ pre d v post, newEvents p.world w = pre ++ ⟨.close d, v⟩ :: post →
      ∃ realname, m.realname = some realname ∧ ⟨pathRequest realname, d⟩ ∈ pre

section
variable (hslash : '/' ∈ m.name)
include hslash

theorem not_readsByName_of_given (hexec : 0 < p.execFd)
    (h : NeedsFile m p) : ¬ ReadsByName K D I m p := by
  rintro ⟨-, w, hw, hown⟩
  obtain ⟨realname, hname⟩ := Option.ne_none_iff_exists'.mp h.2
  have hgiven : givenFd p = p.execFd := if_pos hexec
  obtain ⟨w', hw', es, hne, hes, hclose⟩ := readFrom_consumed (K := K) (D := D) (I := I) m p
    realname (show p.execFd ≠ -1 by omega) (freshSearch p.loader.search)
  rw [mapObject_of_needsFile hslash h.1 hname, hgiven, hw'] at hw
  cases hw
  obtain ⟨e, es, rfl⟩ := List.exists_cons_of_ne_nil hne
  have hfirst : newEvents p.world w = [] ++ ⟨.close p.execFd, e.result⟩ :: es := by
    rw [List.nil_append, ← hclose e List.mem_cons_self]
    exact newEvents_of_append hes
  obtain ⟨_, -, hmem⟩ := hown _ _ _ _ hfirst
  cases hmem

theorem readsByName_of_not_needsFile (h : ¬ NeedsFile m p) : ReadsByName K D I m p := by
  refine ⟨fun hnew fd σ hfind hfd => ?_, p.world, endWorld_of_not_needsFile hslash h, ?_⟩
  · have hname : m.realname = none := by
      by_contra hne
      exact h ⟨hnew, hne⟩
    simp only [findFile, not_not.mpr hslash, if_false, hname] at hfind
    cases hfind
    exact (hfd rfl).elim
  · intro pre d v post hevents
    rw [newEvents, List.drop_length] at hevents
    simp at hevents

/-- Without the descriptor of an executable every file is opened by its name. -/
theorem readsByName_of_opened (hexec : p.execFd ≤ 0)
    (h : NeedsFile m p) : ReadsByName K D I m p := by
  obtain ⟨realname, hname⟩ := Option.ne_none_iff_exists'.mp h.2
  have hgiven : givenFd p = -1 := if_neg (by omega)
  have hmap := mapObject_of_needsFile (K := K) (D := D) (I := I) hslash h.1 hname
  have hfind : findFile K D m p = (do
      let (fd, s) ← openVerify K D realname (-1) (freshSearch p.loader.search)
      return (fd, p.loader.setSearch { s with realname := some realname })) := by
    simp only [findFile, not_not.mpr hslash, if_false, hname, if_neg (not_lt.mpr hexec)]
  rw [hgiven] at hmap
  cases hanswer : openPathAnswer K p.world realname (oRdonly ||| oCloexec) none with
  | error e =>
    have hverify := openVerify_refused (D := D) (s := freshSearch p.loader.search) hanswer
    refine ⟨fun _ fd σ hfd hne => ?_, (p.world.fail (pathRequest realname) e).2, ?_, ?_⟩
    · rw [hfind, hverify] at hfd
      cases hfd
      exact (hne rfl).elim
    · rw [hmap]
      simp only [readFrom, hverify, bind, Except.bind, mapFound, if_true, endWorld_noFile]
      rfl
    · intro pre d v post hevents
      rw [newEvents_of_append rfl] at hevents
      rcases pre with _ | ⟨e', pre⟩
      · cases hevents
      · simp at hevents
  | ok f =>
    have hfd : (lowestFree p.world.fds : ℤ) ≠ -1 := by omega
    have hverify := openVerify_opened (D := D) (s := freshSearch p.loader.search) hanswer
    obtain ⟨w, hw, es, -, hes, hclose⟩ := readFrom_consumed (K := K) (D := D) (I := I) m p
      realname hfd { freshSearch p.loader.search with
        world := (p.world.opened (pathRequest realname) f).2 }
    refine ⟨fun _ fd σ hrun hne => ⟨realname, f, hname, hanswer, ?_⟩, w, ?_, ?_⟩
    · rw [hfind, hverify] at hrun
      rcases openVerify_given K D realname hfd { freshSearch p.loader.search with
          world := (p.world.opened (pathRequest realname) f).2 } with
        ⟨f', s', hok, hfile, hfb, -⟩ | ⟨s', hok, -⟩ | ⟨errcode, errstring, herr⟩
      · rw [show (freshSearch p.loader.search).world = p.world from rfl, hok] at hrun
        cases hrun
        have hsame : (p.world.opened (pathRequest realname) f).2.file? (lowestFree p.world.fds) =
            some f := (opened_file? _ _ f _).trans (if_pos rfl)
        cases hsame.symm.trans hfile
        exact ⟨hfb, rfl⟩
      · rw [show (freshSearch p.loader.search).world = p.world from rfl, hok] at hrun
        cases hrun
        exact (hne rfl).elim
      · rw [show (freshSearch p.loader.search).world = p.world from rfl, herr] at hrun
        cases hrun
    · rw [hmap, readFrom, hverify]
      exact hw
    · have hall : w.events = p.world.events ++ (⟨pathRequest realname, lowestFree p.world.fds⟩ :: es) := by
        rw [hes]
        simp [World.opened]
      intro pre d v post hevents
      rw [newEvents_of_append hall] at hevents
      rcases pre with _ | ⟨e, pre⟩
      · cases hevents
      · rw [List.cons_append, List.cons.injEq] at hevents
        have hd := hclose ⟨.close d, v⟩ (by rw [hevents.2]; simp)
        cases hd
        exact ⟨realname, hname, by rw [hevents.1]; exact List.mem_cons_self⟩

/-- Names are honoured by a call exactly when no descriptor of an executable
stands in the way or no file is needed. -/
theorem readsByName_step_iff : ReadsByName K D I m p ↔ (NeedsFile m p → p.execFd ≤ 0) := by
  constructor
  · intro h hneeds
    by_contra hexec
    exact not_readsByName_of_given hslash (not_le.mp hexec) hneeds h
  · intro h
    by_cases hneeds : NeedsFile m p
    · exact readsByName_of_opened hslash (h hneeds) hneeds
    · exact readsByName_of_not_needsFile hslash hneeds

end

end Call

section Success
variable {m : MapCall} {o : Option Object} {p p' : Rtld φ}

theorem mapSegments_ok {fd : ℤ} {f : φ} {realname : Text} {id : FileId}
    (h : mapSegments K I m fd f realname id p = .ok (o, p')) :
    p'.world = (sysClose K p.world fd).2 ∧ p'.execFd = p.execFd := by
  unfold mapSegments at h
  split at h
  · cases h
  · dsimp only at h
    split_ifs at h
    · cases h
    · cases h
      exact ⟨rfl, rfl⟩

theorem mapObjectFromFd_ok {fd : ℤ} {f : φ} {realname : Text}
    (h : mapObjectFromFd K I m fd f realname p = .ok (o, p')) :
    p'.world = (sysClose K p.world fd).2 ∧ p'.execFd = p.execFd := by
  unfold mapObjectFromFd at h
  by_cases hexec : m.openexec = true
  · split_ifs at h
    · cases h
      exact ⟨rfl, rfl⟩
    · exact mapSegments_ok h
  · simp only [if_neg hexec] at h
    split at h
    · cases h
    · split at h
      · cases h
        exact ⟨rfl, rfl⟩
      · split_ifs at h
        · cases h
          exact ⟨rfl, rfl⟩
        · cases h
          exact ⟨rfl, rfl⟩
        · exact mapSegments_ok h

theorem noFile_ok (h : noFile m p = .ok (o, p')) :
    p'.world = p.world ∧ p'.execFd = p.execFd := by
  unfold noFile at h
  split_ifs at h
  · cases h
    exact ⟨rfl, rfl⟩

theorem mapFound_ok {fd : ℤ} (h : mapFound K I m fd p = .ok (o, p')) :
    p'.world = (if fd = -1 then p.world else (sysClose K p.world fd).2) ∧
      p'.execFd = p.execFd := by
  unfold mapFound at h
  split_ifs at h ⊢
  · exact noFile_ok h
  · split at h
    · exact mapObjectFromFd_ok h
    · cases h

theorem mapObject_execFd (h : mapObject K D I m p = .ok (o, p')) : p'.execFd = p.execFd := by
  unfold mapObject at h
  split at h
  · cases h
    rfl
  · obtain ⟨r, -, h⟩ := ok_of_bind h
    exact (mapFound_ok h).2

/-- With the descriptor of an executable, a call that succeeds does no more than
close it once. -/
theorem newEvents_length_of_ok (hslash : '/' ∈ m.name) (hexec : 0 < p.execFd)
    (h : mapObject K D I m p = .ok (o, p')) : (newEvents p.world p'.world).length ≤ 1 := by
  by_cases hneeds : NeedsFile m p
  · obtain ⟨realname, hname⟩ := Option.ne_none_iff_exists'.mp hneeds.2
    have hgiven : givenFd p = p.execFd := if_pos hexec
    have hfd : p.execFd ≠ -1 := by omega
    rw [mapObject_of_needsFile hslash hneeds.1 hname, hgiven, readFrom] at h
    rcases openVerify_given K D realname hfd (freshSearch p.loader.search) with
      ⟨f, s', hrun, -, -, hevents⟩ | ⟨s', hrun, hworld⟩ | ⟨errcode, errstring, hrun⟩
    · simp only [hrun, bind, Except.bind] at h
      have hone := (mapFound_ok h).1
      rw [if_neg hfd] at hone
      have hclose := sysClose_events (K := K) s'.world p.execFd
      rw [hevents] at hclose
      have hall := newEvents_of_append ((congrArg World.events hone).trans hclose)
      exact (congrArg List.length hall).le
    · simp only [hrun, bind, Except.bind] at h
      have hone := (mapFound_ok h).1
      have hclose := (congrArg World.events hworld).trans (sysClose_events _ _)
      have hall := newEvents_of_append ((congrArg World.events hone).trans hclose)
      exact (congrArg List.length hall).le
    · rw [hrun] at h
      cases h
  · have hsame := endWorld_of_not_needsFile (K := K) (D := D) (I := I) hslash hneeds
    rw [h] at hsame
    rw [Option.some.inj hsame, newEvents, List.drop_length]
    exact Nat.zero_le 1

end Success

section Run
variable (K D I)

/-- The state in which the process goes on: errors are caught by the callers. -/
def goOn (p : Rtld φ) : Except (Stop φ) (Option Object × Rtld φ) → Rtld φ
  | .ok (_, p') => p'
  | .error (.signal w _ _ _) => p.setWorld w
  | .error (.fault _) => p

/-- A later call. Before it the process may do anything except set the variable,
which only `dl_main` does. -/
structure Later (φ : Type) where
  call : MapCall
  slash : '/' ∈ call.name
  between : Rtld φ → Rtld φ
  keeps : ∀ p, (between p).execFd = p.execFd

def Always (P : MapCall → Rtld φ → Prop) : List (Later φ) → Rtld φ → Prop
  | [], _ => True
  | l :: ls, p =>
    P l.call (l.between p) ∧
      Always P ls (goOn (l.between p) (mapObject K D I l.call (l.between p)))

variable {K D I}

theorem goOn_execFd (l : Later φ) (p : Rtld φ) :
    (goOn (l.between p) (mapObject K D I l.call (l.between p))).execFd = p.execFd := by
  rw [← l.keeps p]
  cases h : mapObject K D I l.call (l.between p) with
  | ok r => exact mapObject_execFd h
  | error e => cases e <;> rfl

/-- In a run with the descriptor of an executable, names are honoured as long as
no call needs a file. -/
theorem always_readsByName_iff {p : Rtld φ} (hexec : 0 < p.execFd) (ls : List (Later φ)) :
    Always K D I (ReadsByName K D I) ls p ↔ Always K D I (fun m p => ¬ NeedsFile m p) ls p := by
  induction ls generalizing p with
  | nil => exact Iff.rfl
  | cons l ls ih =>
    have hbetween : 0 < (l.between p).execFd := by rwa [l.keeps]
    have hnext : 0 < (goOn (l.between p) (mapObject K D I l.call (l.between p))).execFd := by
      rwa [goOn_execFd]
    rw [Always, Always, ih hnext, readsByName_step_iff l.slash]
    refine and_congr_left fun _ => ?_
    constructor
    · intro h hneeds
      exact absurd (h hneeds) (not_le.mpr hbetween)
    · intro h hneeds
      exact (h hneeds).elim

/-- A run started with the descriptor `fd` of the executable: the program is
mapped, with at most one use of the descriptor, and then names are honoured
exactly when no later call needs a file. -/
theorem run_readsByName_iff {fd : ℤ} (hfd : 0 < fd) {main : MapCall} {p p₁ : Rtld φ}
    {o : Option Object} (hmain : mapObject K D I main { p with execFd := fd } = .ok (o, p₁))
    (ls : List (Later φ)) :
    (('/' ∈ main.name →
        ((newEvents p.world p₁.world).filter (·.request = .close fd)).length ≤ 1) ∧
      Always K D I (ReadsByName K D I) ls p₁) ↔
      Always K D I (fun m p => ¬ NeedsFile m p) ls p₁ := by
  have hexec : 0 < p₁.execFd := by rwa [mapObject_execFd hmain]
  rw [always_readsByName_iff hexec, and_iff_right_iff_imp]
  intro _ hslash
  have honce := newEvents_length_of_ok (p := { p with execFd := fd }) hslash hfd hmain
  exact (List.length_filter_le _ _).trans honce

end Run

section Started

def plainImages : Images ℕ where
  fileId f := .ok (1, f)
  load _ _ := .ok none

def mapProgram : MapCall where
  call := { callFrom none none with chain := [], chain_nodup := by decide }
  name := ['/', 'p']
  expand := some
  nsid := 0
  openexec := true
  noload := false
  traceMode := false

def mapLibrary : MapCall where
  call := callFrom none none
  name := ['/', 'r', '/', 'x']
  expand := some
  nsid := 0
  openexec := false
  noload := false
  traceMode := false

/-- Descriptors 0 to 3 are open and nothing is loaded. -/
def started : Rtld ℕ where
  loader := firstSearch
  loaded _ := []
  rtldMap := ⟨[], [], none, false, false, false, (1, 9)⟩
  openatPaths := none
  execFd := 0

/-- The library has been loaded by other means before it is asked for by path. -/
def afterLoading : Later ℕ where
  call := mapLibrary
  slash := by decide
  between p := p.addToNamespace 0 ⟨['/', 'r', '/', 'x'], [], none, false, false, false, (1, 2)⟩
  keeps _ := rfl

/-- The program has opened a file, which got the number of the executable. -/
def afterOpening : Later ℕ where
  call := mapLibrary
  slash := by decide
  between p := p.setWorld (p.world.opened (pathRequest ['/', 'd']) 7).2
  keeps _ := rfl

theorem loaded_library_readsByName :
    ∃ o p₁, mapObject twoCopies.kernel twoCopies.disk plainImages mapProgram
        { started with execFd := 3 } = .ok (o, p₁) ∧
      ('/' ∈ mapProgram.name →
        ((newEvents started.world p₁.world).filter (·.request = .close 3)).length ≤ 1) ∧
      Always twoCopies.kernel twoCopies.disk plainImages
        (ReadsByName twoCopies.kernel twoCopies.disk plainImages) [afterLoading] p₁ := by
  refine ⟨_, _, rfl, (run_readsByName_iff (by decide) rfl [afterLoading]).mpr ⟨?_, trivial⟩⟩
  exact fun h => absurd h.1 (by decide +kernel)

/-- `/r/x` is not opened: the file the program has on descriptor 3 is taken for
it, and closed. -/
theorem library_read_from_exec_descriptor :
    ∃ o p₁, mapObject twoCopies.kernel twoCopies.disk plainImages mapProgram
        { started with execFd := 3 } = .ok (o, p₁) ∧
      ¬ (('/' ∈ mapProgram.name →
          ((newEvents started.world p₁.world).filter (·.request = .close 3)).length ≤ 1) ∧
        Always twoCopies.kernel twoCopies.disk plainImages
          (ReadsByName twoCopies.kernel twoCopies.disk plainImages) [afterOpening] p₁) := by
  refine ⟨_, _, rfl, fun h => ?_⟩
  exact not_readsByName_of_given afterOpening.slash (by decide +kernel)
    ⟨by decide +kernel, by decide⟩ h.2.1

end Started

end AwaitGlibc.ExecDescriptor

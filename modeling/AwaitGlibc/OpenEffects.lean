import AwaitGlibc.Open64

/-!
# What `open64` leaves behind

Two effects of the modified function outlive it. One is `errno`: without any
`PREOPEN_*` variable the function differs from the plain open by the close of a
log descriptor that does not exist. The other is the descriptor table: the log
descriptor has two origins and the function two returns, and only two of the
four combinations treat it as it deserves. The descriptor
borrowed from `PREOPEN_DEBUG_FD` is closed on the way through `openat`; the one
opened from `PREOPEN_DEBUG_FILE` stays open when `preopen` answers.
-/
namespace AwaitGlibc.OpenEffects
open CText CheckedArray SystemCalls PreopenPaths PreopenLists Preopen Open64

section Errno
variable {φ : Type} (K : Kernel φ) (env : Env)

/-- The single call a plain `open64` makes. -/
def plainRequest (file : Text) (oflag : Flags) (modeArg : ℤ) : Request :=
  .openat atFdcwd (some file) (oflag ||| oLargefile) (some (openMode oflag modeArg))

def plainAnswer (file : Text) (oflag : Flags) (modeArg : ℤ) (w : World φ) : Except Errno φ :=
  openatAnswer K w atFdcwd (some file) (oflag ||| oLargefile) (some (openMode oflag modeArg))

def plainOpen (file : Text) (oflag : Flags) (modeArg : ℤ) (w : World φ) : ℤ × World φ :=
  w.answer (plainRequest file oflag modeArg) (plainAnswer K file oflag modeArg w)

def errnoLeft (w : World φ) : Except Errno φ → Errno
  | .error e => e
  | .ok _ => w.errno

/-- The caller cannot tell the function from the plain open: the value, the
`errno`, the only open among the calls and the descriptor table are the same. -/
structure ObservesPlainOpen (file : Text) (oflag : Flags) (modeArg : ℤ) (w : World φ)
    (fd : ℤ) (w' : World φ) : Prop where
  value : fd = (plainOpen K file oflag modeArg w).1
  errno : w'.errno = (plainOpen K file oflag modeArg w).2.errno
  opens : w'.events.filter (isOpen ·.request) =
    w.events.filter (isOpen ·.request) ++ [⟨plainRequest file oflag modeArg, fd⟩]
  table : ∀ n, w'.file? n = (plainOpen K file oflag modeArg w).2.file? n
  frame : ∀ n, n ≠ fd → w'.file? n = w.file? n

/-- Without variables the function is the plain open followed by `close (-1)`. -/
theorem libcOpen64_of_unset {env : Env} (h : ∀ v, env v = none) (file : Text) (oflag : Flags)
    (modeArg : ℤ) (w : World φ) :
    libcOpen64 K env file oflag modeArg w =
      .ok ((plainOpen K file oflag modeArg w).1,
        ((plainOpen K file oflag modeArg w).2.fail (.close (-1)) ebadf).2) := by
  have hlog : getDebugFd K env w = (-1, w) := by simp [getDebugFd, debugFdSetting, h]
  have hpre : preopen K env file oflag (openMode oflag modeArg) w = .ok (-1, w) := by
    simp [preopen, preopenFile, preopenFromDir, readLists, h, bind, Except.bind, pure,
      Except.pure]
  have hdebug : ∀ (tag : Text) (fd : ℤ) (w : World φ),
      debugLog K (-1) tag file fd w = .ok w := fun tag fd w => rfl
  have hclose : ∀ w : World φ, sysClose K w (-1) = w.fail (.close (-1)) ebadf :=
    fun w => sysClose_of_not_open (World.file?_neg (by decide))
  simp only [libcOpen64, hlog, hpre, hdebug, hclose, bind, Except.bind, pure, Except.pure]
  rfl

variable (file : Text) (oflag : Flags) (modeArg : ℤ) (w : World φ)

theorem plainOpen_errno :
    (plainOpen K file oflag modeArg w).2.errno =
      errnoLeft w (plainAnswer K file oflag modeArg w) := by
  unfold plainOpen
  cases plainAnswer K file oflag modeArg w <;> rfl

theorem plainOpen_events :
    (plainOpen K file oflag modeArg w).2.events =
      w.events ++ [⟨plainRequest file oflag modeArg, (plainOpen K file oflag modeArg w).1⟩] := by
  unfold plainOpen
  cases plainAnswer K file oflag modeArg w <;> rfl

theorem plainOpen_frame (n : ℤ) (hn : n ≠ (plainOpen K file oflag modeArg w).1) :
    (plainOpen K file oflag modeArg w).2.file? n = w.file? n :=
  World.file?_answer_of_ne hn

/-- With no `PREOPEN_*` variable the function passes for the plain open exactly
when the `errno` left by `openat` is the one that `close (-1)` puts there. -/
theorem observesPlainOpen_iff (h : ∀ v, env v = none) (file : Text) (oflag : Flags)
    (modeArg : ℤ) (w : World φ) :
    (∃ fd w', libcOpen64 K env file oflag modeArg w = .ok (fd, w') ∧
        ObservesPlainOpen K file oflag modeArg w fd w') ↔
      errnoLeft w (plainAnswer K file oflag modeArg w) = ebadf := by
  rw [libcOpen64_of_unset K h]
  constructor
  · rintro ⟨fd, w', hrun, hobs⟩
    cases hrun
    rw [← plainOpen_errno]
    exact hobs.errno.symm
  · intro he
    refine ⟨_, _, rfl, rfl, ?_, ?_, fun n => rfl, ?_⟩
    · rw [plainOpen_errno, he]
      rfl
    · change ((plainOpen K file oflag modeArg w).2.events ++ [_]).filter _ = _
      simp only [plainOpen_events, List.filter_append]
      simp [isOpen, plainRequest]
    · exact plainOpen_frame K file oflag modeArg w

theorem observesPlainOpen_ebadf :
    (∀ v, (fun _ => none : Env) v = none) ∧
      ∃ fd w', libcOpen64 (refusing ebadf) (fun _ => none) ['/', 'x'] 0 0 startWorld =
          .ok (fd, w') ∧
        ObservesPlainOpen (refusing ebadf) ['/', 'x'] 0 0 startWorld fd w' :=
  ⟨fun _ => rfl,
    (observesPlainOpen_iff (refusing ebadf) (fun _ => none) (fun _ => rfl) ['/', 'x'] 0 0
      startWorld).mpr rfl⟩

/-- Opening a missing file reports `EBADF` where the kernel said `ENOENT`. -/
theorem missing_file_reports_ebadf :
    ¬ ∃ fd w', libcOpen64 (refusing enoent) (fun _ => none) ['/', 'x'] 0 0 startWorld =
        .ok (fd, w') ∧
      ObservesPlainOpen (refusing enoent) ['/', 'x'] 0 0 startWorld fd w' := by
  rintro ⟨fd, w', hrun, hobs⟩
  cases hrun
  have he := hobs.errno
  revert he
  decide

end Errno

section Descriptors
variable {φ : Type} (K : Kernel φ) (env : Env)

structure OpenCall where
  file : Text
  oflag : Flags
  modeArg : ℤ
deriving DecidableEq, Repr

def logFile (w : World φ) : Option φ :=
  match debugFdSetting env, env .debugFile with
  | none, some path => (openPathAnswer K w path logFlags (some logMode)).toOption
  | _, _ => none

/-- Nothing open is closed or replaced, and only `fd` may be new. -/
def GrowsBy (fd : ℤ) (w w' : World φ) : Prop :=
  (∀ n f, w.file? n = some f → w'.file? n = some f) ∧
    ∀ n, w'.file? n ≠ none → w.file? n ≠ none ∨ n = fd

/-- A log file opened by the call is closed when it returns. -/
def ReleasesLog (w w' : World φ) : Prop :=
  (logFile K env w).isSome → w'.file? (lowestFree w.fds) = none

/-- `preopen` has a positive descriptor for the call: a listed file, or a file
it can open through a listed directory while descriptor 0 is taken. -/
def Answers (c : OpenCall) (w : World φ) : Prop :=
  0 < fileAnswer K env c.file (getDebugFd K env w).2.events ∨
    (dirOpens K env c.file c.oflag (openMode c.oflag c.modeArg) (getDebugFd K env w).2).isSome ∧
      (getDebugFd K env w).2.file? 0 ≠ none

/-- The combinations of log descriptor and return path that do no harm: a
borrowed descriptor needs an answer of `preopen`, an opened one the way through
`openat`, and without either `preopen` must not be handed descriptor 0. -/
def Harmless (c : OpenCall) (w : World φ) : Prop :=
  match debugFdSetting env with
  | some _ => Answers K env c w
  | none =>
    if (logFile K env w).isSome then ¬ Answers K env c w
    else (dirOpens K env c.file c.oflag (openMode c.oflag c.modeArg)
        (getDebugFd K env w).2).isSome → w.file? 0 ≠ none

instance (c : OpenCall) (w : World φ) : Decidable (Answers K env c w) :=
  inferInstanceAs (Decidable (_ ∨ _ ∧ _))

instance (c : OpenCall) (w : World φ) : Decidable (Harmless K env c w) :=
  match h : debugFdSetting env with
  | some _ => decidable_of_iff (Answers K env c w) (by simp only [Harmless, h])
  | none =>
    decidable_of_iff
      (if (logFile K env w).isSome then ¬ Answers K env c w
        else (dirOpens K env c.file c.oflag (openMode c.oflag c.modeArg)
          (getDebugFd K env w).2).isSome → w.file? 0 ≠ none)
      (by simp only [Harmless, h])

theorem getDebugFd_fst (w : World φ) :
    (getDebugFd K env w).1 =
      match debugFdSetting env with
      | some n => n
      | none => match logFile K env w with | some _ => (lowestFree w.fds : ℤ) | none => -1 := by
  unfold getDebugFd logFile
  cases debugFdSetting env with
  | some n => rfl
  | none =>
    cases env .debugFile with
    | none => rfl
    | some path =>
      simp only [sysOpen, World.fst_answer]
      cases openPathAnswer K w path logFlags (some logMode) <;> rfl

theorem getDebugFd_fds (w : World φ) :
    (getDebugFd K env w).2.fds = installed w.fds (logFile K env w) := by
  unfold getDebugFd logFile
  cases debugFdSetting env with
  | some n => rfl
  | none =>
    cases env .debugFile with
    | none => rfl
    | some path =>
      simp only [sysOpen]
      cases openPathAnswer K w path logFlags (some logMode) <;> rfl

/-- The state between the log descriptor and the first log line. -/
def asked (c : OpenCall) (w : World φ) : ℤ × World φ :=
  preopenAnswer K env c.file c.oflag (openMode c.oflag c.modeArg) (getDebugFd K env w).2

theorem asked_pos_iff (c : OpenCall) (w : World φ) :
    0 < (asked K env c w).1 ↔ Answers K env c w := by
  unfold asked Answers
  rw [preopenAnswer_fst]
  have hzero : (getDebugFd K env w).2.file? 0 ≠ none ↔ lowestFree (getDebugFd K env w).2.fds ≠ 0 :=
    not_congr (lowestFree_eq_zero_iff _).symm
  rw [hzero]
  by_cases hfile : 0 < fileAnswer K env c.file (getDebugFd K env w).2.events
  · simp only [hfile, if_true, true_or]
  · simp only [hfile, if_false, false_or]
    cases dirOpens K env c.file c.oflag (openMode c.oflag c.modeArg) (getDebugFd K env w).2 with
    | none => simp
    | some f =>
      by_cases h₀ : lowestFree (getDebugFd K env w).2.fds = 0
      · simp [h₀]
      · simp [h₀, Nat.pos_of_ne_zero h₀]

theorem openResult_of_answers {c : OpenCall} {w : World φ} (h : Answers K env c w) :
    (openResult K env c.file c.oflag c.modeArg w).1 = (asked K env c w).1 ∧
      (openResult K env c.file c.oflag c.modeArg w).2.fds = (asked K env c w).2.fds := by
  have hpos := (asked_pos_iff K env c w).mpr h
  unfold asked at *
  simp only [openResult, if_pos hpos, logged_fds, and_self]

theorem openResult_of_not_answers {c : OpenCall} {w : World φ} (h : ¬ Answers K env c w) :
    ∃ opened : Option φ,
      (openResult K env c.file c.oflag c.modeArg w).1 =
        (match opened with
        | none => -1
        | some _ => (lowestFree (asked K env c w).2.fds : ℤ)) ∧
      ∀ n, (openResult K env c.file c.oflag c.modeArg w).2.file? n =
        if n = (getDebugFd K env w).1 then none
        else file? (installed (asked K env c w).2.fds opened) n := by
  have hneg := mt (asked_pos_iff K env c w).mp h
  unfold asked at *
  generalize hpre : preopenAnswer K env c.file c.oflag (openMode c.oflag c.modeArg)
    (getDebugFd K env w).2 = pre at *
  refine ⟨(openatAnswer K (logged K (getDebugFd K env w).1 preopenTag c.file pre.1 pre.2) atFdcwd
    (some c.file) (c.oflag ||| oLargefile) (some (openMode c.oflag c.modeArg))).toOption,
    ?_, fun n => ?_⟩
  · simp only [openResult, hpre, if_neg hneg, sysOpenat, World.fst_answer, logged_fds]
    cases openatAnswer K (logged K (getDebugFd K env w).1 preopenTag c.file pre.1 pre.2) atFdcwd
      (some c.file) (c.oflag ||| oLargefile) (some (openMode c.oflag c.modeArg)) <;> rfl
  · simp only [openResult, hpre, if_neg hneg, sysClose_file?, sysOpenat]
    simp only [World.file?, World.fds_answer, logged_fds]

theorem asked_fds (c : OpenCall) (w : World φ) :
    (asked K env c w).2.fds = installed (getDebugFd K env w).2.fds
      (dirOpens K env c.file c.oflag (openMode c.oflag c.modeArg) (getDebugFd K env w).2) :=
  preopenAnswer_fds K env c.file c.oflag _ _

theorem GrowsBy.of_installed {w w' : World φ} {fd : ℤ} {opened : Option φ}
    (hfds : w'.fds = installed w.fds opened) (hfd : opened.isSome → fd = lowestFree w.fds) :
    GrowsBy fd w w' := by
  unfold GrowsBy World.file?
  rw [hfds]
  refine ⟨fun n f h => file?_installed_of_some h opened, fun n h => ?_⟩
  exact (file?_installed_ne_none h).imp_right fun hn => hn.2.trans (hfd hn.1).symm

section OneCall
variable {K env} {c : OpenCall} {w : World φ}

theorem not_fileAnswer_of_dirOpens {mode : ℤ}
    (h : (dirOpens K env c.file c.oflag mode (getDebugFd K env w).2).isSome) :
    ¬ 0 < fileAnswer K env c.file (getDebugFd K env w).2.events := by
  intro hfile
  rw [dirOpens, if_pos hfile] at h
  cases h

/-- Without a log file of its own, a call that `preopen` answers is harmless. -/
theorem growsBy_of_answers (hlog : logFile K env w = none) (h : Answers K env c w) :
    GrowsBy (openResult K env c.file c.oflag c.modeArg w).1 w
      (openResult K env c.file c.oflag c.modeArg w).2 := by
  obtain ⟨hfd, hres⟩ := openResult_of_answers K env h
  have hfds : (getDebugFd K env w).2.fds = w.fds := by rw [getDebugFd_fds, hlog, installed]
  rw [asked_fds, hfds] at hres
  refine GrowsBy.of_installed hres (fun hsome => ?_)
  have hfile := not_fileAnswer_of_dirOpens hsome
  have hne : lowestFree (getDebugFd K env w).2.fds ≠ 0 :=
    mt (lowestFree_eq_zero_iff _).mp (h.resolve_left hfile).2
  obtain ⟨f, hf⟩ := Option.isSome_iff_exists.mp hsome
  rw [hfd, asked, preopenAnswer_fst, if_neg hfile, hf]
  rw [if_neg hne, hfds]

/-- A log file opened by the call survives an answer of `preopen`. -/
theorem log_open_of_answers {f : φ} (hlog : logFile K env w = some f) (h : Answers K env c w) :
    (openResult K env c.file c.oflag c.modeArg w).2.file? (lowestFree w.fds) = some f := by
  rw [World.file?, (openResult_of_answers K env h).2, asked_fds, getDebugFd_fds, hlog]
  exact file?_installed_of_some ((file?_install _ _ _).trans (if_pos rfl)) _

/-- On the way through `openat` the log file is closed and nothing else is lost. -/
theorem growsBy_of_not_answers_log {f : φ} (hset : debugFdSetting env = none)
    (hlog : logFile K env w = some f) (h : ¬ Answers K env c w) :
    GrowsBy (openResult K env c.file c.oflag c.modeArg w).1 w
        (openResult K env c.file c.oflag c.modeArg w).2 ∧
      (openResult K env c.file c.oflag c.modeArg w).2.file? (lowestFree w.fds) = none := by
  have hfd : (getDebugFd K env w).1 = lowestFree w.fds := by
    simp only [getDebugFd_fst, hset, hlog]
  have hfds : (getDebugFd K env w).2.fds = install w.fds f := by
    rw [getDebugFd_fds, hlog, installed]
  -- the log has taken descriptor 0 if that was free
  have hzero : (getDebugFd K env w).2.file? 0 ≠ none := by
    rw [World.file?, hfds, file?_install]
    split_ifs with h₀
    · exact Option.some_ne_none f
    · exact mt (lowestFree_eq_zero_iff w.fds).mpr (fun e => h₀ (by rw [e]; rfl))
  have hdir : dirOpens K env c.file c.oflag (openMode c.oflag c.modeArg)
      (getDebugFd K env w).2 = none := by
    by_contra hne
    exact h (.inr ⟨Option.isSome_iff_ne_none.mpr hne, hzero⟩)
  obtain ⟨opened, hres, htable⟩ := openResult_of_not_answers K env h
  rw [asked_fds, hdir, installed, hfds] at hres htable
  rw [hfd] at htable
  refine ⟨⟨fun n g hn => ?_, fun n hn => ?_⟩, (htable _).trans (if_pos rfl)⟩
  · have hne : n ≠ lowestFree w.fds := by
      rintro rfl
      rw [World.file?, file?_lowestFree] at hn
      cases hn
    rw [htable, if_neg hne]
    exact file?_installed_of_some ((file?_install _ _ _).trans ((if_neg hne).trans hn)) _
  · rw [htable] at hn
    have hne : n ≠ lowestFree w.fds := fun e => hn (if_pos e)
    rw [if_neg hne] at hn
    rcases file?_installed_ne_none hn with hold | ⟨hsome, hnew⟩
    · rw [file?_install, if_neg hne] at hold
      exact .inl hold
    · obtain ⟨g, rfl⟩ := Option.isSome_iff_exists.mp hsome
      exact .inr (hnew.trans hres.symm)

/-- A borrowed log descriptor is closed on the way through `openat`. -/
theorem borrowed_closed_of_not_answers {n : ℤ} (hset : debugFdSetting env = some n)
    (h : ¬ Answers K env c w) :
    (openResult K env c.file c.oflag c.modeArg w).2.file? n = none := by
  obtain ⟨opened, -, htable⟩ := openResult_of_not_answers K env h
  rw [htable]
  refine if_pos ?_
  rw [getDebugFd_fst, hset]

/-- Without a log the call is harmless unless `preopen` was handed descriptor 0,
which it does not pass on. -/
theorem growsBy_of_not_answers_iff (hset : debugFdSetting env = none)
    (hlog : logFile K env w = none) (h : ¬ Answers K env c w) :
    GrowsBy (openResult K env c.file c.oflag c.modeArg w).1 w
        (openResult K env c.file c.oflag c.modeArg w).2 ↔
      dirOpens K env c.file c.oflag (openMode c.oflag c.modeArg) (getDebugFd K env w).2 = none := by
  have hfd : (getDebugFd K env w).1 = -1 := by simp only [getDebugFd_fst, hset, hlog]
  have hfds : (getDebugFd K env w).2.fds = w.fds := by rw [getDebugFd_fds, hlog, installed]
  obtain ⟨opened, hres, htable⟩ := openResult_of_not_answers K env h
  have hfile : ∀ n, (openResult K env c.file c.oflag c.modeArg w).2.file? n =
      file? (installed (asked K env c w).2.fds opened) n := by
    intro n
    rw [htable, hfd]
    split_ifs with hn
    · rw [hn, file?_neg (by decide)]
    · rfl
  cases hdir : dirOpens K env c.file c.oflag (openMode c.oflag c.modeArg)
      (getDebugFd K env w).2 with
  | none =>
    rw [asked_fds, hdir, installed, hfds] at hfile hres
    refine iff_of_true ⟨fun n f hn => ?_, fun n hn => ?_⟩ rfl
    · rw [hfile]
      exact file?_installed_of_some hn _
    · rw [hfile] at hn
      refine (file?_installed_ne_none hn).imp_right fun hn => ?_
      obtain ⟨g, rfl⟩ := Option.isSome_iff_exists.mp hn.1
      exact hn.2.trans hres.symm
  | some g =>
    refine iff_of_false (fun hgrows => ?_) (by simp)
    have hzero : file? w.fds 0 = none := by
      by_contra hne
      refine h (.inr ⟨by rw [hdir]; rfl, ?_⟩)
      rwa [World.file?, hfds]
    have hlow := (lowestFree_eq_zero_iff _).mpr hzero
    have hasked : file? (asked K env c w).2.fds 0 = some g := by
      rw [asked_fds, hdir, installed, hfds, file?_install, hlow]
      rfl
    have hopen := (hfile 0).trans (file?_installed_of_some hasked opened)
    rcases hgrows.2 0 (by rw [hopen]; exact Option.some_ne_none g) with hbefore | hnew
    · exact hbefore hzero
    · -- the number returned is free after `preopen`, and 0 is not
      rw [hres] at hnew
      cases opened with
      | none => cases hnew
      | some f =>
        have hfree := file?_lowestFree (asked K env c w).2.fds
        dsimp only at hnew
        rw [← hnew, hasked] at hfree
        cases hfree

/-- One finished call, from a state in which a borrowed descriptor is open. -/
theorem growsBy_iff_harmless (hopen : ∀ n, debugFdSetting env = some n → w.file? n ≠ none) :
    GrowsBy (openResult K env c.file c.oflag c.modeArg w).1 w
          (openResult K env c.file c.oflag c.modeArg w).2 ∧
        ReleasesLog K env w (openResult K env c.file c.oflag c.modeArg w).2 ↔
      Harmless K env c w := by
  unfold ReleasesLog Harmless
  cases hset : debugFdSetting env with
  | some n =>
    have hlog : logFile K env w = none := by simp only [logFile, hset]
    simp only [hlog, Option.isSome_none, Bool.false_eq_true, false_implies, and_true]
    refine ⟨fun hgrows => ?_, growsBy_of_answers hlog⟩
    by_contra h
    obtain ⟨f, hf⟩ := Option.ne_none_iff_exists'.mp (hopen n hset)
    have hkept := hgrows.1 n f hf
    rw [borrowed_closed_of_not_answers hset h] at hkept
    cases hkept
  | none =>
    cases hlog : logFile K env w with
    | some f =>
      simp only [Option.isSome_some, if_true, true_implies]
      refine ⟨fun hs h => ?_, growsBy_of_not_answers_log hset hlog⟩
      rw [log_open_of_answers hlog h] at hs
      cases hs.2
    | none =>
      have hzero : (getDebugFd K env w).2.file? 0 = w.file? 0 := by
        rw [World.file?, getDebugFd_fds, hlog, installed, World.file?]
      simp only [Option.isSome_none, Bool.false_eq_true, false_implies, and_true, if_false]
      by_cases h : Answers K env c w
      · refine iff_of_true (growsBy_of_answers hlog h) (fun hdir => ?_)
        have := (h.resolve_left (not_fileAnswer_of_dirOpens hdir)).2
        rwa [hzero] at this
      · rw [growsBy_of_not_answers_iff hset hlog h]
        refine ⟨fun hdir hsome => ?_, fun hdir => ?_⟩
        · rw [hdir] at hsome
          cases hsome
        · by_contra hne
          have hsome := Option.isSome_iff_ne_none.mpr hne
          exact h (.inr ⟨hsome, hzero ▸ hdir hsome⟩)

end OneCall

end Descriptors

end AwaitGlibc.OpenEffects

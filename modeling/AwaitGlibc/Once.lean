import AwaitGlibc.Interleaving

/-! `pthread_once` of `nptl/pthread_once.c` on one control word, with the fork
generation of `sysdeps/nptl/fork.h`. A run follows one line of descent: a fork
step goes on in the child, which keeps the memory and only the forking thread.
The parent is not touched by a fork, so every process at any time is the end of
such a run.

Each atomic operation and each futex call is one step, and so are the start, the
return and the cancellation of `init_routine`. A thread forks between its calls.
The counters `completed`, `recorded`, `cut` and `returned` are not part of the
program. -/
namespace AwaitGlibc.Once
open Interleaving

def done : ℕ := 2

/-- `__fork_generation | __PTHREAD_ONCE_INPROGRESS` as an `int`. The generation
counts in steps of `__PTHREAD_ONCE_FORK_GEN_INCR`, which is four. -/
def inProgress (generation : ℕ) : ℕ := (4 * generation + 1) % 2 ^ 32

/-- `val & __PTHREAD_ONCE_DONE`. -/
def isDone (val : ℕ) : Prop := val / 2 % 2 = 1

/-- `val & __PTHREAD_ONCE_INPROGRESS`. -/
def isInProgress (val : ℕ) : Prop := val % 2 = 1

instance (val : ℕ) : Decidable (isDone val) := inferInstanceAs (Decidable (_ = _))
instance (val : ℕ) : Decidable (isInProgress val) := inferInstanceAs (Decidable (_ = _))

structure Shared where
  control : ℕ
  generation : ℕ
  /-- runs of `init_routine` that returned -/
  completed : ℕ
  /-- those of them after which the control was set to done -/
  recorded : ℕ
  /-- those of them that a fork cut off before the control was set -/
  cut : ℕ
  /-- calls of `pthread_once` that returned -/
  returned : ℕ
deriving DecidableEq

inductive Local where
  | idle
  /-- `___pthread_once` before its load -/
  | fastLoad
  /-- the load at the top of the loop -/
  | load
  /-- before the compare-and-swap with a `val` that is not done -/
  | swap (val : ℕ)
  /-- before `futex_wait_simple` -/
  | wait
  | asleep
  | woken
  /-- inside `init_routine` -/
  | running
  /-- `init_routine` has returned -/
  | store
  /-- before the wake-up at the end -/
  | wake
  /-- about to return after the wake-up -/
  | finish
  /-- cancelled, at the start of `clear_once_control` -/
  | clear
  /-- before the wake-up of `clear_once_control` -/
  | clearWake
deriving DecidableEq

/-- A value was read: return if it says done, otherwise try the swap. -/
def afterRead (g : Shared) (again : Local) : Shared × Local :=
  if isDone g.control then ({ g with returned := g.returned + 1 }, .idle) else (g, again)

/-- What follows a successful swap of `val`. -/
def afterSwap (g : Shared) (val : ℕ) : Local :=
  if isInProgress val ∧ val = inProgress g.generation then .wait else .running

inductive Step : Shared → Local → Shared → Local → Prop
  | call {g} : Step g .idle g .fastLoad
  | fastLoad {g} : Step g .fastLoad (afterRead g .load).1 (afterRead g .load).2
  | load {g} : Step g .load (afterRead g (.swap g.control)).1 (afterRead g (.swap g.control)).2
  | swap {g val} (hval : ¬ isDone val) (hcas : g.control = val) :
      Step g (.swap val) { g with control := inProgress g.generation } (afterSwap g val)
  | retry {g val} :
      Step g (.swap val) (afterRead g (.swap g.control)).1 (afterRead g (.swap g.control)).2
  | sleep {g} (hfutex : g.control = inProgress g.generation) : Step g .wait g .asleep
  | futexReturn {g} : Step g .wait g .load
  | spurious {g} : Step g .asleep g .load
  | woken {g} : Step g .woken g .load
  | complete {g} : Step g .running { g with completed := g.completed + 1 } .store
  | store {g} : Step g .store { g with control := done, recorded := g.recorded + 1 } .wake
  | finish {g} : Step g .finish { g with returned := g.returned + 1 } .idle
  | cancel {g} : Step g .running g .clear
  | clear {g} : Step g .clear { g with control := 0 } .clearWake

/-- The wake-up at the end of a call and that of the cleanup handler, after which the
thread is gone. -/
inductive Wake : Shared → Local → Unit → Amount → Local → Prop
  | done {g} : Wake g .wake () .all .finish
  | clear {g} : Wake g .clearWake () .all .idle

def sleeping : Local → Option Unit
  | .asleep => some ()
  | _ => none

def program : Program Shared Local Unit where
  step := Step
  wake := Wake
  sleeping := sleeping
  woken _ := .woken
  wake_awake h := by cases h <;> rfl

variable {T : Type} [Fintype T] [DecidableEq T]

/-- A step of a thread, or a fork by a thread that is in no call. In the child there
is no other thread and the next generation; fewer than `2 ^ 30` generations
follow the first one. -/
inductive Advance (first : ℕ) : State Shared T Local → State Shared T Local → Prop
  | step {s s'} (h : Interleaving.Step program s s') : Advance first s s'
  | fork {s} (t : T) (hidle : s.locals t = .idle)
      (hgen : s.shared.generation + 1 < first + 2 ^ 30) :
      Advance first s ⟨{ s.shared with
        generation := s.shared.generation + 1
        cut := s.shared.cut + count (· = .store) s.locals }, fun _ => .idle⟩

/-- `PTHREAD_ONCE_INIT` in a process of some generation. -/
def start (first : ℕ) : State Shared T Local :=
  ⟨⟨0, first, 0, 0, 0, 0⟩, fun _ => .idle⟩

def Reached (first : ℕ) (s : State Shared T Local) : Prop :=
  Relation.ReflTransGen (Advance first) (start first) s

/-- Inside `init_routine`, or past it with the control not yet set or reset. -/
def executing : Local → ℕ
  | .running | .store | .clear => 1
  | _ => 0

/-- What the control says about the process: how many threads execute
`init_routine` and how many runs are recorded. -/
inductive Phase (first : ℕ) (g : Shared) (executors : ℕ) : Prop
  | fresh (hcontrol : g.control = 0) (hexec : executors = 0) (hrec : g.recorded = 0)
  | current (hcontrol : g.control = inProgress g.generation) (hexec : executors = 1)
      (hrec : g.recorded = 0)
  /-- the generation is that of an ancestor -/
  | stale (old : ℕ) (hfirst : first ≤ old) (hold : old < g.generation)
      (hcontrol : g.control = inProgress old) (hexec : executors = 0) (hrec : g.recorded = 0)
  | finished (hcontrol : g.control = done) (hexec : executors = 0) (hrec : g.recorded = 1)

def storing : Local → ℕ
  | .store => 1
  | _ => 0

def dormant : Local → ℕ
  | .asleep => 1
  | _ => 0

def waking : Local → ℕ
  | .wake | .clearWake => 1
  | _ => 0

def ending : Local → ℕ
  | .wake | .finish => 1
  | _ => 0

structure Inv (first : ℕ) (g : Shared) (locals : T → Local) : Prop where
  first_le : first ≤ g.generation
  generation_lt : g.generation < first + 2 ^ 30
  phase : Phase first g (total executing locals)
  completed : g.completed = g.recorded + g.cut + total storing locals
  returned : 0 < g.returned → g.control = done
  ending : 0 < total ending locals → g.control = done
  awake : 0 < total dormant locals → 0 < total executing locals + total waking locals

section Phase
variable {first executors : ℕ} {g : Shared}

theorem Phase.executors_le (h : Phase first g executors) : executors ≤ 1 := by
  cases h <;> omega

theorem Phase.of_done (h : Phase first g executors) (hcontrol : g.control = done) :
    g.recorded = 1 := by
  cases h <;> simp only [done, inProgress] at * <;> omega

end Phase

section Steps
variable {first : ℕ} {g : Shared} {locals : T → Local}

theorem Inv.thread (h : Inv first g locals) (t : T) {g' : Shared} {l : Local}
    (hstep : Step g (locals t) g' l) : Inv first g' (Function.update locals t l) := by
  obtain ⟨hfirst, hlt, hphase, hcompleted, hreturned, hend, hawake⟩ := h
  simp only [total_eq_others _ locals t] at hphase hcompleted hend hawake
  generalize locals t = l₀ at hstep hphase hcompleted hend hawake
  -- the step and what the control says leave equations between numbers
  cases hstep
  all_goals try simp only [afterRead, afterSwap]
  all_goals try split_ifs
  all_goals
    cases hphase
    all_goals
      simp only [executing, storing, dormant, waking, Once.ending, done, inProgress, isDone,
        isInProgress] at *
      constructor <;> (try simp only [total_update_eq_others, executing, storing, dormant, waking,
        Once.ending, done, implies_true])
      all_goals first
        | omega
        | refine .fresh ?_ ?_ ?_ <;> (try simp only) <;> omega
        | refine .current ?_ ?_ ?_ <;> (try simp only [inProgress]) <;> omega
        | refine .finished ?_ ?_ ?_ <;> (try simp only [done]) <;> omega
        | refine .stale _ ‹first ≤ _› ‹_ < g.generation› ?_ ?_ ?_ <;> (try simp only [inProgress]) <;> omega

theorem eq_asleep (l : Local) (h : program.sleeping l = some ()) : l = .asleep := by
  cases l <;> first | rfl | exact absurd h nofun

theorem Inv.wake {s : State Shared T Local} (h : Inv first s.shared s.locals) {t : T}
    {S : Finset T} {n : Amount} {l : Local} (hwake : Wake s.shared (s.locals t) () n l)
    (hsub : S ⊆ sleepers program () s.locals)
    (hcard : S.card = n.of (sleepers program () s.locals).card) :
    Inv first s.shared (Function.update (rouse program S s.locals) t l) := by
  obtain ⟨rest, hbefore, hafter⟩ := total_wake eq_asleep hwake hsub
  obtain ⟨hfirst, hlt, hphase, hcompleted, hreturned, hend, hawake⟩ := h
  rw [card_sleepers program () (w := dormant) (by rintro ⟨⟩ <;> rfl)] at hcard
  simp only [hbefore] at hphase hcompleted hend hawake hcard
  generalize s.locals t = l₀ at hwake hphase hcompleted hend hawake hcard
  refine ⟨hfirst, hlt, ?_, ?_, hreturned, ?_, ?_⟩ <;> simp only [hafter] <;> cases hwake <;>
    simp only [executing, storing, dormant, waking, Once.ending, program, Amount.of] at * <;>
    first | exact hphase | omega

omit [DecidableEq T] in
/-- With no call under way, the counters and the control are all there is. -/
theorem Inv.of_idle (hfirst : first ≤ g.generation) (hlt : g.generation < first + 2 ^ 30)
    (hphase : Phase first g 0) (hcompleted : g.completed = g.recorded + g.cut)
    (hreturned : 0 < g.returned → g.control = done) : Inv first g (fun _ : T => Local.idle) := by
  have hzero : ∀ w : Local → ℕ, w .idle = 0 → total w (fun _ : T => Local.idle) = 0 :=
    fun w hw => total_eq_zero fun _ => hw
  refine ⟨hfirst, hlt, ?_, ?_, hreturned, ?_, ?_⟩ <;> rw [hzero _ rfl]
  · exact hphase
  · exact hcompleted
  · exact fun h => absurd h (Nat.lt_irrefl 0)
  · exact fun h => absurd h (Nat.lt_irrefl 0)

omit [DecidableEq T] in
/-- In the child nobody executes `init_routine`, whatever the control says. -/
theorem Inv.fork (h : Inv first g locals) (hgen : g.generation + 1 < first + 2 ^ 30) :
    Inv first { g with
      generation := g.generation + 1
      cut := g.cut + count (· = .store) locals } (fun _ : T => Local.idle) := by
  have hcount : count (· = .store) locals = total storing locals :=
    count_eq_total (fun l => by cases l <;> rfl) locals
  refine Inv.of_idle (Nat.le_succ_of_le h.first_le) hgen ?_ ?_ h.returned
  · cases h.phase with
    | fresh hc _ hr => exact .fresh hc rfl hr
    | current hc _ hr => exact .stale g.generation h.first_le (Nat.lt_succ_self _) hc rfl hr
    | stale old hfirst hold hc _ hr => exact .stale old hfirst (Nat.lt_succ_of_lt hold) hc rfl hr
    | finished hc _ hr => exact .finished hc rfl hr
  · rw [hcount]
    exact h.completed.trans (Nat.add_assoc _ _ _)

theorem Inv.advance {s s' : State Shared T Local} (h : Inv first s.shared s.locals)
    (hstep : Advance first s s') : Inv first s'.shared s'.locals := by
  cases hstep with
  | fork t hidle hgen => exact h.fork hgen
  | step hstep =>
    cases hstep with
    | thread t hthread => exact h.thread t hthread
    | wake t S hwake hsub hcard => exact h.wake hwake hsub hcard

theorem Reached.inv {s : State Shared T Local} (h : Reached first s) :
    Inv first s.shared s.locals := by
  induction h with
  | refl => exact .of_idle le_rfl (Nat.lt_add_of_pos_right (by decide)) (.fresh rfl rfl rfl) rfl nofun
  | tail _ hstep ih => exact ih.advance hstep

end Steps

/-! ### What callers rely on -/

def unfinished (l : Local) : Bool := l ≠ .idle

/-- In a process of the line of descent: one thread at most is inside
`init_routine`; no call has returned without a complete run; `init_routine`
completed at most once, apart from the runs that a fork cut off before the
control was set; and calls sleep only while a thread is inside `init_routine`. -/
structure Sound (s : State Shared T Local) : Prop where
  exclusive : count (· = .running) s.locals ≤ 1
  complete : 0 < s.shared.returned → 0 < s.shared.completed
  once : s.shared.completed ≤ s.shared.cut + 1
  not_stuck : (∃ t, s.locals t = .asleep) →
    (∀ t, unfinished (s.locals t) → s.locals t = .asleep ∨ s.locals t = .running) →
    ∃ t, s.locals t = .running

/-- On every line of descent, whatever the threads, the order of their steps, the
cancellations and the forks. -/
theorem once_sound {first : ℕ} {s : State Shared T Local} (h : Reached first s) : Sound s := by
  have hinv := h.inv
  have hexec := hinv.phase.executors_le
  have hstoring : total storing s.locals ≤ total executing s.locals :=
    total_mono (fun l => by cases l <;> simp [storing, executing]) s.locals
  constructor
  case exclusive =>
    have hrunning : count (· = .running) s.locals ≤ total executing s.locals := by
      rw [count_eq_total (fun _ => rfl)]
      exact total_mono (fun l => by cases l <;> simp [executing]) s.locals
    omega
  case complete =>
    intro hreturned
    have hrecorded := hinv.phase.of_done (hinv.returned hreturned)
    have hcompleted := hinv.completed
    omega
  case once =>
    have hcompleted := hinv.completed
    cases hinv.phase with
    | fresh _ he hr | current _ he hr | stale _ _ _ _ he hr | finished _ he hr => omega
  case not_stuck =>
    intro hasleep hall
    obtain ⟨t, ht⟩ := hasleep
    have hpos := hinv.awake (total_pos ht Nat.one_pos)
    have hwaking : total waking s.locals = 0 := by
      apply total_eq_zero
      intro u
      have hu := hall u
      generalize s.locals u = l at hu
      cases l <;> first | rfl | exact absurd (hu rfl) (by simp)
    have hpos : 0 < total executing s.locals := by omega
    obtain ⟨u, hu⟩ := exists_of_total_pos hpos
    refine ⟨u, ?_⟩
    have hwhere := hall u
    generalize s.locals u = l at hu hwhere
    cases l <;> first | rfl | exact absurd hu (by decide) | exact absurd (hwhere rfl) (by simp)

/-- A call that runs `init_routine` to its end, while a second one sleeps. -/
theorem once_sound_sleeper :
    ∃ s : State Shared (Fin 2) Local, Reached 0 s ∧ s.locals 0 = .running ∧ s.locals 1 = .asleep ∧
      Sound s := by
  have hreached : Reached (T := Fin 2) 0 _ :=
    .head (.step (.thread 0 .call)) <| .head (.step (.thread 0 .fastLoad)) <|
    .head (.step (.thread 0 .load)) <| .head (.step (.thread 0 (.swap (by decide) rfl))) <|
    .head (.step (.thread 1 .call)) <| .head (.step (.thread 1 .fastLoad)) <|
    .head (.step (.thread 1 .load)) <| .head (.step (.thread 1 (.swap (by decide) rfl))) <|
    .head (.step (.thread 1 (.sleep rfl))) .refl
  exact ⟨_, hreached, rfl, rfl, once_sound hreached⟩

/-- One thread has returned from `init_routine` and not yet set the control when
another one forks. The child runs `init_routine` again, so that it completes twice
on one line of descent. -/
theorem completes_twice_after_fork :
    ∃ s : State Shared (Fin 2) Local, Reached 0 s ∧ s.shared.completed = 2 := by
  have hreached : Reached (T := Fin 2) 0 _ :=
    .head (.step (.thread 0 .call)) <| .head (.step (.thread 0 .fastLoad)) <|
    .head (.step (.thread 0 .load)) <| .head (.step (.thread 0 (.swap (by decide) rfl))) <|
    .head (.step (.thread 0 .complete)) <| .head (.fork 1 rfl (by decide)) <|
    .head (.step (.thread 1 .call)) <| .head (.step (.thread 1 .fastLoad)) <|
    .head (.step (.thread 1 .load)) <| .head (.step (.thread 1 (.swap (by decide) rfl))) <|
    .head (.step (.thread 1 .complete)) .refl
  exact ⟨_, hreached, rfl⟩

end AwaitGlibc.Once

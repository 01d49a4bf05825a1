import AwaitGlibc.Interleaving

/-! `pthread_barrier_wait` of `nptl/pthread_barrier_wait.c`. Each atomic operation and each futex
call is one step; the counters count modulo the size of a word. What a call learns about its place
is a ticket: its position `i` since the last reset and, for the statements only, the number of
positions given out before that reset. Rounds are numbered through all resets; `returned` and
`serial` count the calls of each round that returned, and those of them that returned
`PTHREAD_BARRIER_SERIAL_THREAD`. -/
namespace AwaitGlibc.Barrier
open Interleaving

/-- The constants: `count`, `max_in_before_reset` and the number of values of an `unsigned int`. -/
structure Limits where
  count : ℕ
  threshold : ℕ
  word : ℕ
  count_pos : 0 < count
  threshold_pos : 0 < threshold
  dvd : count ∣ threshold
  fits : threshold + count < word

/-- `BARRIER_IN_THRESHOLD`, which is `UINT_MAX / 2`. -/
def inThreshold : ℕ := (2 ^ 32 - 1) / 2

/-- What `pthread_barrier_init` admits, with `max_in_before_reset` as the source computes it. -/
def Limits.ofCount (count : ℕ) (hpos : 0 < count) (hlt : count < inThreshold) : Limits where
  count := count
  threshold := inThreshold - inThreshold % count
  word := 2 ^ 32
  count_pos := hpos
  threshold_pos := by
    have := Nat.mod_lt inThreshold hpos
    omega
  dvd := Nat.dvd_sub_mod _
  fits := by
    unfold inThreshold at *
    omega

structure Ticket where
  base : ℕ
  pos : ℕ
deriving DecidableEq

structure Shared where
  in_ : ℕ
  round : ℕ
  out : ℕ
  /-- positions given out before the last reset -/
  base : ℕ
  returned : ℕ → ℕ
  serial : ℕ → ℕ

inductive Word
  | in_ | round
deriving DecidableEq

inductive Local
  | idle
  /-- before the increment of `in` -/
  | enter
  /-- in a reset round, before `futex_wait_simple (&bar->in, i)` -/
  | full (i : ℕ)
  | asleepFull
  /-- in a reset round, before the load of `in` -/
  | loadIn
  /-- before the first load of `current_round` -/
  | loadRound (k : Ticket)
  /-- before the compare-and-swap that is to advance `current_round` from `cr` -/
  | swap (k : Ticket) (cr : ℕ)
  /-- `current_round` was advanced to `cr`, before the wake-up -/
  | wake (k : Ticket) (cr : ℕ)
  /-- before `futex_wait_simple (&bar->current_round, cr)` -/
  | wait (k : Ticket) (cr : ℕ)
  | asleep (k : Ticket)
  /-- before the load of `current_round` that follows the wait -/
  | reload (k : Ticket)
  /-- the label `ready_to_leave` -/
  | leave (k : Ticket)
  /-- the three stores of a reset -/
  | resetRound (k : Ticket)
  | resetOut (k : Ticket)
  | resetIn (k : Ticket)
  /-- before the wake-up that ends a reset -/
  | wakeIn (k : Ticket)
  | finish (k : Ticket)
deriving DecidableEq

namespace Limits

variable (c : Limits)

/-- `while (i > cr)`. -/
def afterWait (k : Ticket) (cr : ℕ) : Local := if k.pos > cr then .wait k cr else .leave k

/-- `while (cr + count <= i)`, and what follows it. -/
def afterLoad (k : Ticket) (cr : ℕ) : Local :=
  if (cr + c.count) % c.word ≤ k.pos then .swap k cr else afterWait k cr

/-- What follows the increment of `in`. -/
def afterEnter (base i : ℕ) : Local :=
  if i > c.threshold then .full i else .loadRound ⟨base, i⟩

/-- What follows the increment of `out`. -/
def afterLeave (k : Ticket) (o : ℕ) : Local := if o = c.threshold then .resetRound k else .finish k

def roundOf (k : Ticket) : ℕ := (k.base + k.pos - 1) / c.count

def isSerial (k : Ticket) : Bool := k.pos % c.count = 0

def finished (g : Shared) (k : Ticket) : Shared :=
  { g with
    returned := Function.update g.returned (c.roundOf k) (g.returned (c.roundOf k) + 1)
    serial := Function.update g.serial (c.roundOf k)
      (g.serial (c.roundOf k) + (c.isSerial k).toNat) }

inductive Step : Shared → Local → Shared → Local → Prop
  | call {g} : Step g .idle g .enter
  | enter {g} : Step g .enter { g with in_ := (g.in_ + 1) % c.word }
      (c.afterEnter g.base ((g.in_ + 1) % c.word))
  | sleepFull {g i} (hfutex : g.in_ = i) : Step g (.full i) g .asleepFull
  | returnFull {g i} : Step g (.full i) g .loadIn
  | spuriousFull {g} : Step g .asleepFull g .loadIn
  | loadIn {g} : Step g .loadIn g (if g.in_ > c.threshold then .full g.in_ else .enter)
  | loadRound {g k} : Step g (.loadRound k) g (c.afterLoad k g.round)
  | swap {g k cr} (hcas : g.round = cr) :
      Step g (.swap k cr) { g with round := k.pos - k.pos % c.count }
        (.wake k (k.pos - k.pos % c.count))
  /-- the compare-and-swap may fail although it finds the expected value -/
  | swapFails {g k cr} : Step g (.swap k cr) g (c.afterLoad k g.round)
  | sleep {g k cr} (hfutex : g.round = cr) : Step g (.wait k cr) g (.asleep k)
  | waitReturns {g k cr} : Step g (.wait k cr) g (.reload k)
  | spurious {g k} : Step g (.asleep k) g (.reload k)
  | reload {g k} : Step g (.reload k) g (afterWait k g.round)
  | leave {g k} : Step g (.leave k) { g with out := (g.out + 1) % c.word }
      (c.afterLeave k ((g.out + 1) % c.word))
  | resetRound {g k} : Step g (.resetRound k) { g with round := 0 } (.resetOut k)
  | resetOut {g k} : Step g (.resetOut k) { g with out := 0 } (.resetIn k)
  | resetIn {g k} : Step g (.resetIn k) { g with in_ := 0, base := g.base + c.threshold } (.wakeIn k)
  | finish {g k} : Step g (.finish k) (c.finished g k) .idle

inductive Wake : Shared → Local → Word → Amount → Local → Prop
  | round {g k cr} : Wake g (.wake k cr) .round .all (afterWait k cr)
  | in_ {g k} : Wake g (.wakeIn k) .in_ .all (.finish k)

end Limits

def sleeping : Local → Option Word
  | .asleepFull => some .in_
  | .asleep _ => some .round
  | _ => none

def woken : Local → Local
  | .asleepFull => .loadIn
  | .asleep k => .reload k
  | l => l

def program (c : Limits) : Program Shared Local Word where
  step := c.Step
  wake := Limits.Wake
  sleeping := sleeping
  woken := woken
  wake_awake h := by cases h <;> rfl

variable {T : Type} [Fintype T] [DecidableEq T]

/-- The barrier as `pthread_barrier_init` leaves it. -/
def start : State Shared T Local := ⟨⟨0, 0, 0, 0, fun _ => 0, fun _ => 0⟩, fun _ => .idle⟩

def Reached (c : Limits) (s : State Shared T Local) : Prop := Reachable (program c) start s

/-! ### Positions and rounds -/

namespace Limits

variable (c : Limits)

/-- Positions given out so far in which a call can wait. -/
def entered (g : Shared) : ℕ := g.base + min g.in_ c.threshold

def enteredRound (g : Shared) (r : ℕ) : ℕ := min c.count (c.entered g - r * c.count)

def Complete (g : Shared) (r : ℕ) : Prop := (r + 1) * c.count ≤ c.entered g

/-- One for a round that ends with the first `e` positions or before. -/
def ended (e r : ℕ) : ℕ := (decide ((r + 1) * c.count ≤ e)).toNat

theorem enteredRound_of_complete {g : Shared} {r : ℕ} (h : c.Complete g r) :
    c.enteredRound g r = c.count := by
  unfold Complete at h
  rw [Nat.add_mul, Nat.one_mul] at h
  unfold enteredRound
  omega

theorem min_succ (e r : ℕ) :
    min c.count (e + 1 - r * c.count) =
      min c.count (e - r * c.count) + (decide (e / c.count = r)).toNat := by
  have hpos := c.count_pos
  by_cases h : e / c.count = r
  · have hdiv := Nat.div_add_mod e c.count
    have hmod := Nat.mod_lt e hpos
    rw [h, Nat.mul_comm] at hdiv
    rw [decide_eq_true h, Bool.toNat_true]
    omega
  · rw [decide_eq_false h, Bool.toNat_false, Nat.add_zero]
    cases Nat.lt_or_gt_of_ne h with
    | inl hlt =>
      have hle : e + 1 ≤ r * c.count := (Nat.div_lt_iff_lt_mul hpos).mp hlt
      omega
    | inr hgt =>
      have hle : (r + 1) * c.count ≤ e := (Nat.le_div_iff_mul_le hpos).mp hgt
      rw [Nat.add_mul, Nat.one_mul] at hle
      omega

theorem ended_succ (e r : ℕ) :
    c.ended (e + 1) r =
      c.ended e r + (decide (e / c.count = r ∧ (e + 1) % c.count = 0)).toNat := by
  unfold ended
  have hpos := c.count_pos
  by_cases hlast : (r + 1) * c.count = e + 1
  · have hround : e / c.count = r := by
      rw [Nat.div_eq_iff hpos]
      rw [Nat.add_mul, Nat.one_mul] at hlast
      omega
    have hmod : (e + 1) % c.count = 0 := by rw [← hlast, Nat.mul_mod_left]
    rw [decide_eq_true hlast.le, decide_eq_false (by omega), decide_eq_true ⟨hround, hmod⟩]
    rfl
  · have hnot : ¬(e / c.count = r ∧ (e + 1) % c.count = 0) := by
      intro h
      apply hlast
      have hdiv := Nat.div_add_mod e c.count
      have hmod := Nat.mod_lt e hpos
      obtain ⟨q, hq⟩ := Nat.dvd_of_mod_eq_zero h.2
      rw [h.1] at hdiv
      have hlt : r * c.count < q * c.count := by rw [Nat.mul_comm r, Nat.mul_comm q]; omega
      have hle : q * c.count < (r + 2) * c.count := by
        rw [Nat.add_mul, Nat.mul_comm r, Nat.mul_comm q]
        omega
      have hq' : q = r + 1 := by
        have h1 := Nat.lt_of_mul_lt_mul_right hlt
        have h2 := Nat.lt_of_mul_lt_mul_right hle
        omega
      rw [hq, hq', Nat.mul_comm]
    rw [decide_eq_false hnot, Bool.toNat_false, Nat.add_zero]
    congr 1
    rw [decide_eq_decide]
    omega

end Limits

end AwaitGlibc.Barrier

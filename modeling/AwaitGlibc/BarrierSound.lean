import AwaitGlibc.Barrier

/-! The barrier in every reachable state. The calls that hold a position and have not yet left, with
those that have left, are the positions given out since the last reset; the three stores of a reset
happen when all of them have left. Where `current_round` lags behind a full round, the call with the
round's last position is still before its compare-and-swap. -/
namespace AwaitGlibc.Barrier
open Interleaving

variable {T : Type} [Fintype T] [DecidableEq T]

/-! ### What is counted -/

/-- Holds a position and has not yet incremented `out`. -/
def holding : Local → ℕ
  | .loadRound _ | .swap _ _ | .wake _ _ | .wait _ _ | .asleep _ | .reload _ | .leave _ => 1
  | _ => 0

def queued : Local → ℕ
  | .full _ | .asleepFull | .loadIn => 1
  | _ => 0

def atEnter : Local → ℕ
  | .enter => 1
  | _ => 0

def atResetRound : Local → ℕ
  | .resetRound _ => 1
  | _ => 0

def atResetOut : Local → ℕ
  | .resetOut _ => 1
  | _ => 0

def atResetIn : Local → ℕ
  | .resetIn _ => 1
  | _ => 0

/-- Sleeps although `current_round` has reached its position. -/
def late (round : ℕ) : Local → ℕ
  | .asleep k => if k.pos ≤ round then 1 else 0
  | _ => 0

def dormant : Local → ℕ
  | .asleepFull => 1
  | _ => 0

def waking : Local → ℕ
  | .wake _ _ => 1
  | _ => 0

def wakingIn : Local → ℕ
  | .wakeIn _ => 1
  | _ => 0

/-- Has the position `m` and has not yet tried to advance `current_round`. -/
def early (m : ℕ) : Local → ℕ
  | .loadRound k | .swap k _ => if k.pos = m then 1 else 0
  | _ => 0

def ticket : Local → Option Ticket
  | .loadRound k | .swap k _ | .wake k _ | .wait k _ | .asleep k | .reload k | .leave k
  | .resetRound k | .resetOut k | .resetIn k | .wakeIn k | .finish k => some k
  | _ => none

namespace Limits

variable (c : Limits)

def inside (r : ℕ) (l : Local) : ℕ := ((ticket l).any fun k => c.roundOf k = r).toNat

/-- The call of the round that is to return `PTHREAD_BARRIER_SERIAL_THREAD`. -/
def insideSerial (r : ℕ) (l : Local) : ℕ :=
  ((ticket l).any fun k => c.roundOf k = r ∧ c.isSerial k).toNat

/-! ### The invariant -/

def Held (g : Shared) (k : Ticket) : Prop :=
  k.base = g.base ∧ 0 < k.pos ∧ k.pos ≤ min g.in_ c.threshold

def Fits (g : Shared) : Local → Prop
  | .full i => c.threshold < i
  | .loadRound k | .asleep k | .reload k => c.Held g k
  | .swap k cr => c.Held g k ∧ c.count ∣ cr ∧ cr ≤ g.round ∧ cr + c.count ≤ k.pos
  | .wake k cr => c.Held g k ∧ cr ≤ g.round
  | .wait k cr => c.Held g k ∧ cr < k.pos
  | .leave k => c.Held g k ∧ k.pos ≤ g.round
  | .resetRound k | .resetOut k | .resetIn k | .wakeIn k | .finish k => c.Complete g (c.roundOf k)
  | _ => True

/-- The counters, and how far a reset is. `n` adds up a weight over all threads. -/
structure Counts (g : Shared) (n : (Local → ℕ) → ℕ) : Prop where
  in_le : g.in_ ≤ c.threshold + n queued
  round_le : g.round ≤ min g.in_ c.threshold
  stages : n atResetRound + n atResetOut + n atResetIn ≤ 1
  running : n atResetRound + n atResetOut + n atResetIn = 0 →
    n holding + g.out = min g.in_ c.threshold ∧ g.out < c.threshold
  resetting : n atResetRound + n atResetOut + n atResetIn = 1 → n holding = 0 ∧ c.threshold ≤ g.in_ ∧
    (n atResetIn = 0 → g.out = c.threshold) ∧ (n atResetIn = 1 → g.out = 0) ∧
    (n atResetRound = 0 → g.round = 0)

structure Sleeps (g : Shared) (n : (Local → ℕ) → ℕ) : Prop where
  onRound : 0 < n (late g.round) → 0 < n waking
  onIn : 0 < n dormant → g.in_ ≤ c.threshold → 0 < n wakingIn

/-- The round that ends with position `m` is over, or its last call will see to it. -/
def Advanced (m : ℕ) (g : Shared) (n : (Local → ℕ) → ℕ) : Prop :=
  n atResetOut + n atResetIn = 0 → m ≤ min g.in_ c.threshold → m ≤ g.round ∨ 0 < n (early m)

structure Counted (r : ℕ) (g : Shared) (n : (Local → ℕ) → ℕ) : Prop where
  counted : g.returned r + n (c.inside r) = c.enteredRound g r
  serial : g.serial r + n (c.insideSerial r) = c.ended (c.entered g) r
  returned : 0 < g.returned r → c.Complete g r

structure Inv (g : Shared) (locals : T → Local) : Prop where
  counts : c.Counts g fun w => total w locals
  round_dvd : c.count ∣ g.round
  base_dvd : c.count ∣ g.base
  fits : ∀ t, c.Fits g (locals t)
  sleeps : c.Sleeps g fun w => total w locals
  advanced : ∀ m, c.count ∣ m → 0 < m → c.Advanced m g fun w => total w locals
  counted : ∀ r, c.Counted r g fun w => total w locals

/-- A step of a thread, or what it does when it has woken all sleepers; `rest` counts the others. -/
def Moves (rest : (Local → ℕ) → ℕ) (g : Shared) (l : Local) (g' : Shared) (l' : Local) : Prop :=
  c.Step g l g' l' ∨ g' = g ∧ ∃ w n, Wake g l w n l' ∧ (w = .round → rest (late g.round) = 0) ∧
    (w = .in_ → rest dormant = 0)

variable {c} {g g' : Shared} {l l' : Local} {k : Ticket} {rest : (Local → ℕ) → ℕ}

/-! ### What a call knows -/

theorem Fits.mono (h : c.Fits g l) (hentered : c.entered g ≤ c.entered g')
    (hgrow : holding l = 0 ∨ g'.base = g.base ∧ g.in_ ≤ g'.in_ ∧ g.round ≤ g'.round) :
    c.Fits g' l := by
  cases l with
  | idle | enter | asleepFull | loadIn => trivial
  | full i => exact h
  | resetRound | resetOut | resetIn | wakeIn | finish => exact Nat.le_trans h hentered
  | _ =>
    have hgrow := hgrow.resolve_left Nat.one_ne_zero
    simp only [Fits, Held] at *
    omega

theorem add_count_mod (c : Limits) {cr : ℕ} (h : cr ≤ c.threshold) :
    (cr + c.count) % c.word = cr + c.count := by
  have := c.fits
  exact Nat.mod_eq_of_lt (by omega)

theorem complete_of_le (hbase : c.count ∣ g.base) (hdvd : c.count ∣ g.round) (h : c.Held g k)
    (hround : g.round ≤ min g.in_ c.threshold) (hle : k.pos ≤ g.round) :
    c.Complete g (c.roundOf k) := by
  obtain ⟨hk, hpos, -⟩ := h
  obtain ⟨n, hn⟩ := Nat.dvd_add hbase hdvd
  have hlt : c.roundOf k < n := by
    rw [roundOf, hk, Nat.div_lt_iff_lt_mul c.count_pos, Nat.mul_comm, ← hn]
    omega
  calc (c.roundOf k + 1) * c.count
      ≤ n * c.count := Nat.mul_le_mul_right _ hlt
    _ = g.base + g.round := by rw [hn, Nat.mul_comm]
    _ ≤ c.entered g := Nat.add_le_add_left hround _

/-! ### Steps -/

theorem le_swap (h : c.Fits g (.swap k g.round)) (hdvd : c.count ∣ g.round) :
    g.round ≤ k.pos - k.pos % c.count := by
  obtain ⟨-, -, -, hle⟩ := h
  have hmod := Nat.mod_lt k.pos c.count_pos
  exact Nat.le_of_lt_add_of_dvd (by omega) hdvd (Nat.dvd_sub_mod k.pos)

theorem fits_afterWait (h : c.Held g k) {cr : ℕ} (hcr : cr ≤ g.round) : c.Fits g (afterWait k cr) := by
  unfold afterWait
  split_ifs with hlt
  · exact ⟨h, hlt⟩
  · exact ⟨h, (Nat.le_of_not_lt hlt).trans hcr⟩

theorem fits_afterLoad (h : c.Held g k) (hdvd : c.count ∣ g.round) (hle : g.round ≤ c.threshold) :
    c.Fits g (c.afterLoad k g.round) := by
  unfold afterLoad
  rw [add_count_mod c hle]
  split_ifs with hswap
  · exact ⟨h, hdvd, le_refl _, hswap⟩
  · exact fits_afterWait h (le_refl _)

theorem Counted.kept {r : ℕ} (h : c.Counted r g fun w => rest w + w l) (hticket : ticket l' = ticket l)
    (hentered : c.entered g' = c.entered g) (hreturned : g'.returned = g.returned)
    (hserial : g'.serial = g.serial) : c.Counted r g' fun w => rest w + w l' := by
  obtain ⟨hcounted, hser, hret⟩ := h
  constructor
  · simp only [inside, hticket, hreturned, enteredRound, hentered] at *
    exact hcounted
  · simp only [insideSerial, hticket, hserial, hentered] at *
    exact hser
  · rw [hreturned, Complete, hentered]
    exact hret

theorem Counted.enter {r : ℕ} (h : c.Counted r g fun w => rest w + w .enter)
    (hbase : c.count ∣ g.base) (hle : g.in_ + 1 ≤ c.threshold) :
    c.Counted r { g with in_ := g.in_ + 1 }
      fun w => rest w + w (.loadRound ⟨g.base, g.in_ + 1⟩) := by
  have hmin : min g.in_ c.threshold = g.in_ := Nat.min_eq_left (by omega)
  have hentered : c.entered { g with in_ := g.in_ + 1 } = c.entered g + 1 := by
    simp only [entered]
    omega
  have hround : c.roundOf ⟨g.base, g.in_ + 1⟩ = c.entered g / c.count := by
    rw [roundOf, entered, hmin]
    rfl
  have hserial : c.isSerial ⟨g.base, g.in_ + 1⟩ = decide ((c.entered g + 1) % c.count = 0) := by
    obtain ⟨n, hn⟩ := hbase
    rw [isSerial, entered, hmin, hn, Nat.add_assoc, Nat.mul_add_mod]
  obtain ⟨hcounted, hser, hret⟩ := h
  have hsucc := c.min_succ (c.entered g) r
  have hended := c.ended_succ (c.entered g) r
  simp only [inside, insideSerial, ticket, Option.any_none, Bool.toNat_false, enteredRound] at *
  constructor
  · simp only [inside, ticket, Option.any_some, hround, enteredRound, hentered]
    omega
  · simp only [insideSerial, ticket, Option.any_some, hround, hserial, hentered, decide_eq_true_eq]
    omega
  · rw [Complete, hentered]
    exact fun hr => Nat.le_succ_of_le (hret hr)

theorem Counted.finish {r : ℕ} (h : c.Counted r g fun w => rest w + w (.finish k))
    (hcomplete : c.Complete g (c.roundOf k)) : c.Counted r (c.finished g k) fun w => rest w + w .idle := by
  obtain ⟨hcounted, hser, hret⟩ := h
  simp only [inside, insideSerial, ticket, Option.any_some] at hcounted hser
  by_cases hr : c.roundOf k = r
  · subst hr
    simp only [true_and, decide_true, Bool.decide_eq_true, Bool.toNat_true] at hcounted hser
    constructor
    · simp only [finished, Function.update_self, inside, ticket, Option.any_none, Bool.toNat_false]
      refine Eq.trans ?_ hcounted
      omega
    · simp only [finished, Function.update_self, insideSerial, ticket, Option.any_none, Bool.toNat_false]
      refine Eq.trans ?_ hser
      omega
    · exact fun _ => hcomplete
  · simp only [hr, false_and, decide_false, Bool.toNat_false] at hcounted hser
    constructor
    · simp only [finished, Function.update_of_ne (Ne.symm hr)]
      exact hcounted
    · simp only [finished, Function.update_of_ne (Ne.symm hr)]
      exact hser
    · simp only [finished, Function.update_of_ne (Ne.symm hr)]
      exact hret

theorem ticket_afterWait (k : Ticket) (cr : ℕ) : ticket (afterWait k cr) = some k := by
  unfold afterWait
  split_ifs <;> rfl

theorem ticket_afterLoad (c : Limits) (k : Ticket) (cr : ℕ) : ticket (c.afterLoad k cr) = some k := by
  unfold afterLoad
  split_ifs
  · rfl
  · exact ticket_afterWait k cr

section Move
variable (hfits : c.Fits g l) (hcounts : c.Counts g fun w => rest w + w l)
  (hdvd : c.count ∣ g.round) (hbase : c.count ∣ g.base) (hin : l = .enter → g.in_ + 1 < c.word)
  (hmove : c.Moves rest g l g' l')
include hfits hcounts hin hmove

theorem Counts.step : c.Counts g' fun w => rest w + w l' := by
  obtain ⟨hle, hround, hstages, hrunning, hresetting⟩ := hcounts
  have hword := c.fits
  have hpos := c.threshold_pos
  rcases hmove with hstep | ⟨rfl, w, n, hstep, -⟩ <;> cases hstep
  case enter =>
    rw [Nat.mod_eq_of_lt (hin rfl), afterEnter]
    split_ifs
    all_goals
      simp only [holding, queued, atResetRound, atResetOut, atResetIn] at *
      constructor <;> simp only [holding, queued, atResetRound, atResetOut, atResetIn] <;> omega
  case leave =>
    simp only [holding, queued, atResetRound, atResetOut, atResetIn] at *
    rw [Nat.mod_eq_of_lt (by omega), afterLeave]
    split_ifs
    all_goals
      constructor <;> simp only [holding, queued, atResetRound, atResetOut, atResetIn] <;> omega
  all_goals try simp only [afterLoad, afterWait, finished]
  all_goals try split_ifs
  all_goals
    simp only [Fits, Held, holding, queued, atResetRound, atResetOut, atResetIn] at *
    constructor <;>
      (try simp only [holding, queued, atResetRound, atResetOut, atResetIn, implies_true, and_true,
        true_and]) <;>
      omega

include hdvd in
/-- The counters grow in every step but those of a reset, where no call holds a position. -/
theorem Counts.grows : c.entered g ≤ c.entered g' ∧
      (rest holding = 0 ∨ g'.base = g.base ∧ g.in_ ≤ g'.in_ ∧ g.round ≤ g'.round) := by
  obtain ⟨hle, hround, hstages, hrunning, hresetting⟩ := hcounts
  rcases hmove with hstep | ⟨rfl, w, n, hstep, -⟩ <;> cases hstep
  case enter =>
    rw [Nat.mod_eq_of_lt (hin rfl)]
    exact ⟨by simp only [entered]; omega, .inr ⟨rfl, Nat.le_succ _, le_refl _⟩⟩
  case swap hcas =>
    subst hcas
    exact ⟨le_refl _, .inr ⟨rfl, le_refl _, le_swap hfits hdvd⟩⟩
  case resetRound | resetIn =>
    simp only [entered, holding, atResetRound, atResetOut, atResetIn] at *
    omega
  all_goals exact ⟨le_refl _, .inr ⟨rfl, le_refl _, le_refl _⟩⟩

include hdvd hbase in
theorem Fits.step : c.Fits g' l' := by
  have hround := hcounts.round_le
  have hle : g.round ≤ c.threshold := hround.trans (Nat.min_le_right _ _)
  have hentered := (hcounts.grows hfits hdvd hin hmove).1
  rcases hmove with hstep | ⟨rfl, w, n, hstep, -⟩ <;> cases hstep
  case call | returnFull | spuriousFull | sleepFull | finish => trivial
  case enter =>
    rw [Nat.mod_eq_of_lt (hin rfl), afterEnter]
    split_ifs with hfull
    · exact hfull
    · exact ⟨rfl, Nat.succ_pos _, by simp only; omega⟩
  case loadIn =>
    split_ifs with hfull
    · exact hfull
    · trivial
  case loadRound => exact fits_afterLoad hfits hdvd hle
  case swapFails => exact fits_afterLoad hfits.1 hdvd hle
  case swap => exact ⟨hfits.1, le_refl _⟩
  case sleep | waitReturns => exact hfits.1
  case spurious => exact hfits
  case reload => exact fits_afterWait hfits (le_refl _)
  case leave =>
    have hcomplete := complete_of_le hbase hdvd hfits.1 hround hfits.2
    unfold afterLeave
    split_ifs <;> exact hcomplete
  case round => exact fits_afterWait hfits.1 hfits.2
  case resetRound | resetOut | resetIn | in_ => exact Nat.le_trans hfits hentered

theorem Sleeps.step (h : c.Sleeps g fun w => rest w + w l) (hlate : rest (late 0) ≤ rest holding) :
    c.Sleeps g' fun w => rest w + w l' := by
  obtain ⟨hround, hfull⟩ := h
  have hresetting := hcounts.resetting
  have hstages := hcounts.stages
  rcases hmove with hstep | ⟨rfl, w, n, hstep, hall⟩ <;> cases hstep
  case enter =>
    rw [Nat.mod_eq_of_lt (hin rfl), afterEnter]
    split_ifs <;> constructor <;> simp only [late, dormant, waking, wakingIn] at * <;> omega
  all_goals try simp only [afterLoad, afterWait, afterLeave, finished]
  all_goals try split_ifs
  all_goals
    simp only [Fits, Held, late, dormant, waking, wakingIn, holding, atResetRound, atResetOut,
      atResetIn, forall_true_left] at *
    constructor <;> (try simp only [late, dormant, waking, wakingIn]) <;> (try split_ifs) <;> omega

include hdvd in
theorem Advanced.step {m : ℕ} (h : c.Advanced m g fun w => rest w + w l) (hm : c.count ∣ m)
    (hpos : 0 < m) : c.Advanced m g' fun w => rest w + w l' := by
  unfold Advanced at *
  have hround := hcounts.round_le
  have hdone : m < g.round + c.count → m ≤ g.round := fun hlt => Nat.le_of_lt_add_of_dvd hlt hm hdvd
  rcases hmove with hstep | ⟨rfl, w, n, hstep, -⟩ <;> cases hstep
  case enter =>
    rw [Nat.mod_eq_of_lt (hin rfl), afterEnter]
    split_ifs <;> simp only [early, atResetOut, atResetIn] at * <;> (try split_ifs) <;> omega
  case swap k cr hcas =>
    subst hcas
    have hgrow := le_swap hfits hdvd
    simp only [early, atResetOut, atResetIn] at *
    by_cases hmine : k.pos = m
    · rw [hmine, Nat.mod_eq_zero_of_dvd hm]
      omega
    · rw [if_neg hmine] at h
      omega
  all_goals try simp only [afterLoad, afterWait, afterLeave, finished, add_count_mod c (hround.trans
    (Nat.min_le_right _ _))]
  all_goals try split_ifs
  all_goals
    simp only [early, atResetOut, atResetIn] at *
    try split_ifs at *
    all_goals omega

include hbase in
theorem Counted.step {r : ℕ} (h : c.Counted r g fun w => rest w + w l) :
    c.Counted r g' fun w => rest w + w l' := by
  rcases hmove with hstep | ⟨rfl, w, n, hstep, -⟩ <;> cases hstep
  case enter =>
    rw [Nat.mod_eq_of_lt (hin rfl), afterEnter]
    split_ifs with hfull
    · exact h.kept rfl (by simp only [entered]; omega) rfl rfl
    · exact h.enter hbase (Nat.le_of_not_lt hfull)
  case finish => exact h.finish hfits
  case loadIn => split_ifs <;> exact h.kept rfl rfl rfl rfl
  case loadRound | swapFails => exact h.kept (ticket_afterLoad _ _ _) rfl rfl rfl
  case reload | round => exact h.kept (ticket_afterWait _ _) rfl rfl rfl
  case leave => unfold afterLeave; split_ifs <;> exact h.kept rfl rfl rfl rfl
  case resetIn =>
    have hresetting := hcounts.resetting
    have hstages := hcounts.stages
    simp only [atResetRound, atResetOut, atResetIn] at hresetting hstages
    exact h.kept rfl (by simp only [entered]; omega) rfl rfl
  all_goals exact h.kept rfl rfl rfl rfl

end Move

/-! ### Runs -/

variable {locals : T → Local}

omit [DecidableEq T] in
/-- The increment of `in` does not wrap: beyond the threshold every thread adds one at most. -/
theorem Inv.in_lt (h : c.Inv g locals) (hroom : c.threshold + Fintype.card T < c.word) {t : T}
    (hl : locals t = .enter) : g.in_ + 1 < c.word := by
  have hpos : 0 < total atEnter locals := total_pos hl Nat.one_pos
  have hsum := total_add queued atEnter locals
  have hle : total (fun l => queued l + atEnter l) locals ≤ total (fun _ => 1) locals :=
    total_mono (fun l => by cases l <;> simp [queued, atEnter]) locals
  have hcard : total (fun _ => 1) locals = Fintype.card T := by simp [total]
  have hin := h.counts.in_le
  omega

theorem late_zero_le (l : Local) : late 0 l ≤ holding l := by
  cases l <;> simp only [late, holding, le_refl, Nat.zero_le]
  split_ifs <;> decide

theorem dvd_step (hround : c.count ∣ g.round) (hbase : c.count ∣ g.base)
    (hmove : c.Moves rest g l g' l') : c.count ∣ g'.round ∧ c.count ∣ g'.base := by
  rcases hmove with hstep | ⟨rfl, w, n, hstep, -⟩ <;> cases hstep
  case swap => exact ⟨Nat.dvd_sub_mod _, hbase⟩
  case resetRound => exact ⟨Nat.dvd_zero _, hbase⟩
  case resetIn => exact ⟨hround, Nat.dvd_add hbase c.dvd⟩
  all_goals exact ⟨hround, hbase⟩

section
variable (h : c.Inv g locals) (hroom : c.threshold + Fintype.card T < c.word) (t : T)
include h hroom t

theorem Inv.move (hmove : c.Moves (others locals t) g (locals t) g' l') :
    c.Inv g' (Function.update locals t l') := by
  have hin : locals t = .enter → g.in_ + 1 < c.word := h.in_lt hroom
  obtain ⟨hcounts, hround, hbase, hfits, hsleeps, hadvanced, hcounted⟩ := h
  simp only [total_eq_others _ locals t] at hcounts hsleeps hadvanced hcounted
  have hdvd := dvd_step hround hbase hmove
  have hgrows := hcounts.grows (hfits t) hround hin hmove
  constructor <;> try simp only [total_update_eq_others]
  case counts => exact hcounts.step (hfits t) hin hmove
  case round_dvd => exact hdvd.1
  case base_dvd => exact hdvd.2
  case fits =>
    intro u
    rw [Function.update_apply]
    split_ifs with hu
    · exact (hfits t).step hcounts hround hbase hin hmove
    · refine (hfits u).mono hgrows.1 (hgrows.2.imp_left fun hzero => ?_)
      have hle := le_others holding locals hu
      omega
  case sleeps => exact hsleeps.step (hfits t) hcounts hin hmove (others_le late_zero_le locals t)
  case advanced =>
    intro m hm hpos
    exact (hadvanced m hm hpos).step (hfits t) hcounts hround hin hmove hm hpos
  case counted => exact fun r => (hcounted r).step (hfits t) hcounts hbase hin hmove

theorem Inv.thread (hstep : c.Step g (locals t) g' l') : c.Inv g' (Function.update locals t l') :=
  h.move hroom t (.inl hstep)

end

theorem wake_all {w : Word} {n : Amount} (h : Wake g l w n l') : n = .all := by
  cases h <;> rfl

/-- Sleepers may wake up by themselves, so being woken is a step of theirs; then nobody sleeps on the
word any more. -/
theorem Inv.wake {s : State Shared T Local} (h : c.Inv s.shared s.locals)
    (hroom : c.threshold + Fintype.card T < c.word) {t : T} {S : Finset T} {w : Word} {n : Amount}
    (hwake : Wake s.shared (s.locals t) w n l') (hsub : S ⊆ sleepers (program c) w s.locals)
    (hcard : S.card = n.of (sleepers (program c) w s.locals).card) :
    c.Inv s.shared (Function.update (rouse (program c) S s.locals) t l') := by
  have hspurious : ∀ g l k, (program c).sleeping l = some k →
      (program c).step g l g ((program c).woken l) := by
    intro g l k hl
    cases l with
    | asleep => exact .spurious
    | asleepFull => exact .spuriousFull
    | _ => cases hl
  have hroused := rouse_invariant hspurious (I := fun locals => c.Inv s.shared locals)
    (fun locals t l h hstep => h.thread hroom t hstep) hsub h
  rw [wake_all hwake] at hcard
  have hnone : ∀ v : Local → ℕ, (∀ l, sleeping l ≠ some w → v l = 0) →
      others (rouse (program c) S s.locals) t v = 0 := by
    refine fun v hv => Finset.sum_eq_zero fun u _ => hv _ ?_
    obtain ⟨-, hu⟩ | ⟨hu, hsame⟩ := rouse_all hsub hcard u
    · rw [hu]
      change sleeping (woken (s.locals u)) ≠ some w
      cases s.locals u <;> exact (Option.some_ne_none w).symm
    · rw [hsame]
      exact hu
  have hself : rouse (program c) S s.locals t = s.locals t :=
    if_neg (notMem_of_wake (P := program c) hwake hsub)
  refine hroused.move hroom t (.inr ⟨rfl, w, n, hself.symm ▸ hwake, ?_, ?_⟩)
  · rintro rfl
    exact hnone _ (by rintro ⟨⟩ <;> simp [sleeping, late])
  · rintro rfl
    exact hnone _ (by rintro ⟨⟩ <;> simp [sleeping, dormant])

omit [DecidableEq T] in
theorem Inv.start : c.Inv (start : State Shared T Local).shared (start : State Shared T Local).locals := by
  have hzero : ∀ w : Local → ℕ, w .idle = 0 → total w (fun _ : T => Local.idle) = 0 :=
    fun w hw => total_eq_zero fun _ => hw
  have hpos := c.threshold_pos
  constructor <;> simp only [Barrier.start]
  case counts =>
    constructor <;> simp only [hzero queued rfl, hzero holding rfl, hzero atResetRound rfl,
      hzero atResetOut rfl, hzero atResetIn rfl] <;> omega
  case round_dvd | base_dvd => exact Nat.dvd_zero _
  case fits => exact fun _ => trivial
  case sleeps =>
    constructor
    · simp [hzero (late 0) rfl]
    · simp [hzero dormant rfl]
  case advanced =>
    intro m _ hm _ hle
    simp only at hle
    omega
  case counted =>
    intro r
    constructor
    · simp [hzero (c.inside r) rfl, enteredRound, entered]
    · simp [hzero (c.insideSerial r) rfl, ended, entered, c.count_pos.ne']
    · exact fun h => absurd h (Nat.lt_irrefl 0)

theorem inv_of_reached (hroom : c.threshold + Fintype.card T < c.word) {s : State Shared T Local}
    (h : Reached c s) : c.Inv s.shared s.locals := by
  apply h.invariant (I := fun s => c.Inv s.shared s.locals) Inv.start
  · exact fun _ t _ _ hinv => hinv.thread hroom t
  · exact fun _ _ _ _ _ _ hinv => hinv.wake hroom

end Limits

/-! ### What callers rely on -/

def unfinished (l : Local) : Bool := l ≠ .idle

def isAsleep (l : Local) : Bool := (sleeping l).isSome

def resets : Local → Bool
  | .resetRound _ | .resetOut _ | .resetIn _ => true
  | _ => false

/-- A call of a round that can still read or write the counters. -/
def uses (l : Local) : Bool := holding l = 1 || resets l

/-- No counter wraps. No call returns before all calls of its round have entered; of a full round
the calls that returned and those still under way are `count`, and when all have returned, one has
returned `PTHREAD_BARRIER_SERIAL_THREAD`. A reset happens while no other call of a round uses the
counters. When all unfinished calls sleep, they are fewer than `count`, and of every full round all
calls have returned. -/
structure Sound (c : Limits) (s : State Shared T Local) : Prop where
  in_lt : ∀ t, s.locals t = .enter → s.shared.in_ + 1 < c.word
  out_lt : ∀ t k, s.locals t = .leave k → s.shared.out + 1 < c.word
  round_lt : s.shared.round + c.count < c.word
  entered_first : ∀ r, 0 < s.shared.returned r → c.enteredRound s.shared r = c.count
  all_return : ∀ r, c.Complete s.shared r →
    s.shared.returned r + count (fun l => (ticket l).any fun k => c.roundOf k = r) s.locals = c.count
  one_serial : ∀ r, s.shared.returned r = c.count → s.shared.serial r = 1
  serial_le : ∀ r, s.shared.serial r ≤ 1
  reset_alone : ∀ t u, resets (s.locals t) → uses (s.locals u) → u = t
  quiescent : (∀ t, unfinished (s.locals t) → isAsleep (s.locals t)) →
    count unfinished s.locals < c.count ∧
      ∀ r, c.Complete s.shared r → s.shared.returned r = c.count

namespace Limits

variable {c : Limits} {g : Shared} {locals : T → Local}

theorem Inv.reset_alone (h : c.Inv g locals) {t u : T} (ht : resets (locals t))
    (hu : uses (locals u)) : u = t := by
  by_contra hne
  have hround := add_le_total atResetRound locals hne
  have hout := add_le_total atResetOut locals hne
  have hin := add_le_total atResetIn locals hne
  have hholding := le_total holding locals u
  have hone : atResetRound (locals t) + atResetOut (locals t) + atResetIn (locals t) = 1 := by
    generalize locals t = l at ht
    cases l <;> first | rfl | exact absurd ht (by simp [resets])
  have hother : holding (locals u) + atResetRound (locals u) + atResetOut (locals u) +
      atResetIn (locals u) = 1 := by
    generalize locals u = l at hu
    cases l <;> first | rfl | exact absurd hu (by simp [uses, holding, resets])
  have hstages := h.counts.stages
  have hresetting := h.counts.resetting
  omega

omit [DecidableEq T] in
theorem total_of_asleep {w : Local → ℕ} (hw : ∀ l, unfinished l = false ∨ isAsleep l → w l = 0)
    (hall : ∀ t, unfinished (locals t) → isAsleep (locals t)) : total w locals = 0 := by
  apply total_eq_zero
  intro t
  apply hw
  cases hunfinished : unfinished (locals t) with
  | false => exact .inl rfl
  | true => exact .inr (hall t hunfinished)

omit [DecidableEq T] in
/-- When all unfinished calls sleep, they wait for the round that is not yet full. -/
theorem Inv.asleep_of_quiescent (h : c.Inv g locals)
    (hall : ∀ t, unfinished (locals t) → isAsleep (locals t)) :
    c.entered g = g.base + g.in_ ∧ g.in_ < g.round + c.count ∧
      ∀ t, unfinished (locals t) → ∃ k, locals t = .asleep k ∧ k.base = g.base ∧
        g.round < k.pos ∧ k.pos ≤ g.in_ := by
  have hresetRound : total atResetRound locals = 0 :=
    total_of_asleep (by rintro ⟨⟩ <;> simp [unfinished, isAsleep, sleeping, atResetRound]) hall
  have hresetOut : total atResetOut locals = 0 :=
    total_of_asleep (by rintro ⟨⟩ <;> simp [unfinished, isAsleep, sleeping, atResetOut]) hall
  have hresetIn : total atResetIn locals = 0 :=
    total_of_asleep (by rintro ⟨⟩ <;> simp [unfinished, isAsleep, sleeping, atResetIn]) hall
  have hwaking : total waking locals = 0 :=
    total_of_asleep (by rintro ⟨⟩ <;> simp [unfinished, isAsleep, sleeping, waking]) hall
  have hwakingIn : total wakingIn locals = 0 :=
    total_of_asleep (by rintro ⟨⟩ <;> simp [unfinished, isAsleep, sleeping, wakingIn]) hall
  have hearly (m : ℕ) : total (early m) locals = 0 :=
    total_of_asleep (by rintro ⟨⟩ <;> simp [unfinished, isAsleep, sleeping, early]) hall
  have hpos : ∀ t k, locals t = .asleep k → g.round < k.pos := by
    intro t k ht
    by_contra hle
    have := h.sleeps.onRound (total_pos ht (by simp [late, Nat.le_of_not_lt hle]))
    omega
  -- `current_round` is at the last full round
  have hlast : min g.in_ c.threshold < g.round + c.count := by
    have hmod := Nat.mod_lt (min g.in_ c.threshold) c.count_pos
    have hle := Nat.mod_le (min g.in_ c.threshold) c.count
    by_cases hzero : min g.in_ c.threshold - min g.in_ c.threshold % c.count = 0
    · omega
    · have hadvanced : _ ∨ 0 < total (early _) locals :=
        h.advanced (min g.in_ c.threshold - min g.in_ c.threshold % c.count) (Nat.dvd_sub_mod _) (by omega)
          (by simp only [hresetOut, hresetIn]) (Nat.sub_le _ _)
      rw [hearly] at hadvanced
      omega
  have hheld : ∀ t k, locals t = .asleep k → c.Held g k := by
    intro t k ht
    have hfits := h.fits t
    rwa [ht] at hfits
  -- a full cycle would have been reset
  have hin : g.in_ < c.threshold := by
    by_contra hge
    have hmin : min g.in_ c.threshold = c.threshold := by omega
    have hround : c.threshold ≤ g.round :=
      Nat.le_of_lt_add_of_dvd (hmin ▸ hlast) c.dvd h.round_dvd
    have hnone : total holding locals = 0 := by
      apply total_eq_zero
      intro t
      have hasleep := hall t
      have hposition := hpos t
      have hle := hheld t
      generalize locals t = l at hasleep hposition hle
      cases l with
      | asleep k =>
        have h1 := hposition k rfl
        have h2 := (hle k rfl).2.2
        omega
      | loadRound | swap | wake | wait | reload | leave =>
        exact absurd (hasleep rfl) (by simp [isAsleep, sleeping])
      | _ => rfl
    have hrunning := h.counts.running
    omega
  refine ⟨?_, by omega, ?_⟩
  · rw [entered]
    omega
  · intro t ht
    have hasleep := hall t ht
    cases hl : locals t with
    | asleep k =>
      have hk := hheld t k hl
      exact ⟨k, rfl, hk.1, hpos t k hl, hk.2.2.trans (Nat.min_le_left _ _)⟩
    | asleepFull =>
      have := h.sleeps.onIn (total_pos hl Nat.one_pos) hin.le
      omega
    | _ => rw [hl] at hasleep ht; exact absurd hasleep (by simp_all [isAsleep, sleeping, unfinished])

omit [DecidableEq T] in
theorem Inv.roundOf_asleep (h : c.Inv g locals) {k : Ticket} (hbase : k.base = g.base)
    (hpos : g.round < k.pos) (hle : k.pos < g.round + c.count) :
    c.roundOf k = (g.base + g.round) / c.count := by
  obtain ⟨n, hn⟩ := Nat.dvd_add h.base_dvd h.round_dvd
  have hoffset : k.base + k.pos - 1 = c.count * n + (k.pos - 1 - g.round) := by omega
  rw [roundOf, hoffset, hn, Nat.mul_add_div c.count_pos, Nat.mul_div_cancel_left n c.count_pos,
    Nat.div_eq_of_lt (by omega), Nat.add_zero]

omit [DecidableEq T] in
theorem Inv.quiescent (h : c.Inv g locals)
    (hall : ∀ t, unfinished (locals t) → isAsleep (locals t)) :
    Interleaving.count unfinished locals < c.count ∧
      ∀ r, c.Complete g r → g.returned r = c.count := by
  obtain ⟨hentered, hlast, hasleep⟩ := h.asleep_of_quiescent hall
  obtain ⟨r₀, hr₀⟩ : ∃ r₀, r₀ = (g.base + g.round) / c.count := ⟨_, rfl⟩
  have hround : ∀ t k, unfinished (locals t) → ticket (locals t) = some k → c.roundOf k = r₀ := by
    intro t k ht hk
    obtain ⟨k', hl, hbase, hpos, hle⟩ := hasleep t ht
    rw [hl] at hk
    injection hk with hk
    subst hk
    rw [hr₀]
    exact h.roundOf_asleep hbase hpos (by omega)
  have hmul : r₀ * c.count = g.base + g.round := by
    rw [hr₀]
    exact Nat.div_mul_cancel (Nat.dvd_add h.base_dvd h.round_dvd)
  constructor
  · have hle : total (fun l => (unfinished l).toNat) locals ≤ total (c.inside r₀) locals := by
      apply Finset.sum_le_sum
      intro t _
      cases ht : unfinished (locals t) with
      | false => simp [ht]
      | true =>
        obtain ⟨k, hl, -⟩ := hasleep t ht
        have hk := hround t k ht (by rw [hl]; rfl)
        rw [inside, hl]
        simp [ticket, hk, Bool.toNat_le]
    have hcount := (h.counted r₀).counted
    have hpos := c.count_pos
    rw [enteredRound, hentered, hmul] at hcount
    rw [count_eq_total (fun _ => rfl)]
    omega
  · intro r hr
    have hnot : ¬c.Complete g r₀ := by
      rw [Complete, hentered, Nat.add_mul, Nat.one_mul, hmul]
      omega
    have hzero : total (c.inside r) locals = 0 := by
      apply total_eq_zero
      intro t
      cases hk : ticket (locals t) with
      | none => rw [inside, hk]; rfl
      | some k =>
        have ht : unfinished (locals t) := by
          generalize locals t = l at hk
          cases l <;> first | rfl | exact absurd hk (by simp [ticket])
        have hne : c.roundOf k ≠ r := by
          intro heq
          rw [← heq, hround t k ht hk] at hr
          exact hnot hr
        rw [inside, hk]
        simp [hne]
    have hcount := (h.counted r).counted
    rw [c.enteredRound_of_complete hr] at hcount
    omega

end Limits

/-- The barrier, whatever its count, the threads and the order of their steps, through any number of
resets. -/
theorem barrier_sound {c : Limits} (hroom : c.threshold + Fintype.card T < c.word)
    {s : State Shared T Local} (h : Reached c s) : Sound c s := by
  have hinv := Limits.inv_of_reached hroom h
  have hword := c.fits
  constructor
  case in_lt => exact fun t ht => hinv.in_lt hroom ht
  case out_lt =>
    intro t k ht
    have hholding : 0 < total holding s.locals := total_pos ht Nat.one_pos
    have hcounts := hinv.counts
    have hstages := hcounts.stages
    have hrunning := hcounts.running
    have hresetting := hcounts.resetting
    omega
  case round_lt =>
    have := hinv.counts.round_le
    omega
  case entered_first => exact fun r hr => c.enteredRound_of_complete ((hinv.counted r).returned hr)
  case all_return =>
    intro r hr
    rw [count_eq_total (w := c.inside r) (fun _ => rfl), ← c.enteredRound_of_complete hr]
    exact (hinv.counted r).counted
  case one_serial =>
    intro r hr
    have hcomplete := (hinv.counted r).returned (hr ▸ c.count_pos)
    have hcounted := (hinv.counted r).counted
    have hserial := (hinv.counted r).serial
    have hle : total (c.insideSerial r) s.locals ≤ total (c.inside r) s.locals := by
      apply total_mono
      intro l
      unfold Limits.insideSerial Limits.inside
      cases ticket l with
      | none => exact le_refl _
      | some k => by_cases hk : c.roundOf k = r <;> simp [hk, Bool.toNat_le]
    rw [c.enteredRound_of_complete hcomplete] at hcounted
    unfold Limits.Complete at hcomplete
    rw [Limits.ended, decide_eq_true hcomplete, Bool.toNat_true] at hserial
    omega
  case serial_le =>
    intro r
    have hserial := (hinv.counted r).serial
    have hle : c.ended (c.entered s.shared) r ≤ 1 := Bool.toNat_le _
    omega
  case reset_alone => exact fun t u ht hu => hinv.reset_alone ht hu
  case quiescent => exact fun hall => hinv.quiescent hall

/-- Of two calls on a barrier for two, the first one sleeps. -/
theorem barrier_sound_sleeper :
    ∃ (c : Limits) (s : State Shared (Fin 2) Local), Reached c s ∧
      s.locals 0 = .asleep ⟨0, 1⟩ ∧ c.threshold + Fintype.card (Fin 2) < c.word ∧ Sound c s := by
  have hreached : Reached (T := Fin 2) (Limits.ofCount 2 (by decide) (by decide)) _ :=
    .head (.thread 0 .call) <| .head (.thread 0 .enter) <| .head (.thread 0 .loadRound) <|
    .head (.thread 0 (.sleep rfl)) .refl
  exact ⟨_, _, hreached, rfl, by decide, barrier_sound (by decide) hreached⟩

end AwaitGlibc.Barrier

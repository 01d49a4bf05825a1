import AwaitGlibc.Semaphore

/-! Tokens are conserved, waiters are counted, and no wait sleeps beside a token
that nobody is about to hand out. In both variants the last point rests on one
inequality: as long as somebody is asleep, each token is matched by a wake-up
that is still to be made or by a waiter that is awake and has not yet seen the
semaphore empty. With 32-bit atomics it may be suspended while a leaving waiter
has removed the waiters bit and not yet noticed that it was not the last. -/
namespace AwaitGlibc.Semaphore
open Interleaving

namespace Atomics64

/-- Registered as a waiter and not asleep. -/
def stirring : Local → ℕ
  | .slowLoop _ | .woken | .reload | .unregister => 1
  | _ => 0

def dormant : Local → ℕ
  | .asleep => 1
  | _ => 0

/-- Awake, and will try to take a token before it sleeps. -/
def alert : Local → ℕ
  | .woken | .reload => 1
  | .slowLoop d => min 1 d.value
  | _ => 0

def waking : Local → ℕ
  | .postWake => 1
  | _ => 0

/-- A post that has added its token and not returned. -/
def gave : Local → ℕ
  | .postWake | .postReturn => 1
  | _ => 0

/-- A wait that has taken its token and not returned. -/
def holds : Local → ℕ
  | .waitReturn => 1
  | _ => 0

variable {T : Type} [Fintype T]

structure Inv (start : ℕ) (s : State Shared T Local) : Prop where
  waiters : s.shared.data.nwaiters = total dormant s.locals + total stirring s.locals
  value_le : s.shared.data.value ≤ semValueMax
  conserved : s.shared.data.value + s.shared.waited + total holds s.locals
    = start + s.shared.posted + total gave s.locals
  matched : 0 < total dormant s.locals →
    s.shared.data.value ≤ total waking s.locals + total alert s.locals

variable [DecidableEq T] {start : ℕ} {s : State Shared T Local}

theorem Inv.thread (h : Inv start s) (t : T) {g : Shared} {l : Local}
    (hstep : Step s.shared (s.locals t) g l) : Inv start ⟨g, Function.update s.locals t l⟩ := by
  obtain ⟨hw, hv, hc, hm⟩ := h
  simp only [total_eq_others _ s.locals t] at hw hc hm
  generalize s.locals t = l₀ at hstep hw hc hm
  -- every step moves one thread, so each case is linear in the totals
  cases hstep
  all_goals
    first | split_ifs at * | skip
  all_goals
    try subst_vars
    constructor <;> simp only [total_update_eq_others, dormant, stirring, alert, waking, gave,
      holds] at * <;> omega

theorem eq_asleep (l : Local) (h : program.sleeping l = some ()) : l = .asleep := by
  cases l <;> first | rfl | exact absurd h nofun

theorem Inv.wake (h : Inv start s) {t : T} {S : Finset T} {n : Amount} {l : Local}
    (hwake : Wake s.shared (s.locals t) () n l) (hsub : S ⊆ sleepers program () s.locals)
    (hcard : S.card = n.of (sleepers program () s.locals).card) :
    Inv start ⟨s.shared, Function.update (rouse program S s.locals) t l⟩ := by
  obtain ⟨rest, hbefore, hafter⟩ := total_wake eq_asleep hwake hsub
  obtain ⟨hw, hv, hc, hm⟩ := h
  rw [card_sleepers program () (w := dormant) (by rintro ⟨⟩ <;> rfl)] at hcard
  simp only [hbefore] at hw hc hm hcard
  generalize s.locals t = l₀ at hwake hw hc hm hcard
  refine ⟨?_, hv, ?_, ?_⟩ <;> simp only [hafter] <;> cases hwake <;>
    simp only [dormant, stirring, alert, waking, gave, holds, program, Amount.of] at * <;> omega

end Atomics64

namespace Split32

def dormant : Local → ℕ
  | .asleep => 1
  | _ => 0

def stirring : Local → ℕ
  | .load | .setBit _ | .bitSet _ | .woken | .reload => 1
  | .finish _ | .clearBit _ | .unregister _ _ => 1
  | _ => 0

def alert : Local → ℕ
  | .load | .woken | .reload => 1
  | .setBit v | .bitSet v => min 1 (tokens v)
  | _ => 0

/-- The number of waiters the thread is about to wake. -/
def waking : Local → ℕ
  | .postWake => 1
  | .finishWake _ n => n
  | _ => 0

/-- Has removed the waiters bit and will set it again if it was not the last. -/
def repairing : Local → ℕ
  | .unregister _ guess => guess.toNat
  | .restoreBit _ => 1
  | _ => 0

def gave : Local → ℕ
  | .postWake | .postReturn => 1
  | _ => 0

def holds : Local → ℕ
  | .finish took | .clearBit took | .unregister took _ => took.toNat
  | .restoreBit took | .finishWake took _ | .waitReturn took => took.toNat
  | _ => 0

variable {T : Type} [Fintype T]

structure Inv (start : ℕ) (s : State Shared T Local) : Prop where
  waiters : s.shared.nwaiters = total dormant s.locals + total stirring s.locals
  tokens_le : tokens s.shared.value ≤ semValueMax
  conserved : tokens s.shared.value + s.shared.waited + total holds s.locals
    = start + s.shared.posted + total gave s.locals
  matched : 0 < total dormant s.locals → 0 < total repairing s.locals ∨
    (waitersBit s.shared.value = 1 ∧
      tokens s.shared.value ≤ total waking s.locals + total alert s.locals)

variable [DecidableEq T] {start : ℕ} {s : State Shared T Local}

theorem Inv.thread (h : Inv start s) (t : T) {g : Shared} {l : Local}
    (hstep : Step s.shared (s.locals t) g l) : Inv start ⟨g, Function.update s.locals t l⟩ := by
  obtain ⟨hw, hv, hc, hm⟩ := h
  simp only [total_eq_others _ s.locals t] at hw hc hm
  generalize s.locals t = l₀ at hstep hw hc hm
  cases hstep
  case unregister took guess =>
    -- a guess that was right means that nobody else is registered
    cases guess <;> split_ifs at * <;> constructor <;>
      simp only [total_update_eq_others, dormant, stirring, alert, waking, repairing, gave, holds,
        Bool.toNat_true, Bool.toNat_false, and_true, and_false, not_false_iff] at * <;> omega
  all_goals
    first | split_ifs at * | skip
  all_goals
    try subst_vars
    constructor <;>
      simp only [total_update_eq_others, dormant, stirring, alert, waking, repairing, gave, holds,
        tokens, waitersBit, semValueMax, Bool.toNat_true, Bool.toNat_false] at * <;> omega

theorem eq_asleep (l : Local) (h : program.sleeping l = some ()) : l = .asleep := by
  cases l <;> first | rfl | exact absurd h nofun

theorem Inv.wake (h : Inv start s) {t : T} {S : Finset T} {n : Amount} {l : Local}
    (hwake : Wake s.shared (s.locals t) () n l) (hsub : S ⊆ sleepers program () s.locals)
    (hcard : S.card = n.of (sleepers program () s.locals).card) :
    Inv start ⟨s.shared, Function.update (rouse program S s.locals) t l⟩ := by
  obtain ⟨rest, hbefore, hafter⟩ := total_wake eq_asleep hwake hsub
  obtain ⟨hw, hv, hc, hm⟩ := h
  rw [card_sleepers program () (w := dormant) (by rintro ⟨⟩ <;> rfl)] at hcard
  simp only [hbefore] at hw hc hm hcard
  generalize s.locals t = l₀ at hwake hw hc hm hcard
  refine ⟨?_, hv, ?_, ?_⟩ <;> simp only [hafter] <;> cases hwake <;> simp only [dormant, stirring,
    alert, waking, repairing, gave, holds, program, Amount.of] at * <;> omega

end Split32

/-! ### Both variants -/

/-- What is said about a semaphore, whatever its variant: its tokens and recorded
waiters, the calls that have returned zero, and where a thread stands in its call. -/
structure Variant (G L : Type) where
  program : Program G L Unit
  /-- `sem_init` -/
  init : ℕ → Option G
  idle : L
  tokens : G → ℕ
  waiters : G → ℕ
  posted : G → ℕ
  waited : G → ℕ
  /-- inside `sem_post` -/
  posting : L → Bool
  /-- inside `sem_post`, the token added -/
  gave : L → Bool
  /-- inside `sem_wait`, `sem_timedwait` or `sem_trywait` -/
  waiting : L → Bool
  /-- recorded as a waiter -/
  registered : L → Bool
  /-- inside a wait, the token taken -/
  holds : L → Bool

namespace Atomics64

def semInit (value : ℕ) : Option Shared :=
  if semValueMax < value then none else some ⟨⟨value, 0⟩, 0, 0⟩

def posting : Local → Bool
  | .postLoad | .postLoop _ | .postWake | .postReturn => true
  | _ => false

def waiting (l : Local) : Bool :=
  l ≠ .idle && !posting l

def variant : Variant Shared Local where
  program := program
  init := semInit
  idle := .idle
  tokens g := g.data.value
  waiters g := g.data.nwaiters
  posted := Shared.posted
  waited := Shared.waited
  posting := posting
  gave l := gave l = 1
  waiting := waiting
  registered l := dormant l + stirring l = 1
  holds l := holds l = 1

end Atomics64

namespace Split32

def semInit (value : ℕ) : Option Shared :=
  if semValueMax < value then none else some ⟨value * 2, 0, 0, 0⟩

def posting : Local → Bool
  | .postLoad | .postLoop _ | .postWake | .postReturn => true
  | _ => false

def waiting (l : Local) : Bool :=
  l ≠ .idle && !posting l

def variant : Variant Shared Local where
  program := program
  init := semInit
  idle := .idle
  tokens g := tokens g.value
  waiters := Shared.nwaiters
  posted := Shared.posted
  waited := Shared.waited
  posting := posting
  gave l := gave l = 1
  waiting := waiting
  registered l := dormant l + stirring l = 1
  holds l := holds l = 1

end Split32

variable {T : Type} [Fintype T] {G L : Type}

def Variant.start (v : Variant G L) (g : G) : State G T L :=
  ⟨g, fun _ => v.idle⟩

/-- Tokens are conserved and bounded, waiters are counted, and a token is never
left beside sleeping waiters when no post is under way. -/
structure Sound (v : Variant G L) (value : ℕ) (s : State G T L) : Prop where
  conserved : v.tokens s.shared + (v.waited s.shared + count v.holds s.locals)
    = value + (v.posted s.shared + count v.gave s.locals)
  tokens_le : v.tokens s.shared ≤ semValueMax
  waiters : v.waiters s.shared = count v.registered s.locals
  not_stuck : 0 < v.tokens s.shared → (∃ t, v.waiting (s.locals t)) →
    (∀ t, v.waiting (s.locals t) → v.program.sleeping (s.locals t) = some ()) →
    ∃ t, v.posting (s.locals t)

theorem Variant.total_start (v : Variant G L) {g : G} {w : L → ℕ} (hw : w v.idle = 0) :
    total w (v.start g : State G T L).locals = 0 :=
  total_eq_zero fun _ => hw

/-- When no post is under way and every wait sleeps, all threads are idle or `asleep`. -/
theorem Sound.of_totals {v : Variant G L} {value : ℕ} {s : State G T L} (asleep : L)
    {gave holds dormant stirring : L → ℕ} (hgave : ∀ l, (v.gave l).toNat = gave l)
    (hholds : ∀ l, (v.holds l).toNat = holds l)
    (hregistered : ∀ l, (v.registered l).toNat = dormant l + stirring l)
    (hasleep : ∀ l, v.program.sleeping l = some () → 0 < dormant l)
    (hquiet : ∀ l, ¬ v.posting l → (v.waiting l → v.program.sleeping l = some ()) →
      l = v.idle ∨ l = asleep)
    (hconserved : v.tokens s.shared + v.waited s.shared + total holds s.locals
      = value + v.posted s.shared + total gave s.locals)
    (htokens : v.tokens s.shared ≤ semValueMax)
    (hwaiters : v.waiters s.shared = total dormant s.locals + total stirring s.locals)
    (hmatched : 0 < total dormant s.locals →
      (∀ w : L → ℕ, w v.idle = 0 → w asleep = 0 → total w s.locals = 0) →
      v.tokens s.shared = 0) : Sound v value s := by
  constructor
  case conserved =>
    rw [count_eq_total hgave, count_eq_total hholds]
    omega
  case tokens_le => exact htokens
  case waiters =>
    rw [count_eq_total hregistered, total_add]
    exact hwaiters
  case not_stuck =>
    rintro hpos ⟨t, ht⟩ hall
    by_contra hnone
    push Not at hnone
    apply hpos.ne'
    refine hmatched (total_pos rfl (hasleep _ (hall t ht))) fun w hidle hbed => ?_
    apply total_eq_zero
    intro u
    obtain hu | hu := hquiet _ (hnone u) (hall u)
    · rw [hu, hidle]
    · rw [hu, hbed]

namespace Atomics64
variable {start : ℕ} {s : State Shared T Local}

theorem inv_start {g : Shared} (h : semInit start = some g) :
    Inv start (variant.start g : State Shared T Local) := by
  obtain ⟨hle, hg⟩ := Option.ite_none_left_eq_some.mp h
  cases hg
  constructor
  case waiters => rw [variant.total_start rfl, variant.total_start rfl]; rfl
  case value_le => exact Nat.le_of_not_lt hle
  case conserved => rw [variant.total_start rfl, variant.total_start rfl]; rfl
  case matched => rw [variant.total_start rfl]; exact fun h => absurd h (Nat.lt_irrefl 0)

theorem Inv.sound (h : Inv start s) : Sound variant start s := by
  refine Sound.of_totals .asleep (fun l => ?_) (fun l => ?_) (fun l => ?_) (fun l hl => ?_)
    (fun l hpost hwait => ?_) h.conserved h.value_le h.waiters fun hdormant hzero => ?_
  · cases l <;> rfl
  · cases l <;> rfl
  · cases l <;> rfl
  · rw [eq_asleep l hl]
    exact Nat.one_pos
  · cases l <;> first | exact .inl rfl | exact .inr rfl | exact absurd rfl hpost |
      exact absurd (hwait rfl) nofun
  · have hmatched := h.matched hdormant
    rw [hzero waking rfl rfl, hzero alert rfl rfl] at hmatched
    simp only [variant]
    omega

end Atomics64

namespace Split32
variable {start : ℕ} {s : State Shared T Local}

theorem inv_start {g : Shared} (h : semInit start = some g) :
    Inv start (variant.start g : State Shared T Local) := by
  obtain ⟨hle, hg⟩ := Option.ite_none_left_eq_some.mp h
  cases hg
  have htokens : tokens (start * 2) = start := Nat.mul_div_cancel start Nat.two_pos
  constructor
  case waiters => rw [variant.total_start rfl, variant.total_start rfl]; rfl
  case tokens_le => exact htokens.symm ▸ Nat.le_of_not_lt hle
  case conserved => rw [variant.total_start rfl, variant.total_start rfl]; exact htokens
  case matched => rw [variant.total_start rfl]; exact fun h => absurd h (Nat.lt_irrefl 0)

theorem Inv.sound (h : Inv start s) : Sound variant start s := by
  refine Sound.of_totals .asleep (fun l => ?_) (fun l => ?_) (fun l => ?_) (fun l hl => ?_)
    (fun l hpost hwait => ?_) h.conserved h.tokens_le h.waiters fun hdormant hzero => ?_
  · cases l <;> rfl
  · cases l <;> first | rfl | (rename_i took; cases took <;> rfl) |
      (rename_i took _; cases took <;> rfl)
  · cases l <;> rfl
  · rw [eq_asleep l hl]
    exact Nat.one_pos
  · cases l <;> first | exact .inl rfl | exact .inr rfl | exact absurd rfl hpost |
      exact absurd (hwait rfl) nofun
  · have hmatched := h.matched hdormant
    rw [hzero repairing rfl rfl, hzero waking rfl rfl, hzero alert rfl rfl] at hmatched
    simp only [variant]
    omega

end Split32

variable [DecidableEq T]

/-- In both variants, whatever the initial value, the threads and the order of
their steps. -/
theorem semaphore_sound (value : ℕ) :
    (∀ g, Atomics64.variant.init value = some g → ∀ s : State Atomics64.Shared T Atomics64.Local,
      Reachable Atomics64.program (Atomics64.variant.start g) s →
        Sound Atomics64.variant value s) ∧
    (∀ g, Split32.variant.init value = some g → ∀ s : State Split32.Shared T Split32.Local,
      Reachable Split32.program (Split32.variant.start g) s → Sound Split32.variant value s) := by
  constructor
  · intro g hinit s hreach
    exact (hreach.invariant (Atomics64.inv_start hinit) (fun _ t _ _ h => h.thread t)
      fun _ _ _ _ _ _ h => h.wake).sound
  · intro g hinit s hreach
    exact (hreach.invariant (Split32.inv_start hinit) (fun _ t _ _ h => h.thread t)
      fun _ _ _ _ _ _ h => h.wake).sound

/-- A semaphore that starts empty: one thread registers and sleeps, the other adds a
token and is about to wake it. -/
theorem semaphore_sound_wakes :
    (∃ s : State Atomics64.Shared (Fin 2) Atomics64.Local, s.shared = ⟨⟨1, 1⟩, 0, 0⟩ ∧
      s.locals 0 = .asleep ∧ s.locals 1 = .postWake ∧ Sound Atomics64.variant 0 s) ∧
    (∃ s : State Split32.Shared (Fin 2) Split32.Local, s.shared = ⟨3, 1, 0, 0⟩ ∧
      s.locals 0 = .asleep ∧ s.locals 1 = .postWake ∧ Sound Split32.variant 0 s) := by
  constructor
  · refine ⟨_, ?_, ?_, ?_, (semaphore_sound 0).1 _ rfl _ (.head (.thread 0 (.wait false)) <|
      .head (.thread 0 .fastLoad) <| .head (.thread 0 (.fastEmpty rfl)) <|
      .head (.thread 0 .register) <| .head (.thread 0 (.sleep rfl rfl)) <|
      .head (.thread 1 .post) <| .head (.thread 1 .postLoad) <|
      .head (.thread 1 (.postAdd nofun rfl)) .refl)⟩ <;> rfl
  · refine ⟨_, ?_, ?_, ?_, (semaphore_sound 0).2 _ rfl _ (.head (.thread 0 (.wait false)) <|
      .head (.thread 0 .fastLoad) <| .head (.thread 0 (.fastEmpty rfl)) <|
      .head (.thread 0 .register) <| .head (.thread 0 .load) <|
      .head (.thread 0 (.setBit rfl rfl)) <| .head (.thread 0 (.sleep rfl rfl)) <|
      .head (.thread 1 .post) <| .head (.thread 1 .postLoad) <|
      .head (.thread 1 (.postAdd nofun rfl)) .refl)⟩ <;> rfl

end AwaitGlibc.Semaphore

import Mathlib

/-! Threads over shared memory with futexes. A program says what one step of a
single thread does: read or write the shared memory atomically, or wake
sleepers. Any number of threads runs the program, one step of one thread at a
time. A thread that is asleep has called the futex wait system call and the
kernel found the word unchanged; a thread that was woken has been taken off the
queue and returns zero, whatever happens to its time-out.

Invariants of such systems count threads. `total w` adds up a weight of the
local states; each kind of step changes it by the weights of the threads that
moved. -/
namespace AwaitGlibc.Interleaving

/-- How many sleepers a wake-up asks for. `INT_MAX` in the source means all of them:
thread ids are of type `int`. -/
inductive Amount where
  | upTo (n : ℕ)
  | all

def Amount.of : Amount → ℕ → ℕ
  | .upTo n, sleeping => min n sleeping
  | .all, sleeping => sleeping

/-- The program of a thread over the shared memory `G`, with local states `L`
and futex words `K`. -/
structure Program (G L K : Type) where
  /-- a step of one thread -/
  step : G → L → G → L → Prop
  /-- a call that wakes up to a number of the threads asleep on a word -/
  wake : G → L → K → Amount → L → Prop
  /-- the word the thread is asleep on -/
  sleeping : L → Option K
  /-- where a thread goes on that is woken -/
  woken : L → L
  wake_awake : ∀ {g l k n l'}, wake g l k n l' → sleeping l = none

structure State (G T L : Type) where
  shared : G
  locals : T → L

variable {G T L K : Type} [Fintype T]

def total (w : L → ℕ) (locals : T → L) : ℕ :=
  ∑ t, w (locals t)

def sleepers [DecidableEq K] (P : Program G L K) (k : K) (locals : T → L) : Finset T :=
  {t | P.sleeping (locals t) = some k}

/-! ### Totals -/

theorem total_add (w w' : L → ℕ) (locals : T → L) :
    total (fun l => w l + w' l) locals = total w locals + total w' locals :=
  Finset.sum_add_distrib

theorem le_total (w : L → ℕ) (locals : T → L) (t : T) : w (locals t) ≤ total w locals :=
  Finset.single_le_sum (f := fun u => w (locals u)) (fun _ _ => Nat.zero_le _) (Finset.mem_univ t)

variable {w : L → ℕ} {t : T} {l : L}

theorem total_pos {locals : T → L} (hl : locals t = l) (hw : 0 < w l) :
    0 < total w locals :=
  lt_of_lt_of_le (hl.symm ▸ hw) (le_total w locals t)

theorem exists_of_total_pos {locals : T → L} (h : 0 < total w locals) :
    ∃ t, 0 < w (locals t) := by
  by_contra hnone
  push Not at hnone
  have hzero : total w locals = 0 :=
    Finset.sum_eq_zero fun t _ => Nat.le_zero.mp (hnone t)
  omega

theorem total_eq_zero {locals : T → L} (h : ∀ t, w (locals t) = 0) :
    total w locals = 0 :=
  Finset.sum_eq_zero fun t _ => h t

theorem total_mono {w' : L → ℕ} (h : ∀ l, w l ≤ w' l) (locals : T → L) :
    total w locals ≤ total w' locals :=
  Finset.sum_le_sum fun t _ => h (locals t)

def count (p : L → Bool) (locals : T → L) : ℕ :=
  (Finset.univ.filter fun t => p (locals t)).card

theorem count_eq_total {p : L → Bool} (h : ∀ l, (p l).toNat = w l)
    (locals : T → L) : count p locals = total w locals := by
  rw [count, Finset.card_filter, total]
  refine Finset.sum_congr rfl fun t _ => ?_
  rw [← h]
  cases p (locals t) <;> rfl

theorem card_sleepers [DecidableEq K] (P : Program G L K) (k : K)
    (hw : ∀ l, w l = if P.sleeping l = some k then 1 else 0) (locals : T → L) :
    (sleepers P k locals).card = total w locals := by
  rw [funext hw]
  exact Finset.card_filter _ _

variable {s : State G T L} {n : Amount}

theorem notMem_of_wake [DecidableEq K] {P : Program G L K} {k : K} {S : Finset T}
    (h : P.wake s.shared (s.locals t) k n l) (hsub : S ⊆ sleepers P k s.locals) : t ∉ S := by
  intro ht
  have hmem := hsub ht
  rw [sleepers, Finset.mem_filter, P.wake_awake h] at hmem
  exact absurd hmem.2 nofun

/-! ### Steps -/

variable [DecidableEq T]

def rouse (P : Program G L K) (S : Finset T) (locals : T → L) : T → L :=
  fun t => if t ∈ S then P.woken (locals t) else locals t

/-- One step of one thread. A wake-up reaches as many sleepers as it asks for, or
all of them; which ones is open. -/
inductive Step [DecidableEq K] (P : Program G L K) : State G T L → State G T L → Prop
  | thread {s : State G T L} (t : T) {g : G} {l : L} (h : P.step s.shared (s.locals t) g l) :
      Step P s ⟨g, Function.update s.locals t l⟩
  | wake {s : State G T L} (t : T) (S : Finset T) {k : K} {n : Amount} {l : L}
      (h : P.wake s.shared (s.locals t) k n l) (hsub : S ⊆ sleepers P k s.locals)
      (hcard : S.card = n.of (sleepers P k s.locals).card) :
      Step P s ⟨s.shared, Function.update (rouse P S s.locals) t l⟩

def Reachable [DecidableEq K] (P : Program G L K) (s s' : State G T L) : Prop :=
  Relation.ReflTransGen (Step P) s s'

/-- What holds at the start and is kept by every step holds in every reachable
state. -/
theorem Reachable.invariant [DecidableEq K] {P : Program G L K} {I : State G T L → Prop}
    {s' : State G T L} (h : Reachable P s s') (hstart : I s)
    (hthread : ∀ s t g l, I s → P.step s.shared (s.locals t) g l →
      I ⟨g, Function.update s.locals t l⟩)
    (hwake : ∀ s t S k n l, I s → P.wake s.shared (s.locals t) k n l →
      S ⊆ sleepers P k s.locals → S.card = n.of (sleepers P k s.locals).card →
      I ⟨s.shared, Function.update (rouse P S s.locals) t l⟩) : I s' := by
  induction h with
  | refl => exact hstart
  | tail _ hstep ih =>
    cases hstep with
    | thread t h => exact hthread _ t _ _ ih h
    | wake t S h hsub hcard => exact hwake _ t S _ _ _ ih h hsub hcard

def others (locals : T → L) (t : T) (w : L → ℕ) : ℕ :=
  ∑ u ∈ Finset.univ.erase t, w (locals u)

theorem total_eq_others (w : L → ℕ) (locals : T → L) (t : T) :
    total w locals = others locals t w + w (locals t) :=
  (Finset.sum_erase_add _ _ (Finset.mem_univ t)).symm

theorem total_update_eq_others (w : L → ℕ) (locals : T → L) (t : T) (l : L) :
    total w (Function.update locals t l) = others locals t w + w l := by
  have hother : ∀ u ∈ Finset.univ.erase t, w (Function.update locals t l u) = w (locals u) :=
    fun u hu => by rw [Function.update_of_ne (Finset.ne_of_mem_erase hu)]
  rw [total_eq_others w _ t, Function.update_self, others, others, Finset.sum_congr rfl hother]

theorem le_others (w : L → ℕ) (locals : T → L) {u : T} (h : u ≠ t) :
    w (locals u) ≤ others locals t w :=
  Finset.single_le_sum (f := fun v => w (locals v)) (fun _ _ => Nat.zero_le _)
    (Finset.mem_erase.mpr ⟨h, Finset.mem_univ u⟩)

theorem add_le_total (w : L → ℕ) (locals : T → L) {u : T} (h : t ≠ u) :
    w (locals t) + w (locals u) ≤ total w locals := by
  rw [total_eq_others w locals t, Nat.add_comm]
  exact Nat.add_le_add_right (le_others w locals h.symm) _

theorem others_le {w' : L → ℕ} (h : ∀ l, w l ≤ w' l) (locals : T → L) (t : T) :
    others locals t w ≤ others locals t w' :=
  Finset.sum_le_sum fun u _ => h (locals u)

section Rouse
variable [DecidableEq K] {P : Program G L K} {k : K} {S : Finset T} {locals : T → L}

/-- A wake-up moves the threads it reaches, which all sleep in one local state, and the thread
that makes the call. What the other threads weigh is the same before and after it. -/
theorem total_wake {bed : L} (hbed : ∀ l, P.sleeping l = some k → l = bed)
    (h : P.wake s.shared (s.locals t) k n l) (hsub : S ⊆ sleepers P k s.locals) :
    ∃ rest : (L → ℕ) → ℕ,
      (∀ w, total w s.locals = rest w + S.card * w bed + w (s.locals t)) ∧
      ∀ w, total w (Function.update (rouse P S s.locals) t l)
        = rest w + S.card * w (P.woken bed) + w l := by
  have ht : t ∈ Sᶜ := Finset.mem_compl.mpr (notMem_of_wake h hsub)
  have hin : ∀ u ∈ S, s.locals u = bed := by
    intro u hu
    have hmem := hsub hu
    rw [sleepers, Finset.mem_filter] at hmem
    exact hbed _ hmem.2
  have hsplit (w : T → ℕ) : ∑ u, w u = ∑ u ∈ Sᶜ.erase t, w u + ∑ u ∈ S, w u + w t := by
    rw [← Finset.sum_add_sum_compl S, ← Finset.sum_erase_add _ _ ht]
    ring
  refine ⟨fun w => ∑ u ∈ Sᶜ.erase t, w (s.locals u), fun w => ?_, fun w => ?_⟩
  · rw [total, hsplit, Finset.sum_congr rfl fun u hu => congrArg w (hin u hu), Finset.sum_const,
      smul_eq_mul]
  · have hout : ∀ u ∈ Sᶜ.erase t,
        w (Function.update (rouse P S s.locals) t l u) = w (s.locals u) := by
      intro u hu
      obtain ⟨hne, hu⟩ := Finset.mem_erase.mp hu
      rw [Function.update_of_ne hne, rouse, if_neg (Finset.mem_compl.mp hu)]
    have hwoken : ∀ u ∈ S,
        w (Function.update (rouse P S s.locals) t l u) = w (P.woken bed) := by
      intro u hu
      have hne : u ≠ t := fun heq => Finset.mem_compl.mp ht (heq ▸ hu)
      rw [Function.update_of_ne hne, rouse, if_pos hu, hin u hu]
    rw [total, hsplit, Finset.sum_congr rfl hout, Finset.sum_congr rfl hwoken, Finset.sum_const,
      smul_eq_mul, Function.update_self]

/-- Where sleepers may also wake up by themselves, being woken keeps what every step keeps. -/
theorem rouse_invariant (hwake : ∀ g l k, P.sleeping l = some k → P.step g l g (P.woken l)) {g : G}
    {I : (T → L) → Prop}
    (hstep : ∀ locals t l, I locals → P.step g (locals t) g l → I (Function.update locals t l))
    (hsub : S ⊆ sleepers P k locals) (h : I locals) : I (rouse P S locals) := by
  induction S using Finset.induction_on with
  | empty =>
    have hsame : rouse P ∅ locals = locals := funext fun t => if_neg (Finset.notMem_empty t)
    rwa [hsame]
  | insert t S ht ih =>
    have hasleep := hsub (Finset.mem_insert_self t S)
    rw [sleepers, Finset.mem_filter] at hasleep
    have hinsert :
        rouse P (insert t S) locals = Function.update (rouse P S locals) t (P.woken (locals t)) := by
      funext u
      by_cases hu : u = t
      · rw [hu, Function.update_self]
        exact if_pos (Finset.mem_insert_self t S)
      · rw [Function.update_of_ne hu]
        simp only [rouse, Finset.mem_insert, hu, false_or]
    rw [hinsert]
    apply hstep _ _ _ (ih ((Finset.subset_insert t S).trans hsub))
    rw [rouse, if_neg ht]
    exact hwake _ _ k hasleep.2

/-- After a wake-up of all sleepers a thread is where it was and not asleep on the word, or it was
woken. -/
theorem rouse_all (hsub : S ⊆ sleepers P k locals) (hcard : S.card = (sleepers P k locals).card)
    (u : T) :
    P.sleeping (locals u) = some k ∧ rouse P S locals u = P.woken (locals u) ∨
      P.sleeping (locals u) ≠ some k ∧ rouse P S locals u = locals u := by
  have hall : S = sleepers P k locals := Finset.eq_of_subset_of_card_le hsub hcard.ge
  have hmem : u ∈ sleepers P k locals ↔ P.sleeping (locals u) = some k := by simp [sleepers]
  rw [rouse, hall]
  by_cases hasleep : P.sleeping (locals u) = some k
  · exact .inl ⟨hasleep, if_pos (hmem.mpr hasleep)⟩
  · exact .inr ⟨hasleep, if_neg (hasleep ∘ hmem.mp)⟩

end Rouse

end AwaitGlibc.Interleaving

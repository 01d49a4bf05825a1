import Mathlib.Data.Nat.ModEq

/-!
# Reading one of two copies under a version counter

A reader that takes no lock loads a version number, walks the copy of the data
which that version names, and loads the version again; it keeps its answer only
if the number has not moved. A single writer changes the copy that is not named
and then advances the number. Every load and every store is one atomic step, and
the steps of the two parties interleave freely. The number is kept in a counter that
wraps, so the answer can be relied on while the writer has not been around it once.

The walk is a tree of loads, so that the same definition is run at once on a
memory at rest and taken load by load while the memory moves under it. A load
from outside the memory has no value of its own: at rest the walk has no outcome,
and in a moving memory the reader may see anything.
-/
namespace AwaitGlibc.VersionedRead

/-- A computation that only reads; each `load` is one access. -/
inductive Loads (A V α : Type) where
  | ret (a : α)
  | load (x : A) (k : V → Loads A V α)

namespace Loads
variable {A V α β : Type}

def bind : Loads A V α → (α → Loads A V β) → Loads A V β
  | ret a, f => f a
  | load x k, f => load x fun v => (k v).bind f

instance : Monad (Loads A V) where
  pure := ret
  bind := bind

def fetch (x : A) : Loads A V V := load x ret

def run (m : A → Option V) : Loads A V α → Option α
  | ret a => some a
  | load x k => (m x).bind fun v => (k v).run m

/-- Every address the computation can ask for, whatever it reads, is in `P`. -/
def Within (P : A → Prop) : Loads A V α → Prop
  | ret _ => True
  | load x k => P x ∧ ∀ v, (k v).Within P

variable (m : A → Option V)

@[simp] theorem run_pure (a : α) :
    (pure a : Loads A V α).run m = some a := rfl

@[simp] theorem run_bind (t : Loads A V α) (f : α → Loads A V β) :
    (t >>= f).run m = (t.run m).bind fun a => (f a).run m := by
  change (t.bind f).run m = _
  induction t with
  | ret a => rfl
  | load x k ih =>
    simp only [bind, run, Option.bind_assoc]
    congr 1
    funext v
    exact ih v

@[simp] theorem run_map (f : α → β) (t : Loads A V α) : (f <$> t).run m = (t.run m).map f := by
  change (t >>= fun a => pure (f a)).run m = _
  simp only [run_bind, run_pure]
  cases t.run m <;> rfl

@[simp] theorem run_fetch (x : A) : (fetch x).run m = m x := by
  simp [fetch, run]

@[simp] theorem within_pure (P : A → Prop) (a : α) : (pure a : Loads A V α).Within P :=
  trivial

variable {P : A → Prop} {t : Loads A V α}

theorem within_bind {f : α → Loads A V β}
    (ht : t.Within P) (hf : ∀ a, (f a).Within P) : (t >>= f).Within P := by
  induction t with
  | ret a => exact hf a
  | load x k ih => exact ⟨ht.1, fun v => ih v (ht.2 v)⟩

theorem within_fetch_bind {x : A} {f : V → Loads A V α} (hx : P x)
    (hf : ∀ v, (f v).Within P) : (fetch x >>= f).Within P :=
  within_bind ⟨hx, fun _ => trivial⟩ hf

theorem within_map (f : α → β) (ht : t.Within P) :
    (f <$> t).Within P :=
  within_bind ht fun _ => trivial

/-- Two memories that agree where the computation looks give one outcome. -/
theorem run_congr {m m' : A → Option V} (ht : t.Within P)
    (h : ∀ x, P x → m x = m' x) : t.run m = t.run m' := by
  induction t with
  | ret a => rfl
  | load x k ih =>
    simp only [run, h x ht.1]
    congr 1
    funext v
    exact ih v (ht.2 v)

end Loads

/-- Two numbers less than a round apart differ in the counter if they differ at all. -/
theorem eq_of_mod_eq {a b m : ℕ} (hle : a ≤ b) (hlt : b < a + m) (h : b % m = a % m) : b = a := by
  have hdvd := (Nat.modEq_iff_dvd' hle).mp h.symm
  have hzero := Nat.eq_zero_of_dvd_of_lt hdvd (by omega)
  omega

section Protocol
variable {S A V α : Type}

/-- The reader between two of its steps: before its first load of the version, on
its walk with the version it started from, or finished. -/
inductive Reader (A V α : Type) where
  | idle
  | walking (version : ℕ) (rest : Loads A V α)
  | done (answer : α)

/-- A memory with the number of its versions so far and the size of the counter they
are kept in. -/
structure Shared (S A V : Type) where
  version : S → ℕ
  modulus : ℕ
  load : S → A → Option V

/-- What a load of the counter gives. -/
def Shared.counter (mem : Shared S A V) (s : S) : ℕ := mem.version s % mem.modulus

/-- One step of the reader, which does not change the memory. After the last load
of a walk comes the second load of the version: the walk counts if it is still the
one the walk began with, and is begun again if it is not. -/
inductive ReaderStep (mem : Shared S A V) (attempt : ℕ → Loads A V α) (s : S) :
    Reader A V α → Reader A V α → Prop
  | start : ReaderStep mem attempt s .idle (.walking (mem.counter s) (attempt (mem.counter s)))
  | load {n : ℕ} {x : A} {k : V → Loads A V α} {v : V} (read : ∀ w, mem.load s x = some w → v = w) :
      ReaderStep mem attempt s (.walking n (.load x k)) (.walking n (k v))
  | accept {n : ℕ} {a : α} (same : mem.counter s = n) :
      ReaderStep mem attempt s (.walking n (.ret a)) (.done a)
  | retry {n : ℕ} {a : α} (moved : mem.counter s ≠ n) :
      ReaderStep mem attempt s (.walking n (.ret a)) .idle

/-- An interleaving of one reader with the writer's steps: the memories passed
through since the reader's start, the latest first, and where the reader is. -/
inductive History (mem : Shared S A V) (attempt : ℕ → Loads A V α) (writes : S → S → Prop)
    (s₀ : S) : S → List S → Reader A V α → Prop
  | start : History mem attempt writes s₀ s₀ [] .idle
  | write {s s' : S} {past : List S} {r : Reader A V α}
      (h : History mem attempt writes s₀ s past r) (w : writes s s') :
      History mem attempt writes s₀ s' (s :: past) r
  | read {s : S} {past : List S} {r r' : Reader A V α}
      (h : History mem attempt writes s₀ s past r) (w : ReaderStep mem attempt s r r') :
      History mem attempt writes s₀ s past r'

/-- What the writer has to keep: the version never falls, and while it stays the
same the addresses it names keep their values. `good` is the writer's own
invariant; in a good memory the walk of the current version has an outcome. -/
structure Discipline (mem : Shared S A V) (attempt : ℕ → Loads A V α) (writes : S → S → Prop)
    (good : S → Prop) (owned : ℕ → A → Prop) : Prop where
  good_writes : ∀ {s s'}, good s → writes s s' → good s'
  version_le : ∀ {s s'}, good s → writes s s' → mem.version s ≤ mem.version s'
  load_eq : ∀ {s s'}, good s → writes s s' → mem.version s' = mem.version s →
    ∀ x, owned (mem.counter s) x → mem.load s' x = mem.load s x
  within : ∀ n, (attempt n).Within (owned n)
  total : ∀ {s}, good s → ∃ a, (attempt (mem.counter s)).run (mem.load s) = some a

variable {mem : Shared S A V} {attempt : ℕ → Loads A V α} {writes : S → S → Prop}
  {good : S → Prop} {owned : ℕ → A → Prop}

/-- What a walk knows: it began in some memory passed through since the start,
and unless the version has moved on, that memory's outcome is still the one the
rest of the walk leads to. -/
def OnTrack (mem : Shared S A V) (attempt : ℕ → Loads A V α) (owned : ℕ → A → Prop)
    (s : S) (past : List S) : Reader A V α → Prop
  | .idle => True
  | .walking n rest => rest.Within (owned n) ∧
      ∃ s₁ ∈ s :: past, mem.version s₁ ≤ mem.version s ∧ mem.counter s₁ = n ∧
        ∃ a, (attempt n).run (mem.load s₁) = some a ∧
          (mem.version s = mem.version s₁ → rest.run (mem.load s) = some a)
  | .done a => ∃ s₁ ∈ s :: past, (attempt (mem.counter s₁)).run (mem.load s₁) = some a

variable {s s₀ s' : S} {r : Reader A V α} {past : List S}

/-- A reader that is left alone comes to the end of its walk. -/
theorem History.walk {n : ℕ} {t : Loads A V α} {a : α}
    (h : History mem attempt writes s₀ s past (.walking n t))
    (ht : t.run (mem.load s) = some a) :
    History mem attempt writes s₀ s past (.walking n (.ret a)) := by
  induction t with
  | ret b =>
    cases ht
    exact h
  | load x k ih =>
    obtain ⟨v, hv, hk⟩ := Option.bind_eq_some_iff.mp ht
    have hread : ∀ w, mem.load s x = some w → v = w :=
      fun w hw => Option.some.inj (hv.symm.trans hw)
    exact ih v (h.read (.load hread)) hk

variable (d : Discipline mem attempt writes good owned)
include d

theorem good_of_history (hs₀ : good s₀) (h : History mem attempt writes s₀ s past r) :
    ∀ s' ∈ s :: past, good s' := by
  induction h with
  | start => exact List.forall_mem_singleton.mpr hs₀
  | write _ w ih =>
    exact List.forall_mem_cons.mpr ⟨d.good_writes (ih _ List.mem_cons_self) w, ih⟩
  | read _ _ ih => exact ih

theorem version_le_of_history (hs₀ : good s₀) (h : History mem attempt writes s₀ s past r) :
    ∀ s' ∈ s :: past, mem.version s₀ ≤ mem.version s' := by
  induction h with
  | start => exact List.forall_mem_singleton.mpr (Nat.le_refl _)
  | write h w ih =>
    have hs := good_of_history d hs₀ h _ List.mem_cons_self
    have hle := Nat.le_trans (ih _ List.mem_cons_self) (d.version_le hs w)
    exact List.forall_mem_cons.mpr ⟨hle, ih⟩
  | read _ _ ih => exact ih

theorem OnTrack.write (hs : good s) (w : writes s s')
    (h : OnTrack mem attempt owned s past r) : OnTrack mem attempt owned s' (s :: past) r := by
  cases r with
  | idle => trivial
  | walking n rest =>
    obtain ⟨hin, s₁, hs₁, hle, hn, a, ha, hrun⟩ := h
    have hle' := d.version_le hs w
    refine ⟨hin, s₁, List.mem_cons_of_mem _ hs₁, Nat.le_trans hle hle', hn, a, ha, ?_⟩
    -- the version is back where the walk began only if it never left it
    intro hv
    have hsame : mem.version s = mem.version s₁ := by omega
    have hcounter : mem.counter s = n := by
      rw [← hn, Shared.counter, hsame]
      rfl
    rw [← hrun hsame]
    apply Loads.run_congr hin
    intro x hx
    exact d.load_eq hs w (by omega) x (hcounter ▸ hx)
  | done a =>
    obtain ⟨s₁, hs₁, ha⟩ := h
    exact ⟨s₁, List.mem_cons_of_mem _ hs₁, ha⟩

/-- One step of the reader, less than a round of the counter after every memory passed
through. -/
theorem OnTrack.read {r' : Reader A V α} (hs : good s)
    (hround : ∀ s₁ ∈ s :: past, mem.version s < mem.version s₁ + mem.modulus)
    (w : ReaderStep mem attempt s r r')
    (h : OnTrack mem attempt owned s past r) : OnTrack mem attempt owned s past r' := by
  cases w with
  | start =>
    obtain ⟨a, ha⟩ := d.total hs
    exact ⟨d.within _, s, List.mem_cons_self, Nat.le_refl _, rfl, a, ha, fun _ => ha⟩
  | @load n x k v read =>
    obtain ⟨hin, s₁, hs₁, hle, hn, a, ha, hrun⟩ := h
    refine ⟨hin.2 v, s₁, hs₁, hle, hn, a, ha, fun hv => ?_⟩
    obtain ⟨u, hu, hk⟩ := Option.bind_eq_some_iff.mp (hrun hv)
    rw [read u hu]
    exact hk
  | @accept n a same =>
    obtain ⟨-, s₁, hs₁, hle, hn, b, hb, hrun⟩ := h
    have hsame : mem.version s = mem.version s₁ :=
      eq_of_mod_eq hle (hround s₁ hs₁) (same.trans hn.symm)
    have hab : a = b := by simpa [Loads.run] using hrun hsame
    subst hab hn
    exact ⟨s₁, hs₁, hb⟩
  | retry moved => trivial

theorem onTrack_of_history (hs₀ : good s₀) (h : History mem attempt writes s₀ s past r)
    (hround : mem.version s < mem.version s₀ + mem.modulus) :
    OnTrack mem attempt owned s past r := by
  induction h with
  | start => trivial
  | write h w ih =>
    have hs := good_of_history d hs₀ h _ List.mem_cons_self
    have hle := d.version_le hs w
    exact (ih (by omega)).write d hs w
  | read h w ih =>
    have hs := good_of_history d hs₀ h _ List.mem_cons_self
    refine (ih hround).read d hs (fun s₁ hs₁ => ?_) w
    have hle := version_le_of_history d hs₀ h s₁ hs₁
    omega

/-- An answer the reader keeps is the answer of a memory at rest, one of those
passed through since the reader's start. -/
theorem answer_of_history {a : α} (hs₀ : good s₀)
    (h : History mem attempt writes s₀ s past (.done a))
    (hround : mem.version s < mem.version s₀ + mem.modulus) :
    ∃ s' ∈ s :: past, good s' ∧ (attempt (mem.counter s')).run (mem.load s') = some a := by
  obtain ⟨s', hs', ha⟩ := onTrack_of_history d hs₀ h hround
  exact ⟨s', hs', good_of_history d hs₀ h s' hs', ha⟩

end Protocol

end AwaitGlibc.VersionedRead

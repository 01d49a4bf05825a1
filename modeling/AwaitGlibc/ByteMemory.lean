import Mathlib

/-! Flat byte memory with checked access. A load or store names an address and a
number of bytes; it faults unless all of them lie in one of the areas that the
program owns. Arrays are read as lists of records of one size. -/
namespace AwaitGlibc.ByteMemory

abbrev Bytes := List UInt8

abbrev Memory := ℕ → UInt8

structure Area where
  start : ℕ
  size : ℕ
deriving DecidableEq

def Area.Holds (area : Area) (p len : ℕ) : Prop :=
  area.start ≤ p ∧ p + len ≤ area.start + area.size

instance (area : Area) (p len : ℕ) : Decidable (area.Holds p len) :=
  inferInstanceAs (Decidable (_ ∧ _))

structure Fault where
  address : ℕ
  length : ℕ
deriving DecidableEq, Repr

def bytes (m : Memory) (p len : ℕ) : Bytes :=
  (List.range len).map fun i => m (p + i)

/-- The memory with the given bytes from `p` on. -/
def put (m : Memory) (p : ℕ) (bs : Bytes) : Memory :=
  fun a => if p ≤ a then (bs[a - p]?).getD (m a) else m a

variable (areas : List Area)

def Owned (p len : ℕ) : Prop := ∃ area ∈ areas, area.Holds p len

instance (p len : ℕ) : Decidable (Owned areas p len) :=
  inferInstanceAs (Decidable (∃ area ∈ areas, area.Holds p len))

def load (m : Memory) (p len : ℕ) : Except Fault Bytes :=
  if Owned areas p len then .ok (bytes m p len) else .error ⟨p, len⟩

def store (m : Memory) (p : ℕ) (bs : Bytes) : Except Fault Memory :=
  if Owned areas p bs.length then .ok (put m p bs) else .error ⟨p, bs.length⟩

def memcpy (m : Memory) (dst src len : ℕ) : Except Fault Memory := do
  let bs ← load areas m src len
  store areas m dst bs

/-! ### Bytes -/

@[simp] theorem length_bytes (m : Memory) (p len : ℕ) : (bytes m p len).length = len := by
  simp [bytes]

theorem getElem?_bytes (m : Memory) (p len i : ℕ) :
    (bytes m p len)[i]? = if i < len then some (m (p + i)) else none := by
  rw [bytes, List.getElem?_map]
  split_ifs with hi
  · rw [List.getElem?_range hi, Option.map_some]
  · rw [List.getElem?_eq_none (by simpa using hi), Option.map_none]

theorem bytes_append (m : Memory) (p a b : ℕ) :
    bytes m p (a + b) = bytes m p a ++ bytes m (p + a) b := by
  simp only [bytes, List.range_add, List.map_append, List.map_map]
  congr 1
  exact List.map_congr_left fun i _ => by simp [Nat.add_assoc]

def span (p len : ℕ) : Set ℕ := Set.Ico p (p + len)

variable {p len : ℕ} {m : Memory} {bs : Bytes}

@[simp] theorem mem_span {a : ℕ} : a ∈ span p len ↔ p ≤ a ∧ a < p + len := Iff.rfl

theorem span_subset {q len' : ℕ} (hp : q ≤ p) (hend : p + len ≤ q + len') :
    span p len ⊆ span q len' :=
  Set.Ico_subset_Ico hp hend

theorem span_subset_compl {q len' : ℕ} (h : p + len ≤ q ∨ q + len' ≤ p) :
    span p len ⊆ (span q len')ᶜ := by
  intro a ha haq
  rw [mem_span] at ha haq
  omega

theorem bytes_congr {m' : Memory} (h : Set.EqOn m m' (span p len)) :
    bytes m p len = bytes m' p len := by
  apply List.map_congr_left
  intro i hi
  exact h ⟨Nat.le_add_right _ _, Nat.add_lt_add_left (List.mem_range.mp hi) p⟩

theorem put_of_mem {a : ℕ} (hp : p ≤ a) (ha : a < p + bs.length) :
    bs[a - p]? = some (put m p bs a) := by
  have hlt : a - p < bs.length := by omega
  rw [put, if_pos hp, List.getElem?_eq_getElem hlt, Option.getD_some]

theorem put_of_notMem {a : ℕ} (h : a < p ∨ p + bs.length ≤ a) : put m p bs a = m a := by
  unfold put
  split_ifs with hp
  · rw [List.getElem?_eq_none (by omega), Option.getD_none]
  · rfl

theorem bytes_put_self (m : Memory) (p : ℕ) (bs : Bytes) : bytes (put m p bs) p bs.length = bs := by
  apply List.ext_getElem?
  intro i
  rw [getElem?_bytes]
  split_ifs with hi
  · have h : bs[p + i - p]? = some (put m p bs (p + i)) :=
      put_of_mem (Nat.le_add_right p i) (Nat.add_lt_add_left hi p)
    rw [Nat.add_sub_cancel_left] at h
    exact h.symm
  · exact (List.getElem?_eq_none (Nat.le_of_not_lt hi)).symm

theorem put_eqOn (m : Memory) (p : ℕ) (bs : Bytes) :
    Set.EqOn (put m p bs) m (span p bs.length)ᶜ := by
  intro a ha
  rw [Set.mem_compl_iff, mem_span] at ha
  exact put_of_notMem (by omega)

theorem put_nil (m : Memory) (p : ℕ) : put m p [] = m := by
  funext a
  exact put_of_notMem (by rw [List.length_nil]; omega)

/-! ### Copies -/

variable {areas}

theorem Owned.mono {q len' : ℕ} (h : Owned areas p len) (hp : p ≤ q) (hlen : q + len' ≤ p + len) :
    Owned areas q len' := by
  obtain ⟨area, hmem, hstart, hend⟩ := h
  exact ⟨area, hmem, hstart.trans hp, hlen.trans hend⟩

theorem load_eq (h : Owned areas p len) : load areas m p len = .ok (bytes m p len) :=
  if_pos h

theorem store_eq (h : Owned areas p bs.length) : store areas m p bs = .ok (put m p bs) :=
  if_pos h

theorem memcpy_eq {dst src : ℕ} (hdst : Owned areas dst len) (hsrc : Owned areas src len) :
    memcpy areas m dst src len = .ok (put m dst (bytes m src len)) := by
  rw [memcpy, load_eq hsrc]
  exact store_eq (by rwa [length_bytes])

theorem put_append (m : Memory) (p : ℕ) (a b : Bytes) :
    put (put m p a) (p + a.length) b = put m p (a ++ b) := by
  funext x
  by_cases hb : p + a.length ≤ x
  · rw [put, if_pos hb, put_of_notMem (.inr hb), put, if_pos (by omega),
      List.getElem?_append_right (by omega), Nat.sub_sub]
  · unfold put
    split_ifs with hp
    · rw [List.getElem?_append_left (by omega)]
    · rfl

/-! ### Records -/

/-- The `n` records of size `s` from `p` on. -/
def records (m : Memory) (p s : ℕ) : ℕ → List Bytes
  | 0 => []
  | n + 1 => bytes m p s :: records m (p + s) s n

@[simp] theorem length_records (m : Memory) (p s n : ℕ) : (records m p s n).length = n := by
  induction n generalizing p with
  | zero => rfl
  | succ n ih => rw [records, List.length_cons, ih]

theorem records_append (m : Memory) (p s a b : ℕ) :
    records m p s (a + b) = records m p s a ++ records m (p + a * s) s b := by
  induction a generalizing p with
  | zero => simp [records]
  | succ a ih =>
    rw [Nat.succ_add, records, records, ih, List.cons_append]
    congr 3
    ring

theorem take_records (m : Memory) (p s a b : ℕ) :
    (records m p s (a + b)).take a = records m p s a := by
  rw [records_append, List.take_left' (length_records m p s a)]

theorem drop_records (m : Memory) (p s a b : ℕ) :
    (records m p s (a + b)).drop a = records m (p + a * s) s b := by
  rw [records_append, List.drop_left' (length_records m p s a)]

theorem records_congr {m' : Memory} {s n : ℕ} (h : Set.EqOn m m' (span p (n * s))) :
    records m p s n = records m' p s n := by
  induction n generalizing p with
  | zero => rfl
  | succ n ih =>
    rw [Nat.succ_mul] at h
    rw [records, records, bytes_congr (h.mono (span_subset le_rfl (by omega))),
      ih (h.mono (span_subset (by omega) (by omega)))]

/-- An array moved as a whole has the same records. -/
theorem records_of_bytes {m' : Memory} {q s n : ℕ} (h : bytes m p (n * s) = bytes m' q (n * s)) :
    records m p s n = records m' q s n := by
  induction n generalizing p q with
  | zero => rfl
  | succ n ih =>
    rw [Nat.succ_mul, Nat.add_comm, bytes_append, bytes_append] at h
    obtain ⟨hhead, htail⟩ := List.append_inj h (by simp)
    rw [records, records, hhead, ih htail]

theorem records_put_self (m m' : Memory) (p q s n : ℕ) :
    records (put m p (bytes m' q (n * s))) p s n = records m' q s n := by
  have h := bytes_put_self m p (bytes m' q (n * s))
  rw [length_bytes] at h
  exact records_of_bytes h

theorem getElem?_records (m : Memory) (p s n i : ℕ) :
    (records m p s n)[i]? = if i < n then some (bytes m (p + i * s) s) else none := by
  induction n generalizing p i with
  | zero => simp [records]
  | succ n ih =>
    cases i with
    | zero => simp [records]
    | succ i =>
      rw [records, List.getElem?_cons_succ, ih]
      simp only [Nat.add_lt_add_iff_right, Nat.succ_mul, Nat.add_assoc, Nat.add_comm s]

end AwaitGlibc.ByteMemory

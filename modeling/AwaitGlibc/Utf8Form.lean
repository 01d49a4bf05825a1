import Mathlib

/-!
# The forms of UTF-8

A value has a form of `n` bytes if it fits: the first byte marks the length and
has the leading bits, every other byte has six bits. The forms are those of
ISO 10646, of one to six bytes, for values of up to 31 bits. The shortest form is
the one no shorter form of which fits.
-/
namespace AwaitGlibc.Utf8

/-- The values below this have a form of `n` bytes. -/
def capacity (n : ℕ) : ℕ := if n ≤ 1 then 2 ^ 7 else 2 ^ (5 * n + 1)

/-- The mark of a first byte: `n` ones and a zero, or nothing for a single byte. -/
def mark (n : ℕ) : ℕ := if n ≤ 1 then 0 else 256 - 2 ^ (8 - n)

def trail : ℕ → ℕ → List ℕ
  | 0, _ => []
  | k + 1, v => (128 + v / 64 ^ k % 64) :: trail k v

def form (n v : ℕ) : List ℕ := (mark n + v / 64 ^ (n - 1)) :: trail (n - 1) v

structure Shortest (v n : ℕ) : Prop where
  pos : 1 ≤ n
  le : n ≤ 6
  fits : v < capacity n
  least : ∀ m, 1 ≤ m → m < n → capacity m ≤ v

/-- The value with the bits of `bs` behind those of `c`. -/
def gather (c : ℕ) (bs : List ℕ) : ℕ := bs.foldl (fun v b => v * 64 + b % 64) c

def IsTrail (b : ℕ) : Prop := 128 ≤ b ∧ b < 192

theorem length_trail (k v : ℕ) : (trail k v).length = k := by
  induction k with
  | zero => rfl
  | succ k ih => rw [trail, List.length_cons, ih]

theorem trail_concat (k v : ℕ) : trail (k + 1) v = trail k (v / 64) ++ [128 + v % 64] := by
  induction k with
  | zero => simp [trail]
  | succ k ih =>
    have hdiv : v / 64 ^ (k + 1) = v / 64 / 64 ^ k := by
      rw [Nat.div_div_eq_div_mul, pow_succ']
    rw [trail, ih, hdiv]
    rfl

variable {n v : ℕ}

theorem length_form (h : 1 ≤ n) (v : ℕ) : (form n v).length = n := by
  rw [form, List.length_cons, length_trail]
  omega

theorem isTrail_of_mem_trail {k b : ℕ} (h : b ∈ trail k v) : IsTrail b := by
  induction k with
  | zero => cases h
  | succ k ih =>
    rw [trail, List.mem_cons] at h
    cases h with
    | inl hb =>
      unfold IsTrail
      omega
    | inr hb => exact ih hb

theorem gather_trail (k v : ℕ) : gather (v / 64 ^ k) (trail k v) = v := by
  induction k with
  | zero => simp [gather, trail]
  | succ k ih =>
    have hstep : v / 64 ^ (k + 1) * 64 + (128 + v / 64 ^ k % 64) % 64 = v / 64 ^ k := by
      rw [pow_succ, ← Nat.div_div_eq_div_mul]
      omega
    change gather (v / 64 ^ (k + 1) * 64 + (128 + v / 64 ^ k % 64) % 64) (trail k v) = v
    rw [hstep, ih]

/-- The bits that have been gathered give back the bytes they came from, and the
bits before them. -/
theorem trail_gather {bs : List ℕ} (h : ∀ b ∈ bs, IsTrail b) (c : ℕ) :
    trail bs.length (gather c bs) = bs ∧ gather c bs / 64 ^ bs.length = c := by
  induction bs generalizing c with
  | nil => simp [gather, trail]
  | cons b bs ih =>
    have hb : IsTrail b := h b List.mem_cons_self
    unfold IsTrail at hb
    obtain ⟨htrail, hdiv⟩ := ih (fun x hx => h x (List.mem_cons_of_mem _ hx)) (c * 64 + b % 64)
    change trail (bs.length + 1) (gather (c * 64 + b % 64) bs) = _ ∧
      gather (c * 64 + b % 64) bs / 64 ^ (bs.length + 1) = c
    constructor
    · rw [trail, htrail, hdiv]
      congr 1
      omega
    · rw [pow_succ, ← Nat.div_div_eq_div_mul, hdiv]
      omega

theorem gather_lt (bs : List ℕ) {c m : ℕ} (h : c < m) :
    gather c bs < m * 64 ^ bs.length := by
  induction bs generalizing c m with
  | nil => simpa [gather] using h
  | cons b bs ih =>
    have hstep : c * 64 + b % 64 < m * 64 := by omega
    have hlt := ih hstep
    calc gather (c * 64 + b % 64) bs < m * 64 * 64 ^ bs.length := hlt
      _ = m * 64 ^ (bs.length + 1) := by ring

theorem Shortest.unique {m : ℕ} (h : Shortest v n) (h' : Shortest v m) : n = m := by
  by_contra hne
  cases Nat.lt_or_gt_of_ne hne with
  | inl hlt => exact absurd (h'.least n h.pos hlt) (not_le.mpr h.fits)
  | inr hlt => exact absurd (h.least m h'.pos hlt) (not_le.mpr h'.fits)

theorem capacity_mono {m : ℕ} (h : m ≤ n) : capacity m ≤ capacity n := by
  unfold capacity
  split_ifs with h1 h2 h2
  · exact le_rfl
  · exact Nat.pow_le_pow_right (by decide) (by omega)
  · omega
  · exact Nat.pow_le_pow_right (by decide) (by omega)

theorem shortest_of_pred (hpos : 1 ≤ n) (hle : n ≤ 6) (hfits : v < capacity n)
    (hpred : 2 ≤ n → capacity (n - 1) ≤ v) : Shortest v n := by
  refine ⟨hpos, hle, hfits, ?_⟩
  intro m hm hlt
  exact (capacity_mono (by omega)).trans (hpred (by omega))

def width (v : ℕ) : ℕ :=
  if v < 2 ^ 7 then 1 else if v < 2 ^ 11 then 2 else if v < 2 ^ 16 then 3
  else if v < 2 ^ 21 then 4 else if v < 2 ^ 26 then 5 else 6

def encode (v : ℕ) : List ℕ := form (width v) v

theorem shortest_width (h : v < 2 ^ 31) : Shortest v (width v) := by
  unfold width
  split_ifs with h1 h2 h3 h4 h5
  all_goals
    apply shortest_of_pred (by decide) (by decide) <;> simp only [capacity] <;> norm_num <;> omega

theorem width_eq (h : Shortest v n) : width v = n := by
  have hv : v < 2 ^ 31 := h.fits.trans_le (capacity_mono h.le)
  exact (shortest_width hv).unique h

theorem capacity_eq (h : 2 ≤ n) (hle : n ≤ 6) : capacity n = 2 ^ (7 - n) * 64 ^ (n - 1) := by
  have hall : ∀ n, n ≤ 6 → 2 ≤ n → capacity n = 2 ^ (7 - n) * 64 ^ (n - 1) := by decide
  exact hall n hle h

/-- The leading bits of a form, which its first byte has behind the mark. -/
theorem lead_lt (h : Shortest v n) (hn : 2 ≤ n) : v / 64 ^ (n - 1) < 2 ^ (7 - n) := by
  apply Nat.div_lt_of_lt_mul
  rw [mul_comm, ← capacity_eq hn h.le]
  exact h.fits

theorem mark_add_lt {c : ℕ} (hn : 2 ≤ n) (hle : n ≤ 6) (h : c < 2 ^ (7 - n)) :
    mark n + c < 256 := by
  have hall : ∀ n, n ≤ 6 → 2 ≤ n → mark n + 2 ^ (7 - n) ≤ 256 := by decide
  have hmark := hall n hle hn
  omega

end AwaitGlibc.Utf8

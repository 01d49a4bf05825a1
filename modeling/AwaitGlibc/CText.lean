import Mathlib.Data.List.Lemmas
import Mathlib.Data.List.TakeWhile
import Mathlib.Tactic.NormNum

/-!
# Text handled by the C library

A string is the list of its characters before the terminating NUL. The
functions here follow the documented behaviour of the C library functions they
are named after: `strtok` skips empty tokens, `strchr` returns the rest of the
string from the character on, `strtol` in base ten skips white space, reads one
sign and the longest run of digits, saturates at the limits of a 64-bit `long`,
and returns its argument unread when there is no digit. Narrowing to `int` keeps
the low 32 bits.
-/
namespace AwaitGlibc.CText

abbrev Text := List Char

/-- All tokens `strtok` returns in turn; empty ones do not occur. -/
def strtok (sep : Char) (s : Text) : List Text := (s.splitOn sep).filter (· ≠ [])

def strchr (c : Char) (s : Text) : Option Text :=
  match s.dropWhile (· != c) with
  | [] => none
  | t => some t

def beforeLast (c : Char) (s : Text) : Option Text :=
  match s.reverse.dropWhile (· != c) with
  | [] => none
  | _ :: t => some t.reverse

variable {c : Char} {s : Text}

theorem beforeLast_isPrefix {t : Text} (h : beforeLast c s = some t) : t <+: s := by
  unfold beforeLast at h
  split at h
  next => cases h
  next x u hu =>
    have hsuffix : u <:+ s.reverse :=
      (List.suffix_cons x u).trans (hu ▸ List.dropWhile_suffix _)
    rw [← Option.some.inj h, ← List.reverse_suffix, List.reverse_reverse]
    exact hsuffix

def nul : Char := Char.ofNat 0

/-- The bytes `strncpy` stores: the text cut at `n`, or padded to `n` with NULs. -/
def strncpy (s : Text) (n : ℕ) : Text := s.take n ++ List.replicate (n - s.length) nul

theorem strncpy_length (s : Text) (n : ℕ) : (strncpy s n).length = n := by
  simp [strncpy]
  omega

theorem not_mem_of_mem_splitOn {t : Text} (h : t ∈ s.splitOn c) : c ∉ t := by
  induction s generalizing t with
  | nil =>
    simp only [List.splitOn_nil, List.mem_singleton] at h
    simp [h]
  | cons x xs ih =>
    rw [List.splitOn_cons_eq_if_modifyHead] at h
    split_ifs at h with hx
    · rcases List.mem_cons.mp h with rfl | h
      · simp
      · exact ih h
    · cases hs : xs.splitOn c with
      | nil => exact (List.splitOn_ne_nil c xs hs).elim
      | cons u us =>
        rw [hs, List.modifyHead_cons] at h
        rcases List.mem_cons.mp h with rfl | h
        · have hu : c ∉ u := ih (by simp [hs])
          have hc : c ≠ x := fun e => hx (by simp [e])
          simp [hu, hc]
        · exact ih (by simp [hs, h])

/-- Splitting is `strchr` iterated: the first field ends at the first
separator, the other fields are those of the text behind it. -/
theorem splitOn_eq_strchr (c : Char) (s : Text) :
    s.splitOn c = s.takeWhile (· != c) ::
      match strchr c s with
      | none => []
      | some t => (t.drop 1).splitOn c := by
  have hs := List.takeWhile_append_dropWhile (p := (· != c)) (l := s)
  have hn : c ∉ s.takeWhile (· != c) := by
    intro h
    simpa using List.mem_takeWhile_imp h
  unfold strchr
  cases hd : s.dropWhile (· != c) with
  | nil =>
    rw [hd, List.append_nil] at hs
    simp only [hs]
    rw [hs] at hn
    exact List.splitOn_eq_singleton hn
  | cons x t =>
    have hx : x = c := by
      have := List.head_dropWhile_not (· != c) (l := s) (by simp [hd])
      simpa [hd] using this
    subst hx
    rw [hd] at hs
    conv_lhs => rw [← hs]
    rw [List.splitOn_append_cons_self_of_not_mem hn]
    simp

theorem strchr_eq_none (h : strchr c s = none) : s.takeWhile (· != c) = s := by
  unfold strchr at h
  split at h
  next hd =>
    have := List.takeWhile_append_dropWhile (p := (· != c)) (l := s)
    rwa [hd, List.append_nil] at this
  next => cases h

theorem take_of_strchr {t : Text} (h : strchr c s = some t) :
    s.take (s.length - t.length) = s.takeWhile (· != c) ∧
      s.length - t.length = (s.takeWhile (· != c)).length := by
  unfold strchr at h
  split at h
  next => cases h
  next =>
    cases h
    have hs := List.takeWhile_append_dropWhile (p := (· != c)) (l := s)
    have hl : s.length - (s.dropWhile (· != c)).length = (s.takeWhile (· != c)).length := by
      have := congrArg List.length hs
      rw [List.length_append] at this
      omega
    refine ⟨?_, hl⟩
    rw [hl]
    exact (congrArg (List.take _) hs.symm).trans List.take_left

theorem drop_past {t name rest : Text} {i : ℕ} (h : t.drop i = name ++ c :: rest) :
    t.drop (i + name.length + 1) = rest := by
  rw [Nat.add_assoc, ← List.drop_drop, h, List.append_cons, List.drop_left' (by simp)]

section FirstOccurrence
variable {c : Char} {name : Text}

theorem takeWhile_of_not_mem (h : c ∉ name) (t : Text) :
    (name ++ c :: t).takeWhile (· != c) = name := by
  rw [List.takeWhile_append_of_pos (fun x hx => by simpa using fun e : x = c => h (e ▸ hx))]
  simp

theorem dropWhile_of_not_mem (h : c ∉ name) (t : Text) :
    (name ++ c :: t).dropWhile (· != c) = c :: t := by
  rw [List.dropWhile_append_of_pos (fun x hx => by simpa using fun e : x = c => h (e ▸ hx))]
  simp

theorem strchr_of_not_mem (h : c ∉ name) (t : Text) :
    strchr c (name ++ c :: t) = some (c :: t) := by
  rw [strchr, dropWhile_of_not_mem h]

end FirstOccurrence

def isSpace (c : Char) : Bool :=
  c = ' ' || c = '\t' || c = '\n' || c.toNat = 11 || c.toNat = 12 || c = '\r'

def digitsValue (ds : Text) : ℕ := ds.foldl (fun n c => 10 * n + (c.toNat - 48)) 0

structure Strtol where
  value : ℤ
  rest : Text
deriving DecidableEq, Repr

def longMax : ℤ := 2 ^ 63 - 1
def longMin : ℤ := -2 ^ 63
def intMax : ℤ := 2 ^ 31 - 1

/-- An optional sign; the Boolean says that it was a minus. -/
def takeSign : Text → Bool × Text
  | '-' :: t => (true, t)
  | '+' :: t => (false, t)
  | t => (false, t)

def strtol (s : Text) : Strtol :=
  let u := takeSign (s.dropWhile isSpace)
  let ds := u.2.takeWhile Char.isDigit
  if ds = [] then ⟨0, s⟩ else
    let v : ℤ := if u.1 then -(digitsValue ds : ℤ) else digitsValue ds
    ⟨max longMin (min longMax v), u.2.drop ds.length⟩

/-- The conversion of a `long` to `int`. -/
def toInt (v : ℤ) : ℤ := v.bmod (2 ^ 32)

theorem toInt_of_range {v : ℤ} (h₀ : -2 ^ 31 ≤ v) (h₁ : v ≤ intMax) : toInt v = v := by
  unfold toInt intMax at *
  rw [Int.bmod_eq_of_le_mul_two] <;> omega

theorem toInt_bounds (v : ℤ) : -2 ^ 31 ≤ toInt v ∧ toInt v ≤ intMax := by
  have h₁ := Int.bmod_lt (x := v) (m := 2 ^ 32) (by norm_num)
  have h₂ := Int.le_bmod (x := v) (m := 2 ^ 32) (by norm_num)
  unfold toInt intMax
  omega

def IsNumeral (s : Text) : Prop := s ≠ [] ∧ ∀ c ∈ s, c.isDigit = true

instance (s : Text) : Decidable (IsNumeral s) :=
  -- the characters of the text are tested, not all characters
  have : Decidable (∀ c ∈ s, c.isDigit = true) := List.decidableBAll _ s
  inferInstanceAs (Decidable (_ ∧ _))

/-- On a numeral in the range of `int`, `strtol` reads the whole text. -/
theorem strtol_of_isNumeral (h : IsNumeral s) (hv : (digitsValue s : ℤ) ≤ intMax) :
    strtol s = ⟨digitsValue s, []⟩ := by
  obtain ⟨hne, hd⟩ := h
  obtain ⟨c, t, rfl⟩ := List.exists_cons_of_ne_nil hne
  have hc : c.isDigit = true := hd c (by simp)
  have hdrop : (c :: t).dropWhile isSpace = c :: t := by
    have : isSpace c = false := by
      simp only [Char.isDigit, Bool.and_eq_true, decide_eq_true_eq, UInt32.le_iff_toNat_le] at hc
      simp only [isSpace, Bool.or_eq_false_iff, decide_eq_false_iff_not]
      have hn : 48 ≤ c.toNat := hc.1
      refine ⟨⟨⟨⟨⟨?_, ?_⟩, ?_⟩, ?_⟩, ?_⟩, ?_⟩ <;> first | omega | (rintro rfl; revert hn; decide)
    simp [this]
  have hsign : takeSign (c :: t) = (false, c :: t) := by
    unfold takeSign
    split
    next heq => cases heq; exact absurd hc (by decide)
    next heq => cases heq; exact absurd hc (by decide)
    next => rfl
  have htake : (c :: t).takeWhile Char.isDigit = c :: t := List.takeWhile_eq_self_iff.mpr hd
  unfold strtol
  simp only [hdrop, hsign, htake]
  unfold longMin longMax intMax at *
  simp
  omega

end AwaitGlibc.CText

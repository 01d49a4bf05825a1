import AwaitGlibc.NsName

/-!
# Subdomains in presentation format

`ns_samedomain` works backwards on the raw texts and takes a dot for escaped when an odd
number of backslashes stands before it. Read forwards, a backslash escapes the
character behind it. Both say the same of every dot, so that the function finds out
whether the labels of `b` are the last labels of `a`, up to the case of letters. That
is left to `strncasecmp` and with it to the locale of the program, while domain names
ignore the case of ASCII letters only. A text is the list of its characters; the text
of a domain name is far shorter than `INT_MAX`.
-/
namespace AwaitGlibc.NsSamedomain
open NsName (mklower)

abbrev Text := List UInt8

def dot : UInt8 := 0x2e

def backslash : UInt8 := 0x5c

/-- The loop from `s[n - 1]` down, in which a backslash switches `escaped`. -/
def escapedFrom (s : Text) : ℕ → Bool → Bool
  | 0, escaped => escaped
  | n + 1, escaped => if s[n]? = some backslash then escapedFrom s n (!escaped) else escaped

/-- `la` and `lb`: the length without a trailing label separator. -/
def trimmed (s : Text) : ℕ :=
  if s.length ≠ 0 ∧ s[s.length - 1]? = some dot then
    if escapedFrom s (s.length - 1) false then s.length else s.length - 1
  else s.length

def lower (s : Text) : Text := s.map mklower

section Model
variable (tolower : UInt8 → UInt8)

/-- `strncasecmp (s, t, n) == 0` for texts of `n` characters or more; `tolower` is that of
the current locale. -/
def strncasecmp (s t : Text) (n : ℕ) : Bool := (s.take n).map tolower = (t.take n).map tolower

def nsSamedomain (a b : Text) : Bool :=
  let la := trimmed a
  let lb := trimmed b
  if lb = 0 then true
  else if la < lb then false
  else if lb = la then strncasecmp tolower a b lb
  else
    let diff := la - lb
    if diff < 2 then false
    else if a[diff - 1]? ≠ some dot then false
    else if escapedFrom a (diff - 1) false then false
    else strncasecmp tolower (a.drop diff) b lb

end Model

/-! ### The forward reading -/

/-- Whether the character behind `s` is escaped, when the first one of `s` is if `escaped`. -/
def escapes (escaped : Bool) (s : Text) : Bool :=
  s.foldl (fun escaped c => !escaped && c == backslash) escaped

/-- The parts of a text between its unescaped dots. -/
def split (escaped : Bool) : Text → List Text
  | [] => [[]]
  | c :: s =>
    if c = dot ∧ escaped = false then [] :: split false s
    else (split (!escaped && c == backslash) s).modifyHead (c :: ·)

def unrooted (s : Text) : Text :=
  if s.getLast? = some dot ∧ escapes false s.dropLast = false then s.dropLast else s

/-- The labels of a name. The root has none. -/
def labels (s : Text) : List Text := if unrooted s = [] then [] else split false (unrooted s)

/-- The text of `b` stands at the end of `a`, behind an unescaped dot. -/
def Below (escaped : Bool) (a b : Text) : Prop :=
  ∃ p q, a = p ++ dot :: q ∧ escapes escaped p = false ∧ lower q = lower b

/-- No label is empty. -/
def IsName (s : Text) : Prop := [] ∉ labels s

instance (s : Text) : Decidable (IsName s) := inferInstanceAs (Decidable (¬ _))

section Split
variable (escaped : Bool) (s : Text)

theorem split_ne_nil : split escaped s ≠ [] := by
  induction s generalizing escaped with
  | nil => simp [split]
  | cons c s ih =>
    rw [split]
    split_ifs
    · simp
    · simpa using ih _

theorem intercalate_split : [dot].intercalate (split escaped s) = s := by
  induction s generalizing escaped with
  | nil => rfl
  | cons c s ih =>
    rw [split]
    split_ifs with hdot
    · have hs := ih false
      obtain ⟨x, xs, hxs⟩ := List.exists_cons_of_ne_nil (split_ne_nil false s)
      rw [hxs] at hs ⊢
      rw [List.intercalate_cons_cons, hs, hdot.1]
      rfl
    · have hs := ih (!escaped && c == backslash)
      obtain ⟨x, xs, hxs⟩ :=
        List.exists_cons_of_ne_nil (split_ne_nil (!escaped && c == backslash) s)
      rw [hxs] at hs ⊢
      cases xs with
      | nil => simpa using hs
      | cons y ys =>
        rw [List.intercalate_cons_cons] at hs
        rw [List.modifyHead_cons, List.intercalate_cons_cons, List.cons_append, List.cons_append, hs]

theorem split_lower : split escaped (lower s) = (split escaped s).map lower := by
  have hdot (c : UInt8) : mklower c = dot ↔ c = dot := by
    unfold mklower dot
    grind
  have hback (c : UInt8) : mklower c = backslash ↔ c = backslash := by
    unfold mklower backslash
    grind
  induction s generalizing escaped with
  | nil => rfl
  | cons c s ih =>
    have hbeq : (mklower c == backslash) = (c == backslash) := by
      rw [Bool.eq_iff_iff, beq_iff_eq, beq_iff_eq, hback]
    have hcons : lower (c :: s) = mklower c :: lower s := rfl
    simp only [hcons, split, hdot, hbeq, ih]
    split_ifs
    · rfl
    · cases split (!escaped && c == backslash) s <;> rfl

theorem lower_eq_of_split {t : Text} (h : (split false s).map lower = (split false t).map lower) :
    lower s = lower t := by
  rw [← split_lower, ← split_lower] at h
  rw [← intercalate_split false (lower s), h, intercalate_split]

/-- An unescaped dot separates the parts before it from those behind it. -/
theorem split_append {p : Text} (q : Text) (h : escapes escaped p = false) :
    split escaped (p ++ dot :: q) = split escaped p ++ split false q := by
  induction p generalizing escaped with
  | nil =>
    change escaped = false at h
    simp [split, h]
  | cons c p ih =>
    have hp : escapes (!escaped && c == backslash) p = false := h
    rw [List.cons_append, split, split]
    split_ifs with hdot
    · simp only [hdot.2, hdot.1] at hp
      rw [ih false hp]
      rfl
    · rw [ih _ hp]
      obtain ⟨x, xs, hxs⟩ :=
        List.exists_cons_of_ne_nil (split_ne_nil (!escaped && c == backslash) p)
      rw [hxs]
      rfl

theorem below_of_split {t x : Text} {pre : List Text}
    (h : (split escaped s).map lower = x :: pre ++ (split false t).map lower) :
    Below escaped s t := by
  induction s generalizing escaped x pre with
  | nil => simp [split, split_ne_nil] at h
  | cons c s ih =>
    rw [split] at h
    split_ifs at h with hdot
    · rw [hdot.1, hdot.2]
      obtain ⟨-, h⟩ := List.cons.inj h
      cases pre with
      | nil => exact ⟨[], s, rfl, rfl, lower_eq_of_split s h⟩
      | cons y pre =>
        obtain ⟨p, q, rfl, hp, hq⟩ := ih false h
        exact ⟨dot :: p, q, rfl, hp, hq⟩
    · cases hs : split (!escaped && c == backslash) s with
      | nil => exact absurd hs (split_ne_nil _ s)
      | cons y ys =>
        rw [hs] at h
        obtain ⟨-, h⟩ := List.cons.inj h
        obtain ⟨p, q, rfl, hp, hq⟩ := ih _ (by rw [hs, List.map_cons, h]; rfl)
        exact ⟨c :: p, q, rfl, hp, hq⟩

end Split

theorem split_suffix_iff (a b : Text) :
    (split false b).map lower <:+ (split false a).map lower ↔
      lower a = lower b ∨ Below false a b := by
  constructor
  · rintro ⟨_ | ⟨x, pre⟩, h⟩
    · exact Or.inl (lower_eq_of_split a h.symm)
    · exact Or.inr (below_of_split false a h.symm)
  · rintro (h | ⟨p, q, rfl, hp, h⟩)
    · rw [← split_lower, ← split_lower, h]
    · rw [split_append false q hp, List.map_append, ← split_lower false q, h, split_lower]
      exact List.suffix_append ..

/-! ### The function -/

theorem escapedFrom_eq {s : Text} {n : ℕ} (hn : n ≤ s.length) (escaped : Bool) :
    escapedFrom s n escaped = (escaped ^^ escapes false (s.take n)) := by
  induction n generalizing escaped with
  | zero => simp [escapedFrom, escapes]
  | succ n ih =>
    have hget := List.getElem?_eq_getElem (l := s) (i := n) (by omega)
    have hstep : escapes false (s.take (n + 1)) =
        (!escapes false (s.take n) && s[n] == backslash) := by
      rw [List.take_add_one, hget, escapes, List.foldl_append]
      rfl
    rw [escapedFrom, hget, ih (by omega), hstep]
    by_cases hb : s[n] = backslash
    · simp [hb]
    · simp [hb, beq_eq_false_iff_ne.mpr hb]

theorem take_trimmed (s : Text) : s.take (trimmed s) = unrooted s := by
  rw [trimmed, unrooted, ← List.getLast?_eq_getElem?, escapedFrom_eq (Nat.sub_le ..),
    ← List.dropLast_eq_take, Bool.false_xor]
  by_cases hlast : s.getLast? = some dot
  · have hne : s.length ≠ 0 := by
      intro h
      rw [List.length_eq_zero_iff.mp h] at hlast
      cases hlast
    cases escapes false s.dropLast
    · simp [hlast, hne, List.dropLast_eq_take]
    · simp [hlast, hne]
  · simp [hlast]

theorem trimmed_le (s : Text) : trimmed s ≤ s.length := by
  unfold trimmed
  split_ifs <;> omega

theorem length_unrooted (s : Text) : (unrooted s).length = trimmed s := by
  rw [← take_trimmed, List.length_take, Nat.min_eq_left (trimmed_le s)]

theorem below_iff (a b : Text) :
    Below false a b ↔ ∃ n, a.length = n + 1 + b.length ∧ a[n]? = some dot ∧
      escapes false (a.take n) = false ∧ lower (a.drop (n + 1)) = lower b := by
  constructor
  · rintro ⟨p, q, rfl, hesc, hq⟩
    have hlen : q.length = b.length := by simpa [lower] using congrArg List.length hq
    refine ⟨p.length, by simp; omega, by simp, by simpa using hesc, ?_⟩
    rwa [← List.drop_drop, List.drop_left]
  · rintro ⟨n, -, hdot, hesc, hq⟩
    obtain ⟨hlt, hdot⟩ := List.getElem?_eq_some_iff.mp hdot
    refine ⟨a.take n, a.drop (n + 1), ?_, hesc, hq⟩
    rw [← hdot, ← List.drop_eq_getElem_cons, List.take_append_drop]

theorem nsSamedomain_eq_true {a : Text} (b : Text) (ha : (unrooted a)[0]? ≠ some dot) :
    nsSamedomain mklower a b = true ↔ unrooted b = [] ∨ lower (unrooted a) = lower (unrooted b) ∨
      Below false (unrooted a) (unrooted b) := by
  have heq (h : lower (unrooted a) = lower (unrooted b)) : trimmed a = trimmed b := by
    simpa [lower, length_unrooted] using congrArg List.length h
  have hcmp (s t : Text) (n : ℕ) :
      strncasecmp mklower s t n = decide (lower (s.take n) = lower (t.take n)) := rfl
  have hle := trimmed_le a
  rw [below_iff, ← List.length_eq_zero_iff, length_unrooted, length_unrooted]
  unfold nsSamedomain
  by_cases h0 : trimmed b = 0
  · simp [h0]
  rw [if_neg h0, or_iff_right h0]
  rcases lt_trichotomy (trimmed a) (trimmed b) with hless | hsame | hmore
  · rw [if_pos hless]
    refine iff_of_false Bool.false_ne_true ?_
    rintro (h | ⟨n, h, -⟩)
    · exact hless.ne (heq h)
    · omega
  · rw [if_neg hsame.not_lt, if_pos hsame.symm, hcmp, decide_eq_true_iff, take_trimmed,
      ← hsame, take_trimmed]
    refine (or_iff_left ?_).symm
    rintro ⟨n, h, -⟩
    omega
  · rw [if_neg hmore.not_gt, if_neg hmore.ne, or_iff_right fun h => hmore.ne' (heq h)]
    -- the only place where the dot can be
    obtain ⟨n, hn⟩ : ∃ n, trimmed a = n + 1 + trimmed b := ⟨trimmed a - trimmed b - 1, by omega⟩
    have hfix (P : ℕ → Prop) : (∃ m, trimmed a = m + 1 + trimmed b ∧ P m) ↔ P n :=
      ⟨fun ⟨m, hm, h⟩ => (show m = n by omega) ▸ h, fun h => ⟨n, hn, h⟩⟩
    rw [hfix, ← take_trimmed, ← take_trimmed, List.getElem?_take_of_lt (by omega), List.take_take,
      Nat.min_eq_left (by omega), List.drop_take, hn, Nat.add_sub_cancel_left, Nat.add_sub_cancel]
    rw [← take_trimmed, List.getElem?_take_of_lt (by omega)] at ha
    simp only [Nat.add_sub_cancel, escapedFrom_eq (show n ≤ a.length by omega), Bool.false_xor,
      hcmp]
    obtain _ | n := n
    · simp [ha]
    · split_ifs <;> simp_all

theorem nsSamedomain_mklower {a : Text} (b : Text) (ha : IsName a) :
    nsSamedomain mklower a b = true ↔ (labels b).map lower <:+ (labels a).map lower := by
  unfold IsName labels at *
  by_cases hnil : unrooted a = []
  · rw [nsSamedomain_eq_true b (by simp [hnil])]
    by_cases hb : unrooted b = [] <;> simp [hnil, hb, Below, lower, split_ne_nil]
  rw [if_neg hnil] at ha ⊢
  have hhead : (unrooted a)[0]? ≠ some dot := by
    intro h
    obtain ⟨s, hs⟩ : ∃ s, unrooted a = dot :: s := by
      cases hs : unrooted a with
      | nil => exact absurd hs hnil
      | cons c s => exact ⟨s, by simpa [hs] using h⟩
    rw [hs, split, if_pos ⟨rfl, rfl⟩] at ha
    exact ha List.mem_cons_self
  rw [nsSamedomain_eq_true b hhead]
  by_cases hb : unrooted b = []
  · simp [hb]
  · rw [if_neg hb, or_iff_right hb, split_suffix_iff]

/-! ### The locale -/

section Locale
variable (tolower : UInt8 → UInt8)

theorem map_tolower_eq_iff {s t : Text}
    (h : ∀ c ∈ s, ∀ d ∈ t, tolower c = tolower d ↔ mklower c = mklower d) :
    s.map tolower = t.map tolower ↔ lower s = lower t := by
  induction s generalizing t with
  | nil => cases t <;> simp [lower]
  | cons c s ih =>
    cases t with
    | nil => simp [lower]
    | cons d t =>
      have hrest := ih (t := t) fun c hc d hd =>
        h c (List.mem_cons_of_mem _ hc) d (List.mem_cons_of_mem _ hd)
      have hcons (c : UInt8) (s : Text) : lower (c :: s) = mklower c :: lower s := rfl
      rw [hcons, hcons, List.map_cons, List.map_cons, List.cons.injEq, List.cons.injEq, hrest,
        h c List.mem_cons_self d List.mem_cons_self]

/-- A locale that tells apart what ASCII tells apart does not change the answer. -/
theorem nsSamedomain_congr {a b : Text}
    (h : ∀ c ∈ a, ∀ d ∈ b, tolower c = tolower d ↔ mklower c = mklower d) :
    nsSamedomain tolower a b = nsSamedomain mklower a b := by
  have hcmp (k n : ℕ) : strncasecmp tolower (a.drop k) b n = strncasecmp mklower (a.drop k) b n := by
    unfold strncasecmp
    simp only [decide_eq_decide]
    exact map_tolower_eq_iff tolower fun c hc d hd =>
      h c (List.mem_of_mem_drop (List.mem_of_mem_take hc)) d (List.mem_of_mem_take hd)
  have hwhole := hcmp 0
  simp only [List.drop_zero] at hwhole
  simp only [nsSamedomain, hcmp, hwhole]

/-- Two names of one label, which is an escaped character. -/
theorem nsSamedomain_escaped (c d : UInt8) :
    labels [backslash, c] = [[backslash, c]] ∧
      (nsSamedomain tolower [backslash, c] [backslash, d] = true ↔ tolower c = tolower d) := by
  have htrim (c : UInt8) : trimmed [backslash, c] = 2 := by
    simp [trimmed, escapedFrom]
  have hunrooted (c : UInt8) : unrooted [backslash, c] = [backslash, c] := by
    rw [← take_trimmed, htrim]
    rfl
  constructor
  · rw [labels, hunrooted]
    simp [split, backslash, dot]
  · simp [nsSamedomain, htrim, strncasecmp]

/-- Among the names written in a given set of characters the function finds the
subdomains exactly when the locale folds no more and no fewer of these characters
than ASCII does. -/
theorem nsSamedomain_iff {alphabet : Set UInt8} (hescape : backslash ∈ alphabet) :
    (∀ a b : Text, (∀ c ∈ a, c ∈ alphabet) → (∀ c ∈ b, c ∈ alphabet) → IsName a →
        (nsSamedomain tolower a b = true ↔ (labels b).map lower <:+ (labels a).map lower)) ↔
      ∀ c ∈ alphabet, ∀ d ∈ alphabet, tolower c = tolower d ↔ mklower c = mklower d := by
  constructor
  · intro h c hc d hd
    have hmem (c : UInt8) (hc : c ∈ alphabet) : ∀ x ∈ [backslash, c], x ∈ alphabet := by
      simp [hescape, hc]
    obtain ⟨hlabels, hsame⟩ := nsSamedomain_escaped tolower c d
    have hab := h _ _ (hmem c hc) (hmem d hd) (by simp [IsName, hlabels])
    rw [← hsame, hab, hlabels, (nsSamedomain_escaped tolower d c).1]
    simp [lower, List.suffix_cons_iff, eq_comm]
  · intro h a b ha hb hname
    rw [nsSamedomain_congr tolower fun c hc d hd => h c (ha c hc) d (hb d hd)]
    exact nsSamedomain_mklower b hname

end Locale

/-- The locale `tr_TR` in ISO-8859-9: `I` becomes a dotless i, and a dotted capital I
becomes `i`. -/
def turkish (c : UInt8) : UInt8 :=
  if c = 0x49 then 0xfd
  else if c = 0xdd then 0x69
  else if 0xc0 ≤ c ∧ c ≤ 0xde ∧ c ≠ 0xd7 then c + 0x20
  else mklower c

/-- In the C locale every name is judged rightly, such as `a.b` in `B`. -/
theorem nsSamedomain_iff_posix :
    nsSamedomain mklower [0x61, 0x2e, 0x62] [0x42] = true ↔
      (labels [0x42]).map lower <:+ (labels [0x61, 0x2e, 0x62]).map lower :=
  (nsSamedomain_iff mklower (Set.mem_univ backslash)).mpr (fun _ _ _ _ => Iff.rfl) _ _
    (fun _ _ => Set.mem_univ _) (fun _ _ => Set.mem_univ _) (by decide)

/-- In the Turkish locale `www.IBM.com` is not in `ibm.com`. -/
theorem turkish_tells_i_apart :
    nsSamedomain turkish [0x77, 0x77, 0x77, 0x2e, 0x49, 0x42, 0x4d, 0x2e, 0x63, 0x6f, 0x6d]
        [0x69, 0x62, 0x6d, 0x2e, 0x63, 0x6f, 0x6d] = false ∧
      (labels [0x69, 0x62, 0x6d, 0x2e, 0x63, 0x6f, 0x6d]).map lower <:+
        (labels [0x77, 0x77, 0x77, 0x2e, 0x49, 0x42, 0x4d, 0x2e, 0x63, 0x6f, 0x6d]).map lower := by
  decide

end AwaitGlibc.NsSamedomain

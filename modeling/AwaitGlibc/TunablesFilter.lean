import AwaitGlibc.TunablesRewrite

/-!
# The tunables left to children

A secure program passes on the pairs that are written back. Before the last
segment a pair is written no further than it was read, so it stays in front of
the text that is still to be read. The last segment is read again from each of
its equals signs on, and what is written back then may be read a second time or
may run past the end of the copy.

How much room there is follows from the text alone. `free` is the number of bytes
between the next byte to write and the name that is read. A name that is not
written back adds its bytes to it. A pair that is written back moves `free` bytes
to the front, so that the rest `v` of the segment, read again, is `v` without its
first `free` bytes followed by the last `free` bytes of `v`.
-/
namespace AwaitGlibc.TunablesFilter
open CText CheckedArray Tunables TunablesRewrite

/-- When the segment is read, and read again behind each equals sign, every name
that is written back has room. -/
def fits (kept : Text → Bool) (free : ℤ) (segment : Text) : Bool :=
  match hsplit : segment.dropWhile (· != '=') with
  | [] => true
  | _ :: v =>
    let name := segment.takeWhile (· != '=')
    if kept name then
      0 ≤ free && fits kept (free - v.length - 1)
        (v.drop free.toNat ++ v.drop (v.length - free.toNat))
    else fits kept (free + name.length + 1) v
termination_by segment.length
decreasing_by
  all_goals
    have hlength := congrArg List.length hsplit
    have hsuffix := (List.dropWhile_suffix (fun c : Char => c != '=') (l := segment)).length_le
    rw [List.length_cons] at hlength
  · simp only [List.length_append, List.length_drop]
    omega
  · omega

/-- Segments before the last are written back or leave room. -/
def fitsSegments (kept : Text → Bool) : ℤ → List Text → Bool
  | _, [] => true
  | free, [segment] => fits kept free segment
  | free, segment :: segments =>
    fitsSegments kept (if keptSegment kept segment then free else free + segment.length + 1)
      segments

/-- No name in front of an equals sign is written back. -/
def quiet (kept : Text → Bool) (t : Text) : Bool := (t.splitOn '=').dropLast.all (!kept ·)

/-- Only the first name of the last segment is written back, if any: nothing is when the
rest is read again, which has been moved by `free` bytes if the first name was. -/
def readOnce (kept : Text → Bool) (free : ℕ) (segment : Text) : Bool :=
  if keptSegment kept segment then
    let v := (segment.dropWhile (· != '=')).drop 1
    quiet kept (v.drop free ++ v.drop (v.length - free))
  else quiet kept segment

def readOnceSegments (kept : Text → Bool) : ℕ → List Text → Bool
  | _, [] => true
  | free, [segment] => readOnce kept free segment
  | free, segment :: segments =>
    readOnceSegments kept (if keptSegment kept segment then free else free + segment.length + 1)
      segments

section Text
variable {kept : Text → Bool}

theorem quiet_of_no_equals {t : Text} (h : '=' ∉ t) : quiet kept t = true := by
  rw [quiet, List.splitOn_eq_singleton h]
  rfl

theorem quiet_pair {name : Text} (h : '=' ∉ name) (v : Text) :
    quiet kept (name ++ '=' :: v) = (!kept name && quiet kept v) := by
  rw [quiet, List.splitOn_append_cons_self, List.splitOn_eq_singleton h, List.singleton_append,
    List.dropLast_cons_of_ne_nil (List.splitOn_ne_nil _ _), List.all_cons]
  rfl

theorem fits_of_no_equals (free : ℤ) {t : Text} (h : '=' ∉ t) : fits kept free t = true := by
  have hdrop : t.dropWhile (· != '=') = [] := by
    rw [List.dropWhile_eq_nil_iff]
    intro x hx
    simpa using fun e : x = '=' => h (e ▸ hx)
  rw [fits]
  split
  next => rfl
  next hsplit => exact absurd (hsplit.symm.trans hdrop) (List.cons_ne_nil _ _)

theorem fits_pair (free : ℤ) {name : Text} (h : '=' ∉ name) (v : Text) :
    fits kept free (name ++ '=' :: v) =
      if kept name then
        0 ≤ free && fits kept (free - v.length - 1)
          (v.drop free.toNat ++ v.drop (v.length - free.toNat))
      else fits kept (free + name.length + 1) v := by
  rw [fits]
  split
  next hsplit => exact absurd ((dropWhile_of_not_mem h v).symm.trans hsplit) (List.cons_ne_nil _ _)
  next c v' hsplit =>
    obtain ⟨rfl, rfl⟩ := List.cons.inj ((dropWhile_of_not_mem h v).symm.trans hsplit)
    simp only [takeWhile_of_not_mem h]

end Text

section Filter
variable {tunables : List Tunable} {s : Text} {outs : List Text} {σ : Parse}

/-- A segment that starts with the name of a tunable and an equals sign. -/
def names (segment : Text) (t : Tunable) : Bool := (t.name ++ ['=']).isPrefixOf segment

/-- The run ends, the offset stays within the text that was copied, and no segment
of the text left names a tunable that is to be erased. Bytes are stored only below
the offset, and one NUL at the last. -/
def Filtered (tunables : List Tunable) (s : Text) (r : Except Fault Parse) : Prop :=
  ∃ σ, r = .ok σ ∧ σ.off ≤ s.length ∧
    ∀ segment ∈ (cText σ.tunestr).splitOn ':', ∀ t,
      tunables.find? (names segment) = some t → t.securityLevel ≠ .sxidErase

theorem names_eq {name : Text} (hname : '=' ∉ name) (v : Text) (t : Tunable) :
    names (name ++ '=' :: v) t = decide (t.name = name) := by
  rw [names, Bool.eq_iff_iff, List.isPrefixOf_iff_prefix, decide_eq_true_eq]
  constructor
  · rintro ⟨u, hu⟩
    rw [List.append_assoc, List.singleton_append] at hu
    rw [← takeWhile_of_not_mem t.name_ok.1 u, hu, takeWhile_of_not_mem hname]
  · rintro rfl
    exact ⟨v, by simp⟩

theorem level_of_keptPair {o : Text} (h : KeptPair tunables o) {t : Tunable}
    (ht : tunables.find? (names o) = some t) : t.securityLevel ≠ .sxidErase := by
  have hkept := h.kept
  rw [keptSegment, Bool.and_eq_true, List.contains_iff_mem] at hkept
  obtain ⟨name, v, rfl, hname⟩ := List.eq_append_cons_of_mem hkept.1
  rw [takeWhile_of_not_mem hname] at hkept
  obtain ⟨cur, hfound, hlevel⟩ := writtenBack_iff.mp hkept.2
  have hlookup : tunables.find? (names (name ++ '=' :: v)) = lookup tunables name := by
    congr 1
    funext t
    exact names_eq hname v t
  rw [hlookup, hfound] at ht
  cases ht
  exact hlevel

theorem level_of_mem_segments (hkept : ∀ o ∈ outs, KeptPair tunables o) {segment : Text}
    (hsegment : segment ∈ (join outs).splitOn ':') {t : Tunable}
    (ht : tunables.find? (names segment) = some t) : t.securityLevel ≠ .sxidErase := by
  by_cases houts : outs = []
  · subst houts
    rw [show join [] = [] from rfl, List.splitOn_nil, List.mem_singleton] at hsegment
    subst hsegment
    have hnames := List.find?_some ht
    simp [names] at hnames
  · rw [join, List.splitOn_intercalate _ (fun o ho => (hkept o ho).no_colon) houts] at hsegment
    exact level_of_keptPair (hkept segment hsegment) ht

theorem filtered_of_end (hat : At tunables s outs σ)
    (htail : '=' ∉ (overlay s outs).drop σ.p ∧ ':' ∉ (overlay s outs).drop σ.p) (fuel : ℕ) :
    Filtered tunables s (parseLoop true tunables (fuel + 1) σ) := by
  obtain ⟨σ', hrun, hoff, htext⟩ := parseLoop_end hat htail fuel
  refine ⟨σ', hrun, hoff.le.trans hat.room, ?_⟩
  rw [htext]
  intro segment hsegment t ht
  exact level_of_mem_segments hat.kept hsegment ht

/-- The last segment, from any point at which it is read again. -/
theorem filtered_last_iff (fuel : ℕ) (hat : At tunables s outs σ)
    (hcolon : ':' ∉ (overlay s outs).drop σ.p)
    (hfuel : ((overlay s outs).drop σ.p).length < fuel) :
    Filtered tunables s (parseLoop true tunables fuel σ) ↔
      fits (writtenBack tunables) (σ.p - next outs) ((overlay s outs).drop σ.p) = true := by
  induction fuel generalizing outs σ with
  | zero => omega
  | succ fuel ih =>
    by_cases hequals : '=' ∈ (overlay s outs).drop σ.p
    · obtain ⟨name, v, htail, hpair⟩ := hat.exists_pairAt hcolon hequals
      have hlength : ((overlay s outs).drop σ.p).length = name.length + (v.length + 1) := by
        rw [htail, List.length_append, List.length_cons]
      have hcolon' : ':' ∉ v := hpair.value_ok.1
      rw [htail, fits_pair _ hpair.name_ok.1]
      by_cases hkept : writtenBack tunables name = true
      · rw [if_pos hkept]
        by_cases hroom : next outs ≤ σ.p
        · obtain ⟨σ', hrun, hat', hp', htail'⟩ :=
            parseLoop_last_of_written hpair hat htail hkept hroom fuel
          have hfree : ((σ.p : ℤ) - next outs).toNat = σ.p - next outs := by omega
          have hnext : (σ'.p : ℤ) - next (outs ++ [name ++ '=' :: v]) =
              σ.p - next outs - v.length - 1 := by
            rw [hp', next_append_singleton, List.length_append, List.length_cons]
            omega
          rw [decide_eq_true (by omega), Bool.true_and, hfree, hrun, ← htail', ← hnext]
          apply ih hat'
          · rw [htail', List.mem_append, not_or]
            exact ⟨fun h => hcolon' (List.mem_of_mem_drop h),
              fun h => hcolon' (List.mem_of_mem_drop h)⟩
          · rw [htail', List.length_append, List.length_drop, List.length_drop]
            omega
        · rw [decide_eq_false (by omega), Bool.false_and]
          refine iff_of_false ?_ Bool.false_ne_true
          rintro ⟨σ', hrun, -⟩
          exact parseLoop_of_no_room hpair hat hkept (by omega) fuel σ' hrun
      · obtain ⟨σ', hrun, hat', hp', htail'⟩ :=
          parseLoop_last_of_not_written hpair hat htail hkept fuel
        have hnext : (σ'.p : ℤ) - next outs = σ.p - next outs + name.length + 1 := by
          omega
        rw [if_neg hkept, hrun, ← hnext, ← htail']
        apply ih hat'
        · rw [htail']
          exact hcolon'
        · rw [htail']
          omega
    · rw [fits_of_no_equals _ hequals]
      exact iff_of_true (filtered_of_end hat ⟨hequals, hcolon⟩ fuel) rfl

theorem filtered_segments_iff (segments : List Text) (fuel : ℕ) (hat : At tunables s outs σ)
    (hroom : next outs ≤ σ.p) (htail : s.drop σ.p = join segments) (hne : segments ≠ [])
    (hcolon : ∀ segment ∈ segments, ':' ∉ segment) (hfuel : (s.drop σ.p).length < fuel) :
    Filtered tunables s (parseLoop true tunables fuel σ) ↔
      fitsSegments (writtenBack tunables) (σ.p - next outs) segments = true := by
  induction segments generalizing outs σ fuel with
  | nil => exact absurd rfl hne
  | cons segment segments ih =>
    have hsegment : ':' ∉ segment := hcolon segment List.mem_cons_self
    cases segments with
    | nil =>
      have hjoin := length_colon outs
      have hlast : (overlay s outs).drop σ.p = segment := by
        rw [drop_overlay (by omega), htail]
        exact List.intercalate_singleton
      have hiff := filtered_last_iff fuel hat (by rw [hlast]; exact hsegment)
        (by rw [drop_overlay (by omega)]; exact hfuel)
      rw [hlast] at hiff
      exact hiff
    | cons segment' segments =>
      rw [join, List.intercalate_cons_cons, List.append_assoc, List.singleton_append] at htail
      rw [htail, List.length_append, List.length_cons] at hfuel
      obtain _ | fuel := fuel
      · omega
      obtain ⟨outs', σ', -, hrun, hat', hp', hroom', hfree⟩ :=
        parseLoop_segment hat hroom htail hsegment fuel
      have htail' : s.drop σ'.p = join (segment' :: segments) := by
        rw [hp']
        exact drop_past htail
      rw [hrun]
      refine (ih fuel hat' hroom' htail' (by simp)
        (fun o ho => hcolon o (List.mem_cons_of_mem segment ho)) ?_).trans ?_
      · rw [htail', join]
        omega
      · rw [hfree]
        rfl

/-- The pairs of a text that a secure program leaves, as they stand in it. -/
def filteredText (tunables : List Tunable) (t : Text) : Text :=
  join ((t.splitOn ':').filter (keptSegment (writtenBack tunables)))

/-- A parse that leaves the text `t`. -/
def Leaves (r : Except Fault Parse) (t : Text) : Prop := ∃ σ, r = .ok σ ∧ cText σ.tunestr = t

/-- What has been written stays, and nothing is added to it exactly when the rest of
the last segment is quiet. -/
theorem leaves_join_iff (fuel : ℕ) (hat : At tunables s outs σ)
    (hcolon : ':' ∉ (overlay s outs).drop σ.p)
    (hfuel : ((overlay s outs).drop σ.p).length < fuel) :
    (∀ t, Leaves (parseLoop true tunables fuel σ) t → (join outs).length ≤ t.length) ∧
      (Leaves (parseLoop true tunables fuel σ) (join outs) ↔
        quiet (writtenBack tunables) ((overlay s outs).drop σ.p) = true) := by
  induction fuel generalizing outs σ with
  | zero => omega
  | succ fuel ih =>
    by_cases hequals : '=' ∈ (overlay s outs).drop σ.p
    · obtain ⟨name, v, htail, hpair⟩ := hat.exists_pairAt hcolon hequals
      have hlength : ((overlay s outs).drop σ.p).length = name.length + (v.length + 1) := by
        rw [htail, List.length_append, List.length_cons]
      have hcolon' : ':' ∉ v := hpair.value_ok.1
      rw [htail, quiet_pair hpair.name_ok.1]
      by_cases hkept : writtenBack tunables name = true
      · rw [hkept, Bool.not_true, Bool.false_and]
        by_cases hroom : next outs ≤ σ.p
        · obtain ⟨σ', hrun, hat', -, htail'⟩ :=
            parseLoop_last_of_written hpair hat htail hkept hroom fuel
          have hjoin := length_colon outs
          have hlonger := length_join_append_singleton outs (name ++ '=' :: v)
          rw [List.length_append, List.length_cons] at hlonger
          have hrest := (ih hat' (by
            rw [htail', List.mem_append, not_or]
            exact ⟨fun h => hcolon' (List.mem_of_mem_drop h),
              fun h => hcolon' (List.mem_of_mem_drop h)⟩) (by
            rw [htail', List.length_append, List.length_drop, List.length_drop]
            omega)).1
          rw [hrun]
          refine ⟨fun t ht => ?_, iff_of_false (fun ht => ?_) Bool.false_ne_true⟩
          · have := hrest t ht
            omega
          · have := hrest _ ht
            omega
        · have hfault := parseLoop_of_no_room hpair hat hkept (not_le.mp hroom) fuel
          refine ⟨fun t ht => ?_, iff_of_false (fun ht => ?_) Bool.false_ne_true⟩
          · exact (hfault _ ht.choose_spec.1).elim
          · exact hfault _ ht.choose_spec.1
      · obtain ⟨σ', hrun, hat', -, htail'⟩ :=
          parseLoop_last_of_not_written hpair hat htail hkept fuel
        have hrest := ih hat' (by rw [htail']; exact hcolon') (by rw [htail']; omega)
        rw [htail'] at hrest
        rw [hrun, Bool.eq_false_iff.mpr hkept, Bool.not_false, Bool.true_and]
        exact hrest
    · obtain ⟨σ', hrun, -, htext⟩ := parseLoop_end hat ⟨hequals, hcolon⟩ fuel
      refine ⟨?_, iff_of_true ⟨σ', hrun, htext⟩ (quiet_of_no_equals hequals)⟩
      rintro t ⟨σ₁, hrun₁, rfl⟩
      rw [hrun, Except.ok.injEq] at hrun₁
      rw [← hrun₁, htext]

theorem leaves_last_iff {segment : Text} (fuel : ℕ) (hat : At tunables s outs σ)
    (hroom : next outs ≤ σ.p) (htail : s.drop σ.p = segment) (hcolon : ':' ∉ segment)
    (hfuel : segment.length < fuel) :
    Leaves (parseLoop true tunables fuel σ)
        (join (outs ++ [segment].filter (keptSegment (writtenBack tunables)))) ↔
      readOnce (writtenBack tunables) (σ.p - next outs) segment = true := by
  have hjoin := length_colon outs
  have hlast : (overlay s outs).drop σ.p = segment := by rw [drop_overlay (by omega), htail]
  subst hlast
  by_cases hkept : keptSegment (writtenBack tunables) ((overlay s outs).drop σ.p) = true
  · have hequals : '=' ∈ (overlay s outs).drop σ.p := by
      rw [keptSegment, Bool.and_eq_true, List.contains_iff_mem] at hkept
      exact hkept.1
    obtain ⟨name, v, hname, hpair⟩ := hat.exists_pairAt hcolon hequals
    rw [readOnce, if_pos hkept, List.filter_cons_of_pos hkept, List.filter_nil]
    rw [hname] at hkept hfuel ⊢
    have hwritten : writtenBack tunables name = true := by
      simpa [keptSegment, takeWhile_of_not_mem hpair.name_ok.1] using hkept
    have hcolon' : ':' ∉ v := hpair.value_ok.1
    rw [List.length_append, List.length_cons] at hfuel
    obtain _ | fuel := fuel
    · omega
    obtain ⟨σ', hrun, hat', -, htail'⟩ :=
      parseLoop_last_of_written hpair hat hname hwritten hroom fuel
    rw [hrun, dropWhile_of_not_mem hpair.name_ok.1, List.drop_one, List.tail_cons]
    dsimp only
    rw [← htail']
    refine (leaves_join_iff fuel hat' ?_ ?_).2
    · rw [htail', List.mem_append, not_or]
      exact ⟨fun h => hcolon' (List.mem_of_mem_drop h), fun h => hcolon' (List.mem_of_mem_drop h)⟩
    · rw [htail', List.length_append, List.length_drop, List.length_drop]
      omega
  · rw [readOnce, if_neg hkept, List.filter_cons_of_neg hkept, List.filter_nil, List.append_nil]
    exact (leaves_join_iff fuel hat hcolon hfuel).2

theorem leaves_segments_iff (segments : List Text) (fuel : ℕ) (hat : At tunables s outs σ)
    (hroom : next outs ≤ σ.p) (htail : s.drop σ.p = join segments) (hne : segments ≠ [])
    (hcolon : ∀ segment ∈ segments, ':' ∉ segment) (hfuel : (s.drop σ.p).length < fuel) :
    Leaves (parseLoop true tunables fuel σ)
        (join (outs ++ segments.filter (keptSegment (writtenBack tunables)))) ↔
      readOnceSegments (writtenBack tunables) (σ.p - next outs) segments = true := by
  induction segments generalizing outs σ fuel with
  | nil => exact absurd rfl hne
  | cons segment segments ih =>
    have hsegment : ':' ∉ segment := hcolon segment List.mem_cons_self
    cases segments with
    | nil =>
      have hlast : s.drop σ.p = segment := htail.trans List.intercalate_singleton
      exact leaves_last_iff fuel hat hroom hlast hsegment (hlast ▸ hfuel)
    | cons segment' segments =>
      rw [join, List.intercalate_cons_cons, List.append_assoc, List.singleton_append] at htail
      rw [htail, List.length_append, List.length_cons] at hfuel
      obtain _ | fuel := fuel
      · omega
      obtain ⟨outs', σ', houts, hrun, hat', hp', hroom', hfree⟩ :=
        parseLoop_segment hat hroom htail hsegment fuel
      have htail' : s.drop σ'.p = join (segment' :: segments) := by
        rw [hp']
        exact drop_past htail
      have hrest := ih fuel hat' hroom' htail' (by simp)
        (fun o ho => hcolon o (List.mem_cons_of_mem segment ho)) (by rw [htail', join]; omega)
      have hfree' : σ'.p - next outs' = if keptSegment (writtenBack tunables) segment
          then σ.p - next outs else σ.p - next outs + segment.length + 1 := by
        split_ifs at hfree ⊢ <;> omega
      rw [hfree', houts, List.append_assoc, ← List.filter_append, List.singleton_append] at hrest
      rw [hrun]
      exact hrest

theorem at_start (tunables : List Tunable) (s : CString) : At tunables s.text [] (start s) where
  no_nul := s.noNul
  tunestr := pointer_tunablesStrdup glibcTunables s.text
  off := rfl
  room := Nat.zero_le _
  p_le := Nat.zero_le _
  valstring := ⟨s.text ++ [nul], rfl, List.length_append, rfl⟩
  kept := by simp

theorem filtered_iff_fitsSegments (tunables : List Tunable) (s : CString) :
    Filtered tunables s.text (parseTunables true tunables s) ↔
      fitsSegments (writtenBack tunables) 0 (s.text.splitOn ':') = true := by
  have hat := at_start tunables s
  unfold parseTunables
  split_ifs with hempty
  · have htext : cText (start s).tunestr = join [] := by
      rw [hat.tunestr, hempty]
      exact cText_ofWritten (t := []) (by simp) _ []
    refine iff_of_true ⟨start s, rfl, Nat.zero_le _, ?_⟩ ?_
    · rw [htext]
      intro segment hsegment t ht
      exact level_of_mem_segments hat.kept hsegment ht
    · rw [hempty]
      exact fits_of_no_equals 0 (by simp)
  · exact filtered_segments_iff (s.text.splitOn ':') _ hat (Nat.zero_le _)
      (List.intercalate_splitOn ':').symm (List.splitOn_ne_nil _ _)
      (fun segment h => not_mem_of_mem_splitOn h) (Nat.lt_succ_self _)

theorem leaves_filteredText_iff (tunables : List Tunable) (s : CString) :
    Leaves (parseTunables true tunables s) (filteredText tunables s.text) ↔
      readOnceSegments (writtenBack tunables) 0 (s.text.splitOn ':') = true := by
  have hat := at_start tunables s
  unfold parseTunables
  split_ifs with hempty
  · refine iff_of_true ⟨start s, rfl, ?_⟩ ?_
    · rw [hat.tunestr, hempty]
      exact cText_ofWritten (t := []) (by simp) _ []
    · rw [hempty]
      rfl
  · exact leaves_segments_iff (s.text.splitOn ':') _ hat (Nat.zero_le _)
      (List.intercalate_splitOn ':').symm (List.splitOn_ne_nil _ _)
      (fun segment h => not_mem_of_mem_splitOn h) (Nat.lt_succ_self _)

/-- In a secure program the variable is filtered within its copy exactly when every
name that is written back has room. -/
theorem parseTunables_filtered_iff (tunables : List Tunable) (s : CString) :
    Filtered tunables s.text (parseTunables true tunables s) ↔
      fitsSegments (writtenBack tunables) 0 (s.text.splitOn ':') = true :=
  filtered_iff_fitsSegments tunables s

section Examples

def keptTunable : Tunable where
  name := "a".toList
  securityLevel := .sxidIgnore
  name_ok := by decide

def twice : CString where
  text := "a=a=b".toList
  noNul := by decide

/-- The pair fills the copy, and its value is a pair that is written behind it. -/
theorem second_reading_stores_outside :
    parseTunables true [keptTunable] twice = .error (.storeOutside 7 7) ∧
      ¬ Filtered [keptTunable] twice.text (parseTunables true [keptTunable] twice) := by
  have hrun : parseTunables true [keptTunable] twice = .error (.storeOutside 7 7) := by
    decide +kernel
  refine ⟨hrun, ?_⟩
  rintro ⟨σ, h, -⟩
  cases h

end Examples

end Filter

end AwaitGlibc.TunablesFilter

import AwaitGlibc.FindObject

/-!
# What a lookup finds in a table at rest

The binary search is correct on every array whose elements are in order and do
not overlap. The walk over a chain of such arrays then finds the one element of
the chain that contains the address, looking into a single segment.
-/
namespace AwaitGlibc.FindObject
open CheckedArray VersionedRead

/-- Elements in increasing order of their starts, none reaching into the next. An
element of length zero may stand anywhere between two others. -/
def Ordered (es : List Entry) : Prop :=
  es.Pairwise fun a b => a.mapStart < b.mapStart ∧ a.mapEnd ≤ b.mapStart

variable {es : List Entry} {pc : ℕ}

theorem Ordered.eq_of_contains (h : Ordered es) {a b : Entry} (ha : a ∈ es) (hb : b ∈ es)
    (hpa : a.Contains pc) (hpb : b.Contains pc) : a = b := by
  obtain ⟨i, hi, rfl⟩ := List.getElem_of_mem ha
  obtain ⟨j, hj, rfl⟩ := List.getElem_of_mem hb
  obtain hij | rfl | hij := Nat.lt_trichotomy i j
  · have := List.pairwise_iff_getElem.mp h i j hi hj hij
    unfold Entry.Contains at hpa hpb
    omega
  · rfl
  · have := List.pairwise_iff_getElem.mp h j i hj hi hij
    unfold Entry.Contains at hpa hpb
    omega

variable {e : Entry}

theorem Ordered.find?_eq_some (h : Ordered es) (he : e ∈ es) (hpc : e.Contains pc) :
    es.find? (·.Contains pc) = some e := by
  cases hfind : es.find? (·.Contains pc) with
  | none =>
    have := List.find?_eq_none.mp hfind e he
    simp [hpc] at this
  | some b =>
    have hb : b.Contains pc := by simpa using List.find?_some hfind
    rw [h.eq_of_contains (List.mem_of_find?_eq_some hfind) he hb hpc]

theorem find?_contains_eq_none (h : ∀ e ∈ es, ¬e.Contains pc) :
    es.find? (·.Contains pc) = none := by
  simpa using h

section Lookup
variable {A : Type} {m : A → Option ℕ} {object : ℤ → Field → A} {es : List Entry} {pc : ℕ}

def Reads (m : A → Option ℕ) (object : ℤ → Field → A) (es : List Entry) : Prop :=
  ∀ (k : ℕ) (e : Entry), es[k]? = some e → ∀ f, m (object k f) = some (e.get f)

/-- `r` separates the elements that start below `pc` from the others. -/
structure IsLowerBound (es : List Entry) (pc r : ℕ) : Prop where
  le_length : r ≤ es.length
  below : ∀ (i : ℕ) (e : Entry), es[i]? = some e → i < r → e.mapStart < pc
  above : ∀ (i : ℕ) (e : Entry), es[i]? = some e → r ≤ i → pc ≤ e.mapStart

theorem Ordered.getElem?_lt (h : Ordered es) {i j : ℕ} {a b : Entry} (ha : es[i]? = some a)
    (hb : es[j]? = some b) (hij : i < j) : a.mapStart < b.mapStart ∧ a.mapEnd ≤ b.mapStart := by
  obtain ⟨hi, rfl⟩ := List.getElem?_eq_some_iff.mp ha
  obtain ⟨hj, rfl⟩ := List.getElem?_eq_some_iff.mp hb
  exact List.pairwise_iff_getElem.mp h i j hi hj hij

theorem lowerBound_run (pc : ℕ) (hm : Reads m object es) (ho : Ordered es) (fuel first size : ℕ)
    (hfuel : size ≤ fuel) (hend : first + size ≤ es.length)
    (hbelow : ∀ (i : ℕ) (e : Entry), es[i]? = some e → i < first → e.mapStart < pc)
    (habove : ∀ (i : ℕ) (e : Entry), es[i]? = some e → first + size ≤ i → pc ≤ e.mapStart) :
    ∃ r, (lowerBound object pc fuel first size).run m = some r ∧ IsLowerBound es pc r := by
  induction fuel generalizing first size with
  | zero =>
    have hsize : size = 0 := by omega
    subst hsize
    exact ⟨first, rfl, by omega, hbelow, by simpa using habove⟩
  | succ fuel ih =>
    unfold lowerBound
    by_cases hsize : size = 0
    · subst hsize
      exact ⟨first, by simp, by omega, hbelow, by simpa using habove⟩
    · obtain ⟨e, he⟩ : ∃ e, es[first + size / 2]? = some e :=
        ⟨_, List.getElem?_eq_getElem (by omega)⟩
      rw [if_neg hsize]
      simp only [Loads.run_bind, Loads.run_fetch, hm _ _ he, Option.bind_some, Entry.get]
      by_cases hlt : e.mapStart < pc
      · -- the middle and everything before it start below
        rw [if_pos hlt]
        apply ih
        · omega
        · omega
        · intro i a ha hi
          by_cases heq : i = first + size / 2
          · subst heq
            rw [he, Option.some.injEq] at ha
            exact ha ▸ hlt
          · have := (ho.getElem?_lt ha he (by omega)).1
            omega
        · intro i a ha hi
          exact habove i a ha (by omega)
      · rw [if_neg hlt]
        apply ih
        · omega
        · omega
        · exact hbelow
        · intro i a ha hi
          by_cases heq : i = first + size / 2
          · subst heq
            rw [he, Option.some.injEq] at ha
            subst ha
            omega
          · have := (ho.getElem?_lt he ha (by omega)).1
            omega

/-- What a lookup may return: the index of an element that contains the address,
or nothing when no element does. -/
def Located (es : List Entry) (pc : ℕ) : Option ℤ → Prop
  | some i => ∃ (k : ℕ) (e : Entry), i = k ∧ es[k]? = some e ∧ e.Contains pc
  | none => ∀ e ∈ es, ¬e.Contains pc

/-- Only the element at the lower bound or the one before it can contain the
address. -/
theorem IsLowerBound.not_contains (ho : Ordered es) {r : ℕ} (hr : IsLowerBound es pc r)
    (hat : ∀ e, es[r]? = some e → ¬e.Contains pc)
    (hbefore : ∀ e, 0 < r → es[r - 1]? = some e → ¬e.Contains pc) :
    ∀ e ∈ es, ¬e.Contains pc := by
  intro e he hpc
  obtain ⟨i, hi⟩ := List.mem_iff_getElem?.mp he
  obtain hlt | rfl | hgt := Nat.lt_trichotomy i r
  · by_cases heq : i = r - 1
    · exact hbefore e (by omega) (heq ▸ hi) hpc
    · have hlen := hr.le_length
      obtain ⟨b, hb⟩ : ∃ b, es[r - 1]? = some b := ⟨_, List.getElem?_eq_getElem (by omega)⟩
      have hlt' := ho.getElem?_lt hi hb (by omega)
      have hb' := hr.below (r - 1) b hb (by omega)
      unfold Entry.Contains at hpc
      omega
  · exact hat e hi hpc
  · have hlen := (List.getElem?_eq_some_iff.mp hi).1
    obtain ⟨b, hb⟩ : ∃ b, es[r]? = some b := ⟨_, List.getElem?_eq_getElem (by omega)⟩
    have hlt' := ho.getElem?_lt hb hi hgt
    have hb' := hr.above r b hb le_rfl
    unfold Entry.Contains at hpc
    omega

theorem previousContains_run (hm : Reads m object es) (ho : Ordered es) {r : ℕ}
    (hr : IsLowerBound es pc r) (hpos : 0 < r) (hat : ∀ e, es[r]? = some e → ¬e.Contains pc) :
    ∃ i, (previousContains object pc r).run m = some i ∧ Located es pc i := by
  have hlen := hr.le_length
  obtain ⟨e, he⟩ : ∃ e, es[r - 1]? = some e := ⟨_, List.getElem?_eq_getElem (by omega)⟩
  have hcast : ((r : ℤ) - 1) = ((r - 1 : ℕ) : ℤ) := by omega
  have hload := hm _ _ he .mapEnd
  unfold previousContains
  simp only [hcast, Loads.run_bind, Loads.run_fetch, hload, Option.bind_some, Loads.run_pure,
    Entry.get, Option.some.injEq, exists_eq_left']
  have hstart := hr.below (r - 1) e he (by omega)
  by_cases hlt : pc < e.mapEnd
  · rw [if_pos hlt]
    exact ⟨r - 1, e, rfl, he, by omega, hlt⟩
  · rw [if_neg hlt]
    apply hr.not_contains ho hat
    intro b _ hb
    rw [he, Option.some.injEq] at hb
    subst hb
    unfold Entry.Contains
    omega

theorem dlfoLookup_run (hm : Reads m object es) (ho : Ordered es) {e₀ : Entry}
    (h₀ : es[0]? = some e₀) (hpc : e₀.mapStart ≤ pc) :
    ∃ i, (dlfoLookup object pc es.length).run m = some i ∧ Located es pc i := by
  obtain ⟨r, hrun, hr⟩ := lowerBound_run pc hm ho es.length 0 es.length le_rfl (by omega)
    (by omega) (by
      intro i e he hi
      have := (List.getElem?_eq_some_iff.mp he).1
      omega)
  unfold dlfoLookup
  simp only [Loads.run_bind, hrun, Option.bind_some]
  by_cases hend : r = es.length
  · rw [if_pos hend]
    have hpos := (List.getElem?_eq_some_iff.mp h₀).1
    apply previousContains_run hm ho hr (by omega)
    intro e he
    have := (List.getElem?_eq_some_iff.mp he).1
    omega
  · have hlen := hr.le_length
    obtain ⟨e, he⟩ : ∃ e, es[r]? = some e := ⟨_, List.getElem?_eq_getElem (by omega)⟩
    rw [if_neg hend]
    simp only [Loads.run_bind, Loads.run_fetch, hm _ _ he, Option.bind_some, Entry.get]
    have hle := hr.above r e he le_rfl
    by_cases heq : pc = e.mapStart
    · rw [if_pos heq]
      simp only [Loads.run_bind, Loads.run_fetch, hm _ _ he, Option.bind_some, Entry.get,
        Loads.run_pure, Option.some.injEq, exists_eq_left']
      by_cases hlt : pc < e.mapEnd
      · rw [if_pos hlt]
        exact ⟨r, e, rfl, he, by omega, hlt⟩
      · rw [if_neg hlt]
        apply hr.not_contains ho
        · intro b hb
          rw [he, Option.some.injEq] at hb
          subst hb
          unfold Entry.Contains
          omega
        · intro b hpos hb
          have := ho.getElem?_lt hb he (by omega)
          unfold Entry.Contains
          omega
    · rw [if_neg heq]
      apply previousContains_run hm ho hr
      · apply Nat.pos_of_ne_zero
        rintro rfl
        rw [h₀, Option.some.injEq] at he
        subst he
        omega
      · intro b hb
        rw [he, Option.some.injEq] at hb
        subst hb
        unfold Entry.Contains
        omega

theorem dlFindObjectInternalCopy_run {object : Field → A} (h : ∀ f, m (object f) = some (e.get f)) :
    (dlFindObjectInternalCopy object).run m = some e := by
  simp [dlFindObjectInternalCopy, h, Entry.get]

end Lookup

/-! ## The walk over a chain -/

/-- The elements in use of a chain, in the order of addresses: up to the first
segment of size zero. -/
def entries : List Segment → List Entry
  | [] => []
  | seg :: previous =>
    if seg.size = 0 then [] else entries previous ++ seg.objects.take seg.size

def Sized (chain : List Segment) : Prop := ∀ seg ∈ chain, seg.size ≤ seg.allocated

theorem segmentAt_append (newer : List Segment) (seg : Segment) (previous : List Segment) :
    segmentAt (newer ++ seg :: previous) (previous.length + 1) = some seg := by
  induction newer with
  | nil => simp [segmentAt]
  | cons a newer ih =>
    simp only [List.cons_append, segmentAt]
    rw [if_neg (by simp; omega), ih]

section Walk
variable {m : Mappings} {copy : Bool} {newer chain : List Segment}

variable {seg : Segment} {previous : List Segment}

theorem load_size (h : m.chain copy = newer ++ chain)
    (hc : chain = seg :: previous) : m.load (.size copy (previous.length + 1)) = some seg.size := by
  subst hc
  simp [Mappings.load, h, segmentAt_append]

theorem reads_objects (h : m.chain copy = newer ++ chain) (hc : chain = seg :: previous) :
    Reads m.load (.object copy (previous.length + 1)) (seg.objects.take seg.size) := by
  intro k e he f
  subst hc
  have hget : seg.objects[k]? = some e := by
    rw [List.getElem?_take] at he
    split_ifs at he
    exact he
  simp [Mappings.load, h, segmentAt_append, Segment.load, hget]

theorem exists_first (hs : seg.size ≤ seg.allocated) (h : seg.size ≠ 0) :
    ∃ e, (seg.objects.take seg.size)[0]? = some e := by
  refine ⟨_, List.getElem?_eq_getElem ?_⟩
  unfold Segment.allocated at hs
  simp only [List.length_take]
  omega

theorem contains_of_first_le {e₀ : Entry} {pc : ℕ}
    (ho : Ordered (entries previous ++ seg.objects.take seg.size))
    (h₀ : (seg.objects.take seg.size)[0]? = some e₀) (hpc : e₀.mapStart ≤ pc)
    (he : e ∈ entries previous) : ¬e.Contains pc := by
  have := (List.pairwise_append.mp ho).2.2 e he e₀ (List.mem_of_getElem? h₀)
  unfold Entry.Contains
  omega

theorem not_contains_of_lt_first {es : List Entry} {e₀ : Entry} {pc : ℕ} (ho : Ordered es)
    (h₀ : es[0]? = some e₀) (hpc : pc < e₀.mapStart) (he : e ∈ es) : ¬e.Contains pc := by
  obtain ⟨i, hi⟩ := List.mem_iff_getElem?.mp he
  unfold Entry.Contains
  cases i with
  | zero =>
    rw [h₀, Option.some.injEq] at hi
    subst hi
    omega
  | succ i =>
    have := (ho.getElem?_lt h₀ hi (by omega)).1
    omega

/-- What the walk may return: where in the chain the element that contains the
address is, with segments in use in front of it only, or nothing when no element
in use contains it. -/
def LocatedIn (chain : List Segment) (pc : ℕ) : Option (ℕ × ℤ) → Prop
  | some (p, i) => ∃ newer seg previous, ∃ (k : ℕ) (e : Entry), chain = newer ++ seg :: previous ∧
      p = previous.length + 1 ∧ i = k ∧ (∀ s ∈ newer, s.size ≠ 0) ∧ seg.size ≠ 0 ∧
      (seg.objects.take seg.size)[k]? = some e ∧ e.Contains pc
  | none => ∀ e ∈ entries chain, ¬e.Contains pc

/-- One segment decides: if the address is not below its first element, no older
segment contains it, and if it is, this segment does not. -/
theorem locateObject_run (newer : List Segment) (h : m.chain copy = newer ++ chain) (hs : Sized chain)
    (ho : Ordered (entries chain)) (pc : ℕ) :
    ∃ r, (locateObject copy pc chain.length).run m.load = some r ∧ LocatedIn chain pc r := by
  induction chain generalizing newer with
  | nil => exact ⟨none, rfl, by simp [LocatedIn, entries]⟩
  | cons seg previous ih =>
    simp only [List.length_cons, locateObject, Loads.run_bind, Loads.run_fetch,
      load_size h rfl, Option.bind_some]
    by_cases hzero : seg.size = 0
    · rw [if_pos hzero]
      exact ⟨none, rfl, by simp [LocatedIn, entries, hzero]⟩
    · have hseg := hs seg List.mem_cons_self
      simp only [entries, if_neg hzero] at ho
      obtain ⟨e₀, h₀⟩ := exists_first hseg hzero
      have hreads := reads_objects h rfl
      have hbase : m.load (.object copy (previous.length + 1) 0 .mapStart) =
          some e₀.mapStart := hreads 0 e₀ h₀ .mapStart
      obtain ⟨hprev, hhere, hbetween⟩ := List.pairwise_append.mp ho
      rw [if_neg hzero]
      simp only [Loads.run_bind, Loads.run_fetch, hbase, Option.bind_some]
      by_cases hpc : e₀.mapStart ≤ pc
      · rw [if_pos hpc]
        obtain ⟨i, hrun, hloc⟩ := dlfoLookup_run hreads hhere h₀ hpc
        have hlen : (seg.objects.take seg.size).length = seg.size := by
          simpa [Segment.allocated] using hseg
        rw [hlen] at hrun
        simp only [Loads.run_bind, hrun, Option.bind_some, Loads.run_pure, Option.some.injEq,
          exists_eq_left']
        cases i with
        | none =>
          intro e he
          simp only [entries, if_neg hzero] at he
          obtain he | he := List.mem_append.mp he
          · exact contains_of_first_le ho h₀ hpc he
          · exact hloc e he
        | some i =>
          obtain ⟨k, e, rfl, hk, hcon⟩ := hloc
          exact ⟨[], seg, previous, k, e, rfl, rfl, rfl, by simp, hzero, hk, hcon⟩
      · rw [if_neg hpc]
        obtain ⟨r, hrun, hloc⟩ := ih (newer ++ [seg]) (by simpa using h)
          (fun a ha => hs a (List.mem_cons_of_mem _ ha)) hprev
        refine ⟨r, hrun, ?_⟩
        match r, hloc with
        | none, hloc =>
          intro e he
          simp only [entries, if_neg hzero] at he
          obtain he | he := List.mem_append.mp he
          · exact hloc e he
          · exact not_contains_of_lt_first hhere h₀ (by omega) he
        | some (p, i), ⟨newer', seg', previous', k, e, hc, hp, hi, hnew, hne, hk, hcon⟩ =>
          refine ⟨seg :: newer', seg', previous', k, e, by simp [hc], hp, hi, ?_, hne, hk, hcon⟩
          exact List.forall_mem_cons.mpr ⟨hzero, hnew⟩

theorem mem_entries_append
    (hnew : ∀ s ∈ newer, s.size ≠ 0) (hne : seg.size ≠ 0) (he : e ∈ seg.objects.take seg.size) :
    e ∈ entries (newer ++ seg :: previous) := by
  induction newer with
  | nil => simp [entries, hne, he]
  | cons a newer ih =>
    rw [List.forall_mem_cons] at hnew
    simp only [List.cons_append, entries, if_neg hnew.1]
    exact List.mem_append_left _ (ih hnew.2)

end Walk

theorem locateActive_run {m : Mappings} (hs : Sized m.active) (ho : Ordered (entries m.active))
    (pc : ℕ) :
    ∃ r, (locateActive pc m.version).run m.load = some r ∧ LocatedIn m.active pc r := by
  exact locateObject_run [] rfl hs ho pc

/-- The answer of the table at rest: the element in use that contains the
address. -/
theorem find_eq {m : Mappings} (hs : Sized m.active) (ho : Ordered (entries m.active)) (pc : ℕ) :
    m.find pc = some ((entries m.active).find? (·.Contains pc)) := by
  obtain ⟨r, hrun, hloc⟩ := locateActive_run hs ho pc
  simp only [Mappings.find, findLoaded, Loads.run_bind, hrun, Option.bind_some]
  match r, hloc with
  | none, hloc => simp [find?_contains_eq_none hloc]
  | some (_, _), ⟨newer, seg, previous, k, e, hc, rfl, rfl, hnew, hne, hk, hcon⟩ =>
    have hreads := reads_objects hc rfl
    have hmem : e ∈ entries m.active :=
      hc ▸ mem_entries_append hnew hne (List.mem_of_getElem? hk)
    rw [Ordered.find?_eq_some ho hmem hcon, Loads.run_map,
      dlFindObjectInternalCopy_run (hreads k e hk)]
    rfl

end AwaitGlibc.FindObject

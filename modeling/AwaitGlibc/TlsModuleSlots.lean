import AwaitGlibc.TlsModuleIds

/-!
# Slots of TLS modules: made, filled in and given back

The second half of a `dlopen` and the TLS part of `_dl_close_worker`, on the numbering
with pending objects. Room is made in the order of the search list, and the assertion
of `_dl_add_to_slotinfo` holds when that is the order of the ids. An id can be given
back when it has a slot or lies right behind the last one.
-/
namespace AwaitGlibc.TlsModuleIds
open CheckedArray TlsSlots
variable {α : Type}

/-! ## Making room -/

structure Grown (s s' : State α) (j : ℕ) : Prop where
  same : s' = { s with segments := s'.segments }
  segments : s'.segments =
    s.segments ++ List.replicate j (List.replicate slotinfoSurplus Slot.empty)

namespace Grown
variable {s s' : State α} {j : ℕ}

section
variable (h : Grown s s' j)
include h

theorem slots_eq : s'.slots = s.slots ++ List.replicate (slotinfoSurplus * j) Slot.empty := by
  rw [State.slots, h.segments, List.flatten_append, List.flatten_replicate_replicate,
    Nat.mul_comm]
  rfl

theorem size_eq : s'.size = s.size + slotinfoSurplus * j := by
  rw [State.size, h.slots_eq, List.length_append, List.length_replicate]
  rfl

theorem holder_eq (i : ℕ) : holder s'.slots i = holder s.slots i := by
  rw [h.slots_eq]
  by_cases hi : i < s.slots.length
  · exact holder_append_left hi
  · rw [holder_append_right (by omega), holder_of_length_le (Nat.le_of_not_lt hi), holder,
      List.getElem?_replicate]
    split <;> rfl

theorem trans {s'' : State α} {j' : ℕ} (h' : Grown s' s'' j') : Grown s s'' (j + j') where
  same := by
    rw [h'.same, h.same]
  segments := by
    rw [h'.segments, h.segments, List.append_assoc, List.replicate_append_replicate]

theorem modid_eq : s'.modid = s.modid := by rw [h.same]

theorem numbered {pending : List α} (hs : Numbered s pending) : Numbered s' pending := by
  have hslots := h.holder_eq
  have hsize : s.size ≤ s'.size := by
    rw [h.size_eq]
    omega
  have hseg := h.segments
  rw [h.same] at hslots hsize ⊢
  refine
    { hs with
      room := ?_
      segments_ne := ?_
      held := by simpa only [hslots] using hs.held
      pending_slot := by simpa only [hslots] using hs.pending_slot
      holder_modid := by simpa only [hslots] using hs.holder_modid
      holder_le := by simpa only [hslots] using hs.holder_le
      no_gap := by simpa only [hslots] using hs.no_gap
      max_inside := hs.max_inside.imp_left fun hlt => lt_of_lt_of_le hlt hsize }
  · intro seg next heq
    cases hold : s.segments with
    | nil => exact absurd hold hs.segments_ne
    | cons seg' next' =>
      rw [show s'.segments = seg :: next from heq, hold] at hseg
      rw [(List.cons.inj hseg).1]
      exact hs.room seg' next' hold
  · rw [hseg]
    simp [hs.segments_ne]

end

end Grown

variable {s s' : State α} {l : α} {pending closing : List α}

/-- Room is made for an id right behind the last slot. -/
theorem addToList_of_le (h : s.modid l ≤ s.size) :
    ∃ s' j, addToList false s l = .ok s' ∧ Grown s s' j ∧ s.modid l < s'.size := by
  rw [addToList, addToSlotinfo_resize]
  by_cases hlt : s.modid l < s.segments.flatten.length
  · rw [if_pos hlt]
    exact ⟨s, 0, rfl, ⟨rfl, by simp⟩, hlt⟩
  · have hend : s.modid l = s.segments.flatten.length := le_antisymm h (Nat.le_of_not_lt hlt)
    have hgrown : Grown s { s with
        segments := s.segments ++ [List.replicate slotinfoSurplus Slot.empty] } 1 := ⟨rfl, rfl⟩
    rw [if_neg hlt, if_pos hend]
    refine ⟨_, 1, rfl, hgrown, ?_⟩
    rw [hgrown.size_eq, State.size, State.slots, hend, slotinfoSurplus]
    omega

theorem addToList_of_lt (h : s.size < s.modid l) : addToList false s l = .error .assertion := by
  change s.segments.flatten.length < s.modid l at h
  rw [addToList, addToSlotinfo_resize, if_neg (by omega), if_neg (by omega)]
  rfl

/-- When `resize_tls_slotinfo` comes to its end, every object it saw has a slot. -/
theorem resizeTlsSlotinfo_ok {order : List α} (h : resizeTlsSlotinfo s order = .ok s') :
    ∃ j, Grown s s' j ∧ ∀ p ∈ order, s.modid p < s'.size := by
  induction order generalizing s with
  | nil =>
    cases h
    exact ⟨0, ⟨rfl, by simp⟩, by simp⟩
  | cons l order ih =>
    obtain ⟨s₁, hrun, hrest⟩ := ok_of_bind h
    by_cases hle : s.modid l ≤ s.size
    · obtain ⟨s₁', j, hrun', hgrown, hlt⟩ := addToList_of_le hle
      rw [hrun] at hrun'
      cases hrun'
      obtain ⟨j', hgrown', hall⟩ := ih hrest
      have hsize := hgrown'.size_eq
      refine ⟨j + j', hgrown.trans hgrown', fun p hp => ?_⟩
      rcases List.mem_cons.mp hp with rfl | hp
      · omega
      · rw [← hgrown.modid_eq]
        exact hall p hp
    · rw [addToList_of_lt (Nat.lt_of_not_le hle)] at hrun
      cases hrun

/-- It does come to its end when the objects are in the order of their ids. -/
theorem resizeTlsSlotinfo_of_chained {order : List α} (h : Chained s.size (order.map s.modid)) :
    ∃ s', resizeTlsSlotinfo s order = .ok s' := by
  induction order generalizing s with
  | nil => exact ⟨s, rfl⟩
  | cons l order ih =>
    obtain ⟨s₁, j, hrun, hgrown, hlt⟩ := addToList_of_le h.1
    have hsize := hgrown.size_eq
    have hchain : Chained s₁.size (order.map s₁.modid) := by
      rw [hgrown.modid_eq]
      exact h.2.mono (by omega)
    obtain ⟨s₂, hrest⟩ := ih hchain
    refine ⟨s₂, ?_⟩
    rw [resizeTlsSlotinfo, List.foldlM_cons, hrun]
    exact hrest

/-! ## Filling in the slots -/

theorem addAll_spec (order : List α) (hinj : (order.map s.modid).Nodup)
    (hlt : ∀ p ∈ order, s.modid p < s.size) :
    ∃ segs, order.foldlM (addToList true) s = .ok { s with segments := segs } ∧
      segs.map List.length = s.segments.map List.length ∧
      (∀ p ∈ order, segs.flatten[s.modid p]? = some ⟨s.generation + 1, some p⟩) ∧
      ∀ i, (∀ p ∈ order, s.modid p ≠ i) → segs.flatten[i]? = s.slots[i]? := by
  induction order generalizing s with
  | nil => exact ⟨s.segments, rfl, rfl, by simp, fun _ _ => rfl⟩
  | cons l order ih =>
    rw [List.map_cons, List.nodup_cons] at hinj
    have hl := hlt l List.mem_cons_self
    obtain ⟨segs₁, hrun, hflat, hlen⟩ :=
      addToSlotinfo_inside s.generation l s.segments (s.modid l) hl
    have hsize : ({ s with segments := segs₁ } : State α).size = s.size := by
      simp only [State.size, State.slots, hflat, List.length_set]
    have hlt₁ : ∀ p ∈ order, s.modid p < ({ s with segments := segs₁ } : State α).size := by
      intro p hp
      rw [hsize]
      exact hlt p (List.mem_cons_of_mem l hp)
    obtain ⟨segs₂, hrun₂, hlen₂, hin, hout⟩ := ih (s := { s with segments := segs₁ }) hinj.2 hlt₁
    have hne : ∀ p ∈ order, s.modid p ≠ s.modid l := by
      intro p hp heq
      exact hinj.1 (heq ▸ List.mem_map_of_mem hp)
    refine ⟨segs₂, ?_, hlen₂.trans hlen, ?_, ?_⟩
    · rw [List.foldlM_cons, addToList, hrun]
      exact hrun₂
    · intro p hp
      rcases List.mem_cons.mp hp with rfl | hp
      · rw [hout _ hne]
        change segs₁.flatten[s.modid p]? = _
        rw [hflat]
        exact List.getElem?_set_self hl
      · exact hin p hp
    · intro i hi
      rw [hout i fun p hp => hi p (List.mem_cons_of_mem l hp)]
      change segs₁.flatten[i]? = _
      rw [hflat, List.getElem?_set_ne (hi l List.mem_cons_self)]
      rfl

theorem holder_congr {xs ys : List (Slot α)} {i j : ℕ} (h : xs[i]? = ys[j]?) :
    holder xs i = holder ys j := by
  rw [holder, holder, h]

theorem length_eq_of_lengths {segs segs' : List (Segment α)}
    (h : segs'.map List.length = segs.map List.length) :
    segs'.flatten.length = segs.flatten.length := by
  rw [List.length_flatten, List.length_flatten, h]

theorem Numbered.filled (h : Numbered s pending) {segs : List (Segment α)}
    (hmax : ∀ p ∈ pending, s.modid p ≤ s.maxDtvIdx)
    (hlen : segs.map List.length = s.segments.map List.length)
    (hin : ∀ p ∈ pending, segs.flatten[s.modid p]? = some ⟨s.generation + 1, some p⟩)
    (hout : ∀ i, (∀ p ∈ pending, s.modid p ≠ i) → segs.flatten[i]? = s.slots[i]?) :
    Numbered { s with segments := segs, loaded := s.loaded ++ pending } [] := by
  have hself : ∀ p ∈ pending, holder segs.flatten (s.modid p) = some p := by
    intro p hp
    simp [holder, hin p hp]
  have hother : ∀ i, (∀ p ∈ pending, s.modid p ≠ i) →
      holder segs.flatten i = holder s.slots i := fun i hi => holder_congr (hout i hi)
  have hsize : segs.flatten.length = s.size := length_eq_of_lengths hlen
  have hback : ∀ i, holder s.slots i ≠ none ∨ (∃ p ∈ pending, s.modid p = i) →
      holder segs.flatten i ≠ none := by
    intro i hi
    by_cases hp : ∃ p ∈ pending, s.modid p = i
    · obtain ⟨p, hp, rfl⟩ := hp
      rw [hself p hp]
      simp
    · rw [hother i fun p hp' heq => hp ⟨p, hp', heq⟩]
      exact hi.resolve_right hp
  refine
    { h with
      objects := by simpa using h.objects
      room := forall_head_of_lengths hlen h.room
      segments_ne := ne_nil_of_lengths hlen h.segments_ne
      modid_above := by simpa using h.modid_above
      held := ?_
      pending_slot := by simp
      pending_inj := by simp
      holder_modid := ?_
      holder_le := ?_
      no_gap := ?_
      max_inside := ?_ }
  · intro l hl
    change holder segs.flatten (s.modid l) = some l
    rw [← List.append_assoc, List.mem_append] at hl
    rcases hl with hl | hl
    · rw [hother _ fun p hp => h.pending_modid_ne hp hl]
      exact h.held l hl
    · exact hself l hl
  · intro i l hi hheld
    change holder segs.flatten i = some l at hheld
    rw [List.append_nil]
    by_cases hp : ∃ p ∈ pending, s.modid p = i
    · obtain ⟨p, hp, rfl⟩ := hp
      rw [hself p hp] at hheld
      cases hheld
      exact ⟨by simp [hp], rfl⟩
    · rw [hother i fun p hp' heq => hp ⟨p, hp', heq⟩] at hheld
      exact h.holder_modid i l hi hheld
  · intro i hi hheld
    change holder segs.flatten i ≠ none at hheld
    by_cases hp : ∃ p ∈ pending, s.modid p = i
    · obtain ⟨p, hp, rfl⟩ := hp
      exact hmax p hp
    · rw [hother i fun p hp' heq => hp ⟨p, hp', heq⟩] at hheld
      exact h.holder_le i hi hheld
  · intro hg i hlo hhi
    exact Or.inl (hback i (h.no_gap hg i hlo hhi))
  · left
    change s.maxDtvIdx < segs.flatten.length
    rcases h.max_inside with hlt | ⟨p, hp, heq⟩
    · rwa [hsize]
    · rw [← heq]
      apply lt_length_of_holder
      rw [hself p hp]
      simp

/-! ## Giving an id back -/

theorem holder_clear (slots : List (Slot α)) (id generation : ℕ) :
    holder (slots.modify id (Slot.clear generation)) id = none := by
  cases hslot : slots[id]? with
  | none => simp [holder, hslot]
  | some slot =>
    cases hmap : slot.map <;> simp [holder, hslot, Slot.clear, hmap]

/-- What giving back the id of `l` leaves as it was. -/
structure Released (s s' : State α) (l : α) : Prop where
  same : s' = { s with segments := s'.segments, maxDtvIdx := s'.maxDtvIdx, gaps := s'.gaps }
  lengths : s'.segments.map List.length = s.segments.map List.length
  slots : s'.slots = s.slots.modify (s.modid l) (Slot.clear s.generation)

theorem Released.size_eq (hs : Released s s' l) : s'.size = s.size := by
  simp [State.size, hs.slots]

theorem Numbered.pending_ne (h : Numbered s (l :: pending)) :
    ∀ p ∈ pending, s.modid p ≠ s.modid l :=
  fun _ hp heq => (List.nodup_cons.mp h.pending_inj).1 (heq ▸ List.mem_map_of_mem hp)

/-- The highest id and the gap flag after an id has been given back. -/
structure Lowered (s s' : State α) (l : α) : Prop where
  static_le : s'.staticNelem ≤ s'.maxDtvIdx
  holder_le : ∀ i, 0 < i → holder s'.slots i ≠ none → i ≤ s'.maxDtvIdx
  kept : (s'.gaps = true ∧ s'.maxDtvIdx = s.maxDtvIdx ∧ s.modid l ≠ s.maxDtvIdx) ∨
    (s'.gaps = s.gaps ∧ s'.maxDtvIdx ≤ s.maxDtvIdx ∧ s'.maxDtvIdx < s.modid l)

section
variable (h : Numbered s (l :: pending)) (initCalled : Bool) (hle : s.modid l ≤ s.size)
  (hinit : s.modid l = s.size → initCalled = false)
include h initCalled hle hinit

theorem releaseModid_lowered :
    ∃ s', releaseModid initCalled s l = .ok s' ∧ Released s s' l ∧ Lowered s s' l := by
  obtain ⟨r, hrun, hr⟩ := @removeSlotinfo_spec α s.staticNelem s.generation s.maxDtvIdx s.gaps
    s.segments 0 (s.modid l) initCalled h.segments_ne hle hinit (fun _ => h.room)
  rw [Nat.zero_add] at hrun
  have hslots : r.segments.flatten = s.slots.modify (s.modid l) (Slot.clear s.generation) :=
    hr.flatten
  have hother : ∀ i, holder r.segments.flatten i ≠ none →
      i ≠ s.modid l ∧ holder s.slots i ≠ none := by
    intro i hi
    have hne : i ≠ s.modid l := by
      rintro rfl
      exact hi (hslots ▸ holder_clear ..)
    rw [hslots, holder_modify_ne _ (Ne.symm hne)] at hi
    exact ⟨hne, hi⟩
  have hlo := h.static_le
  have habove := h.modid_above l (by simp)
  refine ⟨{ s with
    segments := r.segments
    maxDtvIdx := if r.found then r.maxDtvIdx else s.staticNelem
    gaps := r.gaps }, ?_, ⟨rfl, hr.lengths, hslots⟩, ?_⟩
  · rw [releaseModid, hrun]
    rfl
  · rcases hr.ends with ⟨-, hne, hmax, hgaps, hfound⟩ | ⟨hend, hgaps, q, hlast, hfound, hmax⟩
    · rw [Nat.zero_add] at hne
      rw [hfound, if_pos rfl, hmax]
      exact ⟨hlo, fun i hi hheld => h.holder_le i hi (hother i hheld).2, Or.inl ⟨hgaps, rfl, hne⟩⟩
    · rw [searchFloor, if_pos rfl] at hlast
      have hbelow : ∀ i, 0 < i → holder r.segments.flatten i ≠ none → i < s.modid l := by
        intro i hi hheld
        obtain ⟨hne, hold⟩ := hother i hheld
        rcases hend with hend | hend
        · have := h.holder_le i hi hold
          omega
        · have := lt_length_of_holder hold
          rw [hend]
          exact this
      cases q with
      | none =>
        rw [hfound, if_neg (by simp)]
        refine ⟨le_rfl, fun i hi hheld => ?_, Or.inr ⟨hgaps, hlo, habove⟩⟩
        by_contra hgt
        change ¬ i ≤ s.staticNelem at hgt
        exact hheld (hlast i (by omega) (hbelow i hi hheld))
      | some j =>
        obtain ⟨hj, hjlt, hjheld, hjlast⟩ := hlast
        have hjmax : r.maxDtvIdx = j := by simpa using hmax
        rw [hfound, if_pos Option.isSome_some, hjmax]
        refine ⟨?_, fun i hi hheld => ?_, Or.inr ⟨hgaps, ?_, hjlt⟩⟩
        · change s.staticNelem ≤ j
          omega
        · by_contra hgt
          exact hheld (hjlast i (Nat.lt_of_not_le hgt) (hbelow i hi hheld))
        · exact h.holder_le j (by omega) (hother j hjheld).2

theorem releaseModid_spec :
    ∃ s', releaseModid initCalled s l = .ok s' ∧ Released s s' l ∧ Numbered s' pending := by
  obtain ⟨s', hrun, hs, hlow⟩ := releaseModid_lowered h initCalled hle hinit
  refine ⟨s', hrun, hs, ?_⟩
  have hslots := hs.slots
  have hother : ∀ i, i ≠ s.modid l → holder s'.slots i = holder s.slots i := by
    intro i hi
    rw [hslots, holder_modify_ne _ (Ne.symm hi)]
  have hself : holder s'.slots (s.modid l) = none := hslots ▸ holder_clear ..
  have hne := h.pending_ne
  have hmodid : s'.modid = s.modid := by rw [hs.same]
  have hstartup : s'.startup = s.startup := by rw [hs.same]
  have hloaded : s'.loaded = s.loaded := by rw [hs.same]
  have hstatic : s'.staticNelem = s.staticNelem := by rw [hs.same]
  refine
    { objects := ?_, room := hstatic ▸ forall_head_of_lengths hs.lengths h.room,
      segments_ne := ne_nil_of_lengths hs.lengths h.segments_ne, static_le := hlow.static_le,
      static_length := by rw [hstartup, hstatic, h.static_length],
      modid_startup := by rw [hstartup, hmodid, hstatic]; exact h.modid_startup,
      modid_above := ?_, held := ?_, pending_slot := ?_,
      pending_inj := hmodid ▸ (List.nodup_cons.mp h.pending_inj).2, holder_modid := ?_,
      holder_le := hlow.holder_le, no_gap := ?_, max_inside := ?_ }
  · rw [hstartup, hloaded]
    exact (((List.sublist_cons_self l pending).append_left _).append_left _).nodup h.objects
  · intro p hp
    rw [hloaded] at hp
    rw [hstatic, hmodid]
    exact h.modid_above p (((List.sublist_cons_self l pending).append_left _).subset hp)
  · intro p hp
    rw [hstartup, hloaded] at hp
    rw [hmodid, hother _ (h.pending_modid_ne List.mem_cons_self hp).symm]
    exact h.held p hp
  · intro p hp
    rw [hmodid, hother _ (hne p hp)]
    exact h.pending_slot p (List.mem_cons_of_mem l hp)
  · intro i p hi hheld
    have hil : i ≠ s.modid l := by
      rintro rfl
      rw [hself] at hheld
      cases hheld
    rw [hother i hil] at hheld
    obtain ⟨hp, hid⟩ := h.holder_modid i p hi hheld
    have hpl : p ≠ l := by
      rintro rfl
      exact hil hid.symm
    rw [hstartup, hloaded, hmodid]
    simp only [List.mem_append, List.mem_cons] at hp ⊢
    tauto
  · intro hg i hlo hhi
    rw [hstatic] at hlo
    rw [hmodid]
    rcases hlow.kept with ⟨hgaps, -⟩ | ⟨hgaps, hmax, hlt⟩
    · rw [hg] at hgaps
      cases hgaps
    · have hil : i ≠ s.modid l := by omega
      rw [hother i hil]
      rcases h.no_gap (hgaps ▸ hg) i hlo (by omega) with hheld | ⟨p, hp, hid⟩
      · exact Or.inl hheld
      · rcases List.mem_cons.mp hp with rfl | hp
        · exact absurd hid.symm hil
        · exact Or.inr ⟨p, hp, hid⟩
  · rw [hs.size_eq, hmodid]
    rcases hlow.kept with ⟨-, hmax, hnmax⟩ | ⟨-, -, hlt⟩
    · rcases h.max_inside with hin | ⟨p, hp, hid⟩
      · exact Or.inl (hmax ▸ hin)
      · rcases List.mem_cons.mp hp with rfl | hp
        · exact absurd hid hnmax
        · exact Or.inr ⟨p, hp, hid.trans hmax.symm⟩
    · exact Or.inl (by omega)

end

/-- No other id comes back from `remove_slotinfo`. -/
theorem releaseModid_ok (h : Numbered s (l :: pending)) {initCalled : Bool}
    (hrun : releaseModid initCalled s l = .ok s') :
    s.modid l ≤ s.size ∧ (s.modid l = s.size → initCalled = false) := by
  obtain ⟨r, hremove, -⟩ := ok_of_bind hrun
  by_contra hnot
  have hout : s.size ≤ s.modid l ∧ (s.modid l = s.size → initCalled = true) := by
    constructor
    · by_contra hlt
      exact hnot ⟨by omega, fun heq => by omega⟩
    · intro heq
      by_contra hinit
      exact hnot ⟨heq.le, fun _ => Bool.eq_false_of_not_eq_true hinit⟩
  obtain ⟨e, herr⟩ := @removeSlotinfo_outside α s.staticNelem s.generation s.maxDtvIdx s.gaps
    s.segments 0 (s.modid l) initCalled hout.1 hout.2 (fun _ => h.room)
  rw [Nat.zero_add, hremove] at herr
  cases herr

/-- What giving back the ids of `closing` does to the slots. -/
structure AllReleased (s s' : State α) (closing : List α) : Prop where
  same : s' = { s with segments := s'.segments, maxDtvIdx := s'.maxDtvIdx, gaps := s'.gaps }
  size : s'.size = s.size
  slots : ∀ i, (∀ p ∈ closing, s.modid p ≠ i) → s'.slots[i]? = s.slots[i]?
  cleared : ∀ p ∈ closing,
    s'.slots[s.modid p]? = s.slots[s.modid p]?.map (Slot.clear s.generation)

/-- A slot after the release: what was there, with no object if the id was given back, or what
lost its object just now. -/
theorem AllReleased.slot_cases (h : AllReleased s s' closing) {i : ℕ} {slot : Slot α}
    (hslot : s'.slots[i]? = some slot) :
    (s.slots[i]? = some slot ∧ ((∃ p ∈ closing, s.modid p = i) → slot.map = none)) ∨
      (closing ≠ [] ∧ slot.gen = s.generation + 1) := by
  by_cases hp : ∃ p ∈ closing, s.modid p = i
  · obtain ⟨p, hp, rfl⟩ := hp
    rw [h.cleared p hp] at hslot
    obtain ⟨old, hold, rfl⟩ := Option.map_eq_some_iff.mp hslot
    cases hmap : old.map with
    | some x => exact Or.inr ⟨List.ne_nil_of_mem hp, by simp [Slot.clear, hmap]⟩
    | none =>
      have hclear : old.clear s.generation = old := by simp [Slot.clear, hmap]
      rw [hclear]
      exact Or.inl ⟨hold, fun _ => hmap⟩
  · rw [h.slots i fun p hp' heq => hp ⟨p, hp', heq⟩] at hslot
    exact Or.inl ⟨hslot, fun hid => absurd hid hp⟩

theorem releaseEach_spec (h : Numbered s closing) (initCalled : Bool)
    (hle : ∀ p ∈ closing, s.modid p ≤ s.size)
    (hinit : ∀ p ∈ closing, s.modid p = s.size → initCalled = false) :
    ∃ s', closing.foldlM (releaseModid initCalled) s = .ok s' := by
  induction closing generalizing s with
  | nil => exact ⟨s, rfl⟩
  | cons l closing ih =>
    obtain ⟨s₁, hrun, hs, h₁⟩ := releaseModid_spec h initCalled (hle l List.mem_cons_self)
      (hinit l List.mem_cons_self)
    have hmodid : s₁.modid = s.modid := by rw [hs.same]
    obtain ⟨s₂, hrest⟩ := ih h₁
      (fun p hp => by rw [hmodid, hs.size_eq]; exact hle p (List.mem_cons_of_mem l hp))
      (fun p hp => by rw [hmodid, hs.size_eq]; exact hinit p (List.mem_cons_of_mem l hp))
    refine ⟨s₂, ?_⟩
    rw [List.foldlM_cons, hrun]
    exact hrest

theorem releaseEach_ok (h : Numbered s closing) {initCalled : Bool}
    (hrun : closing.foldlM (releaseModid initCalled) s = .ok s') :
    Numbered s' [] ∧ AllReleased s s' closing := by
  induction closing generalizing s with
  | nil =>
    cases hrun
    exact ⟨h, rfl, rfl, fun _ _ => rfl, by simp⟩
  | cons l closing ih =>
    obtain ⟨s₁, hstep, hrest⟩ := ok_of_bind hrun
    obtain ⟨hle, hinit⟩ := releaseModid_ok h hstep
    obtain ⟨s₁', hstep', hs, h₁⟩ := releaseModid_spec h initCalled hle hinit
    rw [hstep] at hstep'
    cases hstep'
    obtain ⟨h₂, hall⟩ := ih h₁ hrest
    have hmodid : s₁.modid = s.modid := by rw [hs.same]
    have hgen : s₁.generation = s.generation := by rw [hs.same]
    have hne := h.pending_ne
    have hkeep : ∀ i, i ≠ s.modid l → s₁.slots[i]? = s.slots[i]? := by
      intro i hi
      rw [hs.slots]
      simp [Ne.symm hi]
    have hclear : s₁.slots[s.modid l]? =
        s.slots[s.modid l]?.map (Slot.clear s.generation) := by
      rw [hs.slots]
      simp
    have hslots := hall.slots
    have hcleared := hall.cleared
    rw [hmodid] at hslots hcleared
    rw [hgen] at hcleared
    refine ⟨h₂, ?_, hall.size.trans hs.size_eq, ?_, ?_⟩
    · rw [hall.same, hs.same]
    · intro i hi
      rw [hslots i fun p hp => hi p (List.mem_cons_of_mem l hp),
        hkeep i (hi l List.mem_cons_self).symm]
    · intro p hp
      rcases List.mem_cons.mp hp with rfl | hp
      · rw [hslots _ hne, hclear]
      · rw [hcleared p hp, hkeep _ (hne p hp)]

end AwaitGlibc.TlsModuleIds

import AwaitGlibc.TlsModuleSlots

/-!
# Whole runs of `dlopen` and `dlclose`

Every call that comes to its end leaves the ids in order, whatever the order of the
search list and wherever it fails. Two things can keep a call from coming to its end. An
object whose id is two or more behind the last slot fails the assertion of
`_dl_add_to_slotinfo` when it is listed before the object that would have made room. And
a `dlopen` that fails with such an id pending makes `remove_slotinfo` start its closing
loop at the id itself and read past the last segment, where the branch above it starts
from the end of the segment.
-/
namespace AwaitGlibc.TlsModuleIds
open CheckedArray TlsSlots
variable {α : Type}

/-- What a call does to the slots: one whose content changes gets the next generation, and
a slot that is added is empty. -/
structure Changed (s s' : State α) (objects : List α) : Prop where
  startup : s'.startup = s.startup
  staticNelem : s'.staticNelem = s.staticNelem
  size : s.size ≤ s'.size
  generation : s'.generation = if objects.isEmpty then s.generation else s.generation + 1
  slots : ∀ i slot, s'.slots[i]? = some slot → s.slots[i]? = some slot ∨
    (objects ≠ [] ∧ slot.gen = s.generation + 1) ∨ (s.size ≤ i ∧ slot = Slot.empty)

def Kept (s s' : State α) : Prop :=
  ∀ l ∈ s.startup ++ s.loaded, l ∈ s'.startup ++ s'.loaded →
    s'.modid l = s.modid l ∧ s'.slots[s.modid l]? = s.slots[s.modid l]?

theorem bump_eq (s : State α) (objects : List α) :
    bump s objects = { s with
      generation := if objects.isEmpty then s.generation else s.generation + 1 } := by
  rw [bump]
  split <;> rfl

theorem Numbered.congr {s : State α} {pending : List α} (h : Numbered s pending) (n : ℕ) :
    Numbered { s with generation := n } pending :=
  { h with }

theorem slots_grown {s s' : State α} {j i : ℕ} {slot : Slot α} (h : Grown s s' j)
    (hslot : s'.slots[i]? = some slot) :
    s.slots[i]? = some slot ∨ (s.size ≤ i ∧ slot = Slot.empty) := by
  rw [h.slots_eq] at hslot
  by_cases hi : i < s.slots.length
  · rw [List.getElem?_append_left hi] at hslot
    exact Or.inl hslot
  · rw [List.getElem?_append_right (by omega), List.getElem?_replicate] at hslot
    split at hslot
    · cases hslot
      exact Or.inr ⟨Nat.le_of_not_lt hi, rfl⟩
    · cases hslot

/-- A slot without an object is as it was before ids were handed out, and so is one whose id was
not handed out. -/
theorem AllAssigned.slot_eq {s s₁ : State α} {loads : List α} (h : AllAssigned s s₁ loads) {i : ℕ}
    {slot : Slot α} (hslot : s₁.slots[i]? = some slot)
    (hmap : (∃ l ∈ loads, s₁.modid l = i) → slot.map = none) : s.slots[i]? = some slot := by
  by_cases hl : ∃ l ∈ loads, s₁.modid l = i
  · have hmap := hmap hl
    obtain ⟨l, hl, rfl⟩ := hl
    have hgens := congrArg (fun gens : List ℕ => gens[s₁.modid l]?) h.gens
    simp only [List.getElem?_map, hslot, Option.map_some] at hgens
    cases hslot₀ : s.slots[s₁.modid l]? with
    | none => simp [hslot₀] at hgens
    | some slot₀ =>
      have hmap₀ : slot₀.map = none := by simpa [holder, hslot₀] using h.free l hl
      rw [show slot₀ = slot by cases slot₀; cases slot; simp_all]
  · rw [← h.slots i fun l hl' heq => hl ⟨l, hl', heq⟩, hslot]

theorem kept_of_pending {s s₁ s₂ : State α} {loads : List α} {j : ℕ} (h : Numbered s [])
    (h₂ : Numbered s₂ loads) (hall : AllAssigned s s₁ loads) (hgrown : Grown s₁ s₂ j) {l : α}
    (hl : l ∈ s.startup ++ s.loaded) :
    s₂.modid l = s.modid l ∧ s₂.slots[s.modid l]? = s.slots[s.modid l]? ∧
      ∀ p ∈ loads, s₂.modid p ≠ s.modid l := by
  have hobjects := h₂.objects
  have hl₂ : l ∈ s₂.startup ++ s₂.loaded := by
    rw [hgrown.same, hall.startup, hall.loaded]
    exact hl
  have hnew : l ∉ loads := by
    intro hmem
    rw [← List.append_assoc] at hobjects
    exact (List.nodup_append.mp hobjects).2.2 l hl₂ l hmem rfl
  have hmodid : s₂.modid l = s.modid l := by rw [hgrown.modid_eq, hall.modid l hnew]
  have hne : ∀ p ∈ loads, s₂.modid p ≠ s.modid l := fun p hp => hmodid ▸ h₂.pending_modid_ne hp hl₂
  have hlt : s.modid l < s₁.slots.length := by
    change s.modid l < s₁.size
    rw [hall.size]
    exact h.modid_lt_size hl
  refine ⟨hmodid, ?_, hne⟩
  rw [hgrown.slots_eq, List.getElem?_append_left hlt]
  apply hall.slots
  intro p hp
  have := hne p hp
  rwa [hgrown.modid_eq] at this

section Calls
variable [DecidableEq α] {s s' : State α} {loads order closing : List α} {resized : ℕ}

theorem assign_loads (h : Numbered s []) (hnodup : loads.Nodup)
    (hnew : ∀ l ∈ loads, l ∉ s.startup ∧ l ∉ s.loaded) :
    ∃ s₁, loads.foldlM assignTlsModid s = .ok s₁ ∧ Assigning s₁ loads ∧
      Chained s.size (loads.map s₁.modid) ∧ AllAssigned s s₁ loads :=
  assignAll_spec (Assigning.of_numbered h) loads hnodup (by simpa [not_or] using hnew) trivial

theorem dlopen_ok (h : Numbered s []) (hlegal : (Call.dlopen loads order).Legal s)
    (hrun : step s (.dlopen loads order) = .ok s') :
    Numbered s' [] ∧ s'.loaded = s.loaded ++ loads ∧ Changed s s' loads ∧ Kept s s' := by
  obtain ⟨hnodup, hnew, hperm⟩ := hlegal
  obtain ⟨s₁, hassign, h₁, -, hall⟩ := assign_loads h hnodup hnew
  rw [step, hassign] at hrun
  obtain ⟨s₂, hresize, hrun⟩ := ok_of_bind (x := resizeTlsSlotinfo s₁ order) hrun
  obtain ⟨s₃, hupdate, hrun⟩ := ok_of_bind hrun
  cases hrun
  obtain ⟨j, hgrown, hlt⟩ := resizeTlsSlotinfo_ok hresize
  have h₂ : Numbered s₂ loads := hgrown.numbered h₁.toNumbered
  have hmodid : s₂.modid = s₁.modid := hgrown.modid_eq
  have hmax : s₂.maxDtvIdx = s₁.maxDtvIdx := by rw [hgrown.same]
  obtain ⟨segs, hfill, hlen, hin, hout⟩ := addAll_spec (s := s₂) order
    ((hperm.map _).nodup_iff.mpr h₂.pending_inj) (by rw [hmodid]; exact hlt)
  have hdone : Numbered { s₂ with segments := segs, loaded := s₂.loaded ++ loads } [] := by
    apply h₂.filled _ hlen
    · intro p hp
      exact hin p (hperm.mem_iff.mpr hp)
    · intro i hi
      exact hout i fun p hp => hi p (hperm.mem_iff.mp hp)
    · rw [hmodid, hmax]
      exact h₁.modid_le
  have hbump : s₃ = { s₂ with
      segments := segs
      generation := if loads.isEmpty then s₂.generation else s₂.generation + 1 } := by
    rw [updateTlsSlotinfo, hfill] at hupdate
    have hs₃ : bump { s₂ with segments := segs } order = s₃ := by
      injection hupdate
    rw [← hs₃, bump_eq, hperm.isEmpty_eq]
  subst hbump
  have hgen : s₂.generation = s.generation := by rw [hgrown.same, hall.generation]
  have hsize : segs.flatten.length = s₂.size := length_eq_of_lengths hlen
  refine ⟨hdone.congr _, ?_, ⟨?_, ?_, ?_, ?_, ?_⟩, ?_⟩
  · rw [hgrown.same, hall.loaded]
  · rw [hgrown.same, hall.startup]
  · rw [hgrown.same, hall.staticNelem]
  · change s.size ≤ segs.flatten.length
    rw [hsize, hgrown.size_eq, hall.size]
    omega
  · rw [← hgen]
  · intro i slot hslot
    change segs.flatten[i]? = some slot at hslot
    by_cases hp : ∃ p ∈ order, s₂.modid p = i
    · obtain ⟨p, hp, rfl⟩ := hp
      rw [hin p hp] at hslot
      cases hslot
      exact Or.inr (Or.inl ⟨List.ne_nil_of_mem (hperm.mem_iff.mp hp), by rw [hgen]⟩)
    · rw [hout i fun p hp' heq => hp ⟨p, hp', heq⟩] at hslot
      rcases slots_grown hgrown hslot with hold | ⟨hi, hempty⟩
      · refine Or.inl (hall.slot_eq hold fun ⟨l, hl, heq⟩ => absurd ?_ hp)
        exact ⟨l, hperm.mem_iff.mpr hl, hmodid ▸ heq⟩
      · exact Or.inr (Or.inr ⟨hall.size ▸ hi, hempty⟩)
  · intro l hl _
    obtain ⟨hid, hslot, hne⟩ := kept_of_pending h h₂ hall hgrown hl
    refine ⟨hid, ?_⟩
    change segs.flatten[s.modid l]? = _
    rw [hout _ fun p hp => hne p (hperm.mem_iff.mp hp), hslot]

omit [DecidableEq α] in
/-- The slots after the ids of pending objects have been given back: an object that was in
its slot leaves the next generation there, the others leave nothing. -/
theorem changed_of_released {s₁ s₂ s₃ : State α} {j : ℕ} (hall : AllAssigned s s₁ loads)
    (hgrown : Grown s₁ s₂ j) (hrel : AllReleased s₂ s₃ closing) (hperm : closing.Perm loads) :
    Changed s (bump s₃ closing) loads := by
  have hmodid : s₂.modid = s₁.modid := hgrown.modid_eq
  have hgen : s₂.generation = s.generation := by rw [hgrown.same, hall.generation]
  rw [bump_eq, hperm.isEmpty_eq]
  refine ⟨?_, ?_, ?_, ?_, ?_⟩
  · rw [hrel.same, hgrown.same, hall.startup]
  · rw [hrel.same, hgrown.same, hall.staticNelem]
  · change s.size ≤ s₃.size
    rw [hrel.size, hgrown.size_eq, hall.size]
    omega
  · rw [hrel.same, hgen]
  · intro i slot hslot
    rcases hrel.slot_cases hslot with ⟨hold, hmap⟩ | ⟨hne, hslotgen⟩
    · rcases slots_grown hgrown hold with hold | ⟨hi, hempty⟩
      · refine Or.inl (hall.slot_eq hold fun ⟨l, hl, heq⟩ => hmap ?_)
        exact ⟨l, hperm.mem_iff.mpr hl, hmodid ▸ heq⟩
      · exact Or.inr (Or.inr ⟨hall.size ▸ hi, hempty⟩)
    · refine Or.inr (Or.inl ⟨fun hnil => hne ?_, hgen ▸ hslotgen⟩)
      subst hnil
      exact hperm.eq_nil

theorem dlopenFails_ok (h : Numbered s [])
    (hlegal : (Call.dlopenFails loads order resized closing).Legal s)
    (hrun : step s (.dlopenFails loads order resized closing) = .ok s') :
    Numbered s' [] ∧ s'.loaded = s.loaded ∧ Changed s s' loads ∧ Kept s s' := by
  obtain ⟨hnodup, hnew, -, -, hperm⟩ := hlegal
  obtain ⟨s₁, hassign, h₁, -, hall⟩ := assign_loads h hnodup hnew
  rw [step, hassign] at hrun
  obtain ⟨s₂, hresize, hrun⟩ := ok_of_bind (x := resizeTlsSlotinfo s₁ (order.take resized)) hrun
  obtain ⟨s₃, hrelease, hrun⟩ := ok_of_bind hrun
  cases hrun
  obtain ⟨j, hgrown, -⟩ := resizeTlsSlotinfo_ok hresize
  have h₂ : Numbered s₂ closing := (hgrown.numbered h₁.toNumbered).perm hperm
  obtain ⟨h₃, hrel⟩ := releaseEach_ok h₂ hrelease
  refine ⟨?_, ?_, changed_of_released hall hgrown hrel hperm, ?_⟩
  · rw [bump_eq]
    exact h₃.congr _
  · rw [bump_eq, hrel.same, hgrown.same, hall.loaded]
  · intro l hl _
    obtain ⟨hid, hslot, hne⟩ := kept_of_pending h (hgrown.numbered h₁.toNumbered) hall hgrown hl
    rw [bump_eq]
    refine ⟨by rw [hrel.same, hid], ?_⟩
    change s₃.slots[s.modid l]? = _
    rw [hrel.slots _ fun p hp => hne p (hperm.mem_iff.mp hp), hslot]

theorem Numbered.close (h : Numbered s []) (hnodup : closing.Nodup)
    (hmem : ∀ l ∈ closing, l ∈ s.loaded) :
    Numbered { s with loaded := s.loaded.filter (· ∉ closing) } closing := by
  have hloaded : s.loaded.Nodup := by
    have := (List.nodup_append.mp h.objects).2.1
    rwa [List.append_nil] at this
  have hmem' : ∀ l, l ∈ s.loaded.filter (· ∉ closing) ++ closing ↔ l ∈ s.loaded := by
    intro l
    rw [List.mem_append, List.mem_filter, decide_eq_true_eq]
    tauto
  have hperm : (s.loaded.filter (· ∉ closing) ++ closing).Perm s.loaded := by
    rw [List.perm_ext_iff_of_nodup _ hloaded]
    · exact hmem'
    · refine List.nodup_append.mpr ⟨hloaded.filter _, hnodup, ?_⟩
      rintro a ha b hb rfl
      simpa [hb] using (List.mem_filter.mp ha).2
  have hheld : ∀ p ∈ closing, holder s.slots (s.modid p) = some p :=
    fun p hp => h.held p (List.mem_append_right _ (hmem p hp))
  refine { h with
    objects := ?_, modid_above := ?_, held := ?_
    pending_slot := fun p hp => Or.inr (hheld p hp), pending_inj := ?_, holder_modid := ?_
    no_gap := ?_, max_inside := ?_ }
  · have hobjects := h.objects
    rw [List.append_nil] at hobjects
    exact (hperm.append_left _).nodup_iff.mpr hobjects
  · intro l hl
    exact h.modid_above l (by rw [List.append_nil]; exact (hmem' l).mp hl)
  · intro l hl
    apply h.held l
    rcases List.mem_append.mp hl with hl | hl
    · exact List.mem_append_left _ hl
    · exact List.mem_append_right _ (List.mem_filter.mp hl).1
  · refine hnodup.map_on fun a ha b hb heq => ?_
    have := hheld a ha
    rw [heq, hheld b hb] at this
    exact (Option.some.inj this).symm
  · intro i l hi hl
    have := h.holder_modid i l hi hl
    rw [List.append_nil, List.mem_append] at this
    rw [List.mem_append, hmem']
    exact this
  · intro hg i hlo hhi
    rcases h.no_gap hg i hlo hhi with hheld | ⟨p, hp, -⟩
    · exact Or.inl hheld
    · cases hp
  · rcases h.max_inside with hlt | ⟨p, hp, -⟩
    · exact Or.inl hlt
    · cases hp

omit [DecidableEq α] in
theorem Changed.of_released {s₁ : State α} (hrel : AllReleased s s₁ closing) :
    Changed s (bump s₁ closing) closing := by
  rw [bump_eq]
  refine ⟨by rw [hrel.same], by rw [hrel.same], hrel.size.ge, by rw [hrel.same], ?_⟩
  intro i slot hslot
  exact (hrel.slot_cases hslot).imp And.left Or.inl

theorem dlclose_ok (h : Numbered s []) (hlegal : (Call.dlclose closing).Legal s)
    (hrun : step s (.dlclose closing) = .ok s') :
    Numbered s' [] ∧ s'.loaded = s.loaded.filter (· ∉ closing) ∧ Changed s s' closing ∧
      Kept s s' := by
  have hclose := h.close hlegal.1 hlegal.2
  obtain ⟨s₁, hrelease, hrun⟩ := ok_of_bind hrun
  cases hrun
  obtain ⟨h₁, hrel⟩ := releaseEach_ok hclose hrelease
  refine ⟨?_, ?_, { Changed.of_released hrel with }, ?_⟩
  · rw [bump_eq]
    exact h₁.congr _
  · rw [bump_eq, hrel.same]
  · intro l _ hl
    rw [bump_eq, hrel.same] at hl
    rw [bump_eq]
    refine ⟨by rw [hrel.same], ?_⟩
    exact hrel.slots _ fun p hp => hclose.pending_modid_ne hp hl

theorem step_ok (h : Numbered s []) {call : Call α} (hlegal : call.Legal s)
    (hrun : step s call = .ok s') : Numbered s' [] := by
  cases call with
  | dlopen loads order => exact (dlopen_ok h hlegal hrun).1
  | dlopenFails loads order resized closing => exact (dlopenFails_ok h hlegal hrun).1
  | dlclose closing => exact (dlclose_ok h hlegal hrun).1

/-! ## When a call comes to its end -/

def objectCount (s : State α) (loads : List α) : ℕ :=
  s.staticNelem + (s.loaded.length + loads.length)

/-- The number of slots when room has been made for the first `resized` of the new objects:
segments are added until each of them has a slot. -/
def slotsAfter (s : State α) (resized : ℕ) : ℕ :=
  s.size + slotinfoSurplus *
    ((s.staticNelem + (s.loaded.length + resized) + 1 - s.size + (slotinfoSurplus - 1)) /
      slotinfoSurplus)

/-- Slots are not running out, or the search list has the new objects in the order they
were mapped, as far as room was made for them, and, if the `dlopen` fails, there were no
more objects than slots by then. -/
def Call.Fits (s : State α) : Call α → Prop
  | .dlopen loads order => objectCount s loads < s.size ∨ order = loads
  | .dlopenFails loads order resized _ =>
    objectCount s loads < s.size ∨
      (order.take resized = loads.take resized ∧ objectCount s loads ≤ slotsAfter s resized)
  | .dlclose _ => True

theorem Chained.of_le {n : ℕ} {ms : List ℕ} (h : ∀ m ∈ ms, m ≤ n) : Chained n ms := by
  induction ms generalizing n with
  | nil => trivial
  | cons m ms ih =>
    rw [List.forall_mem_cons] at h
    exact ⟨h.1, ih fun m' hm' => (h.2 m' hm').trans (le_max_left ..)⟩

theorem Chained.take {n : ℕ} {ms : List ℕ} (h : Chained n ms) (k : ℕ) : Chained n (ms.take k) := by
  induction ms generalizing n k with
  | nil => simpa using h
  | cons m ms ih =>
    cases k with
    | zero => trivial
    | succ k => exact ⟨h.1, ih h.2 k⟩

omit [DecidableEq α] in
theorem resize_progress {s₁ : State α} (h₁ : Assigning s₁ loads) (hall : AllAssigned s s₁ loads)
    (hchain : Chained s.size (loads.map s₁.modid)) (hperm : order.Perm loads)
    {k : ℕ} (hfits : objectCount s loads < s.size ∨ order.take k = loads.take k) :
    ∃ s₂, resizeTlsSlotinfo s₁ (order.take k) = .ok s₂ := by
  apply resizeTlsSlotinfo_of_chained
  rw [hall.size]
  rcases hfits with hlt | horder
  · apply Chained.of_le
    intro m hm
    obtain ⟨p, hp, rfl⟩ := List.mem_map.mp hm
    have hcount : s₁.staticNelem + (s₁.loaded.length + loads.length) ≤ s.size := by
      rw [hall.staticNelem, hall.loaded]
      exact hlt.le
    rcases h₁.modid_le_of_count hcount (hperm.mem_iff.mp (List.mem_of_mem_take hp)) with hle | hle
    · rw [hall.size] at hle
      exact hle.le
    · exact hle
  · rw [horder, List.map_take]
    exact hchain.take k

theorem dlopen_progress (h : Numbered s []) (hlegal : (Call.dlopen loads order).Legal s)
    (hfits : (Call.dlopen loads order).Fits s) : ∃ s', step s (.dlopen loads order) = .ok s' := by
  obtain ⟨hnodup, hnew, hperm⟩ := hlegal
  obtain ⟨s₁, hassign, h₁, hchain, hall⟩ := assign_loads h hnodup hnew
  obtain ⟨s₂, hresize⟩ := resize_progress (k := order.length) h₁ hall hchain hperm
    (hfits.imp_right fun horder => by rw [horder])
  rw [List.take_length] at hresize
  obtain ⟨j, hgrown, hlt⟩ := resizeTlsSlotinfo_ok hresize
  have hinj : (order.map s₂.modid).Nodup := by
    rw [hgrown.modid_eq]
    exact (hperm.map _).nodup_iff.mpr h₁.pending_inj
  obtain ⟨segs, hfill, -⟩ := addAll_spec order hinj (by rw [hgrown.modid_eq]; exact hlt)
  refine ⟨{ bump { s₂ with segments := segs } order with
    loaded := (bump { s₂ with segments := segs } order).loaded ++ loads }, ?_⟩
  rw [step, hassign, ok_bind, hresize, ok_bind, updateTlsSlotinfo, hfill]
  rfl

theorem dlopenFails_progress (h : Numbered s [])
    (hlegal : (Call.dlopenFails loads order resized closing).Legal s)
    (hfits : (Call.dlopenFails loads order resized closing).Fits s) :
    ∃ s', step s (.dlopenFails loads order resized closing) = .ok s' := by
  obtain ⟨hnodup, hnew, hperm, hresized, hclosing⟩ := hlegal
  obtain ⟨s₁, hassign, h₁, hchain, hall⟩ := assign_loads h hnodup hnew
  obtain ⟨s₂, hresize⟩ := resize_progress h₁ hall hchain hperm (hfits.imp_right And.left)
  obtain ⟨j, hgrown, hlt⟩ := resizeTlsSlotinfo_ok hresize
  have h₂ : Numbered s₂ loads := hgrown.numbered h₁.toNumbered
  have hmodid : s₂.modid = s₁.modid := hgrown.modid_eq
  have hsize : s₂.size = s.size + slotinfoSurplus * j := by rw [hgrown.size_eq, hall.size]
  have hloaded : s₂.loaded = s.loaded := by rw [hgrown.same, hall.loaded]
  have hstatic : s₂.staticNelem = s.staticNelem := by rw [hgrown.same, hall.staticNelem]
  have hcount : objectCount s loads ≤ s₂.size := by
    rcases hfits with hfits | ⟨horder, hfits⟩
    · omega
    · -- each of the first objects has a slot, so these slots are at least as many
      have hsome := h₂.count_lt (List.take_sublist resized loads)
        (fun l hl => h₂.modid_lt_size (List.mem_append_right _ hl))
        (fun p hp => by rw [hmodid]; exact hlt p (horder ▸ hp)) h₂.static_lt_size
      rw [hstatic, hloaded, List.length_take, Nat.min_eq_left hresized] at hsome
      rw [slotsAfter, slotinfoSurplus] at hfits
      rw [hsize, slotinfoSurplus] at hsome ⊢
      omega
  have hle : ∀ p ∈ closing, s₂.modid p ≤ s₂.size := by
    intro p hp
    have hbound := h₁.modid_le_of_count (n := s₂.size)
      (by rw [hall.staticNelem, hall.loaded]; exact hcount) (hclosing.mem_iff.mp hp)
    rw [hall.size] at hbound
    rw [hmodid]
    omega
  obtain ⟨s₃, hrelease⟩ := releaseEach_spec (h₂.perm hclosing) false hle fun _ _ _ => rfl
  refine ⟨bump s₃ closing, ?_⟩
  rw [step, hassign, ok_bind, hresize]
  change releaseAll false s₂ closing = _
  rw [releaseAll, hrelease]
  rfl

theorem dlclose_progress (h : Numbered s []) (hlegal : (Call.dlclose closing).Legal s) :
    ∃ s', step s (.dlclose closing) = .ok s' := by
  have hclose := h.close hlegal.1 hlegal.2
  have hlt : ∀ p ∈ closing, s.modid p < s.size :=
    fun p hp => h.modid_lt_size (List.mem_append_right _ (hlegal.2 p hp))
  obtain ⟨s₁, hrelease⟩ := releaseEach_spec hclose true (fun p hp => (hlt p hp).le)
    (fun p hp heq => absurd heq (hlt p hp).ne)
  refine ⟨bump s₁ closing, ?_⟩
  rw [step, releaseAll, hrelease]
  rfl

theorem step_progress (h : Numbered s []) {call : Call α} (hlegal : call.Legal s)
    (hfits : call.Fits s) : ∃ s', step s call = .ok s' := by
  cases call with
  | dlopen loads order => exact dlopen_progress h hlegal hfits
  | dlopenFails loads order resized closing => exact dlopenFails_progress h hlegal hfits
  | dlclose closing => exact dlclose_progress h hlegal

end Calls

/-! ## Runs -/

section Runs
variable [DecidableEq α]

/-- The slot list when the objects of the program have been entered. The first slot is left
over from `init_tls`; the slots behind it are those of the ids from 1 on. -/
structure Entered (objects : List α) (segs : List (Segment α)) : Prop where
  lengths : segs.map List.length = (initTls objects).segments.map List.length
  slot : ∀ l ∈ objects, segs.flatten[(initTls objects).modid l]? = some ⟨1, some l⟩
  other : ∀ i, (∀ l ∈ objects, (initTls objects).modid l ≠ i) →
    segs.flatten[i]? = (initTls objects).slots[i]?

theorem size_initTls (objects : List α) :
    (initTls objects).size = objects.length + (1 + slotinfoSurplus) := by
  simp [initTls, State.size, State.slots]

theorem modid_initTls_le {objects : List α} {l : α} (hl : l ∈ objects) :
    (initTls objects).modid l ≤ objects.length := List.idxOf_lt_length_of_mem hl

theorem exists_entered {objects : List α} (hnodup : objects.Nodup) :
    ∃ segs, start objects = .ok (bump { initTls objects with segments := segs } objects.reverse) ∧
      Entered objects segs := by
  have hinj : (objects.reverse.map (initTls objects).modid).Nodup := by
    refine (List.nodup_reverse.mpr hnodup).map_on fun a ha b hb heq => ?_
    rw [List.mem_reverse] at ha hb
    exact (List.idxOf_inj ha).mp (Nat.succ.inj heq)
  have hin : ∀ l ∈ objects.reverse, (initTls objects).modid l < (initTls objects).size := by
    intro l hl
    have := modid_initTls_le (List.mem_reverse.mp hl)
    rw [size_initTls]
    omega
  obtain ⟨segs, hrun, hlen, hslot, hother⟩ := addAll_spec objects.reverse hinj hin
  refine ⟨segs, ?_, hlen, fun l hl => hslot l (List.mem_reverse.mpr hl), fun i hi => ?_⟩
  · rw [start, updateTlsSlotinfo, hrun]
    rfl
  · exact hother i fun l hl => hi l (List.mem_reverse.mp hl)

section
variable {objects : List α} {segs : List (Segment α)} (h : Entered objects segs)
include h

theorem Entered.size_eq : segs.flatten.length = objects.length + (1 + slotinfoSurplus) :=
  (length_eq_of_lengths h.lengths).trans (size_initTls objects)

theorem Entered.held {l : α} (hl : l ∈ objects) :
    holder segs.flatten ((initTls objects).modid l) = some l := by
  simp [holder, h.slot l hl]

theorem Entered.free {i : ℕ} (hi : objects.length < i) : holder segs.flatten i = none := by
  rw [holder_congr (h.other i fun l hl => by
    have := modid_initTls_le hl
    omega)]
  simp only [initTls, State.slots, List.flatten_cons, List.flatten_nil, List.append_nil]
  rw [holder_append_right (by simp; omega), holder, List.getElem?_replicate]
  split <;> rfl

theorem Entered.holder_modid (hnodup : objects.Nodup) {i : ℕ} {l : α} (hi : 0 < i)
    (hl : holder segs.flatten i = some l) : l ∈ objects ∧ (initTls objects).modid l = i := by
  have hle : i ≤ objects.length := by
    by_contra hgt
    rw [h.free (Nat.lt_of_not_le hgt)] at hl
    cases hl
  have hlt : i - 1 < objects.length := by omega
  have hmodid : (initTls objects).modid objects[i - 1] = i := by
    change objects.idxOf objects[i - 1] + 1 = i
    rw [hnodup.idxOf_getElem]
    omega
  have hmem := List.getElem_mem hlt
  have hheld := h.held hmem
  rw [hmodid, hl] at hheld
  rw [Option.some.inj hheld]
  exact ⟨hmem, hmodid⟩

theorem Entered.numbered (hnodup : objects.Nodup) :
    Numbered { initTls objects with segments := segs } [] := by
  have hsize := h.size_eq
  refine
    { objects := by simpa [initTls] using hnodup,
      room := forall_head_of_lengths h.lengths ?_,
      segments_ne := ne_nil_of_lengths h.lengths (by simp [initTls]),
      static_le := le_rfl, static_length := rfl,
      modid_startup := fun l hl => ⟨Nat.succ_pos _, modid_initTls_le hl⟩,
      modid_above := by simp [initTls],
      held := fun l hl => h.held (by simpa [initTls] using hl),
      pending_slot := by simp, pending_inj := by simp,
      holder_modid := ?_, holder_le := ?_, no_gap := ?_, max_inside := Or.inl ?_ }
  · intro seg next heq
    cases heq
    change objects.length < List.length (_ ++ _)
    rw [List.length_append, List.length_map, List.length_replicate]
    omega
  · intro i l hi hl
    obtain ⟨hmem, hmodid⟩ := h.holder_modid hnodup hi hl
    exact ⟨List.mem_append_left _ hmem, hmodid⟩
  · intro i hi hne
    by_contra hgt
    exact hne (h.free (Nat.lt_of_not_le hgt))
  · intro _ i hlo hhi
    change objects.length < i at hlo
    change i ≤ objects.length at hhi
    omega
  · change objects.length < segs.flatten.length
    omega

theorem Entered.gen_le {i : ℕ} {slot : Slot α} (hslot : segs.flatten[i]? = some slot) :
    slot.gen ≤ if objects.reverse.isEmpty then 0 else 1 := by
  by_cases hl : ∃ l ∈ objects, (initTls objects).modid l = i
  · obtain ⟨l, hl, rfl⟩ := hl
    rw [h.slot l hl] at hslot
    cases hslot
    rw [if_neg (by simpa using List.ne_nil_of_mem hl)]
  · rw [h.other i fun l hl' heq => hl ⟨l, hl', heq⟩] at hslot
    have hmem := List.mem_of_getElem? hslot
    simp only [initTls, State.slots, List.flatten_cons, List.flatten_nil, List.append_nil,
      List.mem_append, List.mem_map, List.mem_replicate] at hmem
    rcases hmem with ⟨l, -, rfl⟩ | ⟨-, rfl⟩ <;> exact Nat.zero_le _

end

theorem start_spec (objects : List α) (hnodup : objects.Nodup) :
    ∃ s, start objects = .ok s ∧ Numbered s [] ∧ s.startup = objects ∧ s.loaded = [] ∧
      ∀ (i : ℕ) (slot : Slot α), s.slots[i]? = some slot → slot.gen ≤ s.generation := by
  obtain ⟨segs, hrun, h⟩ := exists_entered hnodup
  rw [bump_eq] at hrun
  exact ⟨_, hrun, (h.numbered hnodup).congr _, rfl, rfl, fun i slot hslot => h.gen_le hslot⟩

/-- The ids are in order: every object has one of its own, its slot holds the object, and a
free id is above the highest one or counted among the gaps. -/
structure InOrder (s : State α) : Prop where
  modid_mem : ∀ l ∈ s.startup ++ s.loaded, 1 ≤ s.modid l ∧ s.modid l ≤ s.maxDtvIdx
  modid_inj : ∀ l ∈ s.startup ++ s.loaded, ∀ l' ∈ s.startup ++ s.loaded,
    s.modid l = s.modid l' → l = l'
  slot : ∀ l ∈ s.startup ++ s.loaded, holder s.slots (s.modid l) = some l
  free : ∀ i, s.staticNelem < i → i < s.size → holder s.slots i = none →
    s.maxDtvIdx < i ∨ s.gaps = true

omit [DecidableEq α] in
theorem Numbered.inOrder {s : State α} (h : Numbered s []) : InOrder s where
  modid_mem l hl := by
    have hpos : 0 < s.modid l := by
      rcases List.mem_append.mp hl with hl | hl
      · exact (h.modid_startup l hl).1
      · exact Nat.zero_lt_of_lt (h.modid_above l (List.mem_append_left _ hl))
    refine ⟨hpos, h.holder_le _ hpos ?_⟩
    rw [h.held l hl]
    simp
  modid_inj l hl l' hl' heq := by
    have := h.held l hl
    rw [heq, h.held l' hl'] at this
    exact (Option.some.inj this).symm
  slot := h.held
  free i hlo _ hnone := by
    by_contra hcon
    simp only [not_or, Nat.not_lt, Bool.not_eq_true] at hcon
    rcases h.no_gap hcon.2 i hlo hcon.1 with hheld | ⟨p, hp, -⟩
    · exact hheld hnone
    · cases hp

def Along (P : State α → Call α → Prop) (s : State α) : List (Call α) → Prop
  | [] => True
  | call :: calls => P s call ∧ ∀ s', step s call = .ok s' → Along P s' calls

theorem run_inOrder {s : State α} (h : Numbered s []) (calls : List (Call α))
    (hlegal : Along (fun s call => call.Legal s) s calls)
    (hfits : Along (fun s call => call.Fits s) s calls) :
    ∃ s', run s calls = .ok s' ∧ Numbered s' [] := by
  induction calls generalizing s with
  | nil => exact ⟨s, rfl, h⟩
  | cons call calls ih =>
    obtain ⟨s₁, hstep⟩ := step_progress h hlegal.1 hfits.1
    obtain ⟨s₂, hrun, h₂⟩ := ih (step_ok h hlegal.1 hstep) (hlegal.2 s₁ hstep) (hfits.2 s₁ hstep)
    refine ⟨s₂, ?_, h₂⟩
    rw [run, List.foldlM_cons, hstep]
    exact hrun

/-- From the slot list of the start-up on, every run of `dlopen` and `dlclose` whose calls
all fit the slot list comes to its end with the ids in order. -/
theorem modids_inOrder (objects : List α) (hnodup : objects.Nodup) (calls : List (Call α))
    (hlegal : ∀ s, start objects = .ok s → Along (fun s call => call.Legal s) s calls)
    (hfits : ∀ s, start objects = .ok s → Along (fun s call => call.Fits s) s calls) :
    ∃ s s', start objects = .ok s ∧ run s calls = .ok s' ∧ InOrder s' := by
  obtain ⟨s, hstart, h, -⟩ := start_spec objects hnodup
  obtain ⟨s', hrun, h'⟩ := run_inOrder h calls (hlegal s hstart) (hfits s hstart)
  exact ⟨s, s', hstart, hrun, h'.inOrder⟩

theorem along_two {P : State α → Call α → Prop} {s s' : State α} {first second : Call α}
    (hstep : step s first = .ok s') (hfirst : P s first) (hsecond : P s' second) :
    Along P s [first, second] := by
  refine ⟨hfirst, fun s₁ hs₁ => ⟨?_, fun _ _ => trivial⟩⟩
  rw [hstep] at hs₁
  cases hs₁
  exact hsecond

end Runs

/-- Two objects are loaded and the first of them is unloaded. -/
theorem modids_inOrder_close :
    ∃ s s', start [0] = .ok s ∧ run s [.dlopen [1, 2] [1, 2], .dlclose [1]] = .ok s' ∧
      InOrder s' := by
  obtain ⟨s, hstart, hnum, hstartup, hloaded, -⟩ := start_spec [0] (by decide)
  have hlegal : (Call.dlopen [1, 2] [1, 2]).Legal s := by
    refine ⟨by decide, ?_, List.Perm.refl _⟩
    rw [hstartup, hloaded]
    decide
  have hfits : (Call.dlopen [1, 2] [1, 2]).Fits s := Or.inr rfl
  obtain ⟨s₁, hstep⟩ := step_progress hnum hlegal hfits
  have hlegal₁ : (Call.dlclose [1]).Legal s₁ := by
    refine ⟨by decide, ?_⟩
    rw [(dlopen_ok hnum hlegal hstep).2.1, hloaded]
    decide
  refine modids_inOrder [0] (by decide) _ (fun s' hs' => ?_) (fun s' hs' => ?_)
  · rw [hstart] at hs'
    cases hs'
    exact along_two hstep hlegal hlegal₁
  · rw [hstart] at hs'
    cases hs'
    exact along_two hstep hfits trivial

/-- A program with one object with TLS loads 62 more, which fills the slot list, and then
fails while it loads two further ones. The ids 64 and 65 have no slots. When the
second is given back, the closing loop reads the slot of the first. -/
theorem dlopen_failure_reads_past_slots :
    ∃ s, start [0] = .ok s ∧
      Along (fun s call => call.Legal s) s
        [.dlopen (List.range' 1 62) (List.range' 1 62), .dlopenFails [63, 64] [63, 64] 0 [64, 63]] ∧
      run s [.dlopen (List.range' 1 62) (List.range' 1 62),
        .dlopenFails [63, 64] [63, 64] 0 [64, 63]] = .error (.fault (.loadOutside 64 64)) := by
  obtain ⟨s, hstart, hnum, hstartup, hloaded, -⟩ := start_spec [0] (by decide)
  have hlegal : (Call.dlopen (List.range' 1 62) (List.range' 1 62)).Legal s := by
    refine ⟨by decide, ?_, List.Perm.refl _⟩
    rw [hstartup, hloaded]
    decide
  obtain ⟨s₁, hstep⟩ := step_progress hnum hlegal (Or.inr rfl)
  obtain ⟨-, hloaded₁, hchanged, -⟩ := dlopen_ok hnum hlegal hstep
  have hlegal₁ : (Call.dlopenFails [63, 64] [63, 64] 0 [64, 63]).Legal s₁ := by
    refine ⟨by decide, ?_, List.Perm.refl _, by decide, List.Perm.swap 63 64 []⟩
    rw [hchanged.startup, hstartup, hloaded₁, hloaded]
    decide
  refine ⟨s, hstart, along_two hstep hlegal hlegal₁, ?_⟩
  have heval : ((start [0]) >>= fun s => run s
      [.dlopen (List.range' 1 62) (List.range' 1 62),
        .dlopenFails [63, 64] [63, 64] 0 [64, 63]]).map (fun _ => ()) =
      .error (.fault (.loadOutside 64 64)) := by
    decide +kernel
  rw [hstart] at heval
  change (run s _).map _ = _ at heval
  cases hrun : run s [.dlopen (List.range' 1 62) (List.range' 1 62),
      .dlopenFails [63, 64] [63, 64] 0 [64, 63]] with
  | error e =>
    rw [hrun] at heval
    injection heval with he
    rw [he]
  | ok s' =>
    rw [hrun] at heval
    cases heval

end AwaitGlibc.TlsModuleIds

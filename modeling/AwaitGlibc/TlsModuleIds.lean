import AwaitGlibc.TlsSlots
import Mathlib.Data.List.Nodup
import Mathlib.Data.List.Perm.Subperm

/-!
# TLS module ids over runs of `dlopen` and `dlclose`

A `dlopen` hands out an id when an object is mapped, makes room for the slots of all
new objects once everything is loaded and relocated, and fills the slots in when it
cannot fail any more. Until then the objects are pending: they have an id, and a slot
only when the id came out of a hole. A `dlopen` that fails releases the ids of its
pending objects through `_dl_close_worker`, as `dlclose` does for loaded ones.

Both are modelled as one step each. `loads` lists the new objects with TLS in the order
they were mapped, `order` the same objects as the search list of the opened object has
them, which differs when an object names a filtee, and `closing` in the order in which
they are closed. A failing `dlopen` has got through the first `resized` objects of
`resize_tls_slotinfo`; 0 when it did not come that far.
-/
namespace AwaitGlibc.TlsModuleIds
open CheckedArray TlsSlots

/-- The globals of the loader that concern module ids, the field `l_tls_modid` of the
objects, the objects of the start-up and those `dlopen` has loaded since. -/
structure State (α : Type) where
  segments : List (Segment α)
  maxDtvIdx : ℕ
  staticNelem : ℕ
  gaps : Bool
  generation : ℕ
  modid : α → ℕ
  startup : List α
  loaded : List α

variable {α : Type}

/-- The chain of slot arrays read as one array. -/
def State.slots (s : State α) : List (Slot α) := s.segments.flatten

def State.size (s : State α) : ℕ := s.slots.length

section Model
variable [DecidableEq α]

/-- The end of `_dl_assign_tls_modid` at the label `nogaps`. -/
def nextId (s : State α) (l : α) : State α :=
  { s with
    maxDtvIdx := s.maxDtvIdx + 1
    modid := Function.update s.modid l (s.maxDtvIdx + 1) }

/-- The search of `_dl_assign_tls_modid` when there are gaps. -/
def firstHole (s : State α) (l : α) : Except Stop (List (Segment α) × ℕ) :=
  if s.staticNelem + 1 ≤ s.maxDtvIdx then
    findGap s.maxDtvIdx l s.segments 0 (s.staticNelem + 1)
  else .ok (s.segments, s.staticNelem + 1)

def assignTlsModid (s : State α) (l : α) : Except Stop (State α) :=
  if s.gaps then do
    let (segments, result) ← firstHole s l
    if s.maxDtvIdx < result then
      if result = s.maxDtvIdx + 1 then .ok (nextId { s with segments := segments, gaps := false } l)
      else .error .assertion
    else .ok { s with segments := segments, modid := Function.update s.modid l result }
  else .ok (nextId s l)

/-- `_dl_add_to_slotinfo` on the loader's own list. -/
def addToList (doAdd : Bool) (s : State α) (l : α) : Except Stop (State α) := do
  let segments ← addToSlotinfo s.generation l doAdd s.segments (s.modid l)
  .ok { s with segments := segments }

/-- `resize_tls_slotinfo`, over the new objects of the search list. -/
def resizeTlsSlotinfo (s : State α) (order : List α) : Except Stop (State α) :=
  order.foldlM (addToList false) s

/-- The generation after a change to `objects`, if these are any at all. -/
def bump (s : State α) (objects : List α) : State α :=
  if objects.isEmpty then s else { s with generation := s.generation + 1 }

/-- `update_tls_slotinfo`, which is called when there is an object to add. -/
def updateTlsSlotinfo (s : State α) (order : List α) : Except Stop (State α) := do
  let s ← order.foldlM (addToList true) s
  .ok (bump s order)

/-- What `_dl_close_worker` does about the id of one object it unloads. -/
def releaseModid (initCalled : Bool) (s : State α) (l : α) : Except Stop (State α) := do
  let r ← removeSlotinfo s.staticNelem s.generation s.maxDtvIdx s.gaps (s.modid l) initCalled
    s.segments 0
  .ok { s with
    segments := r.segments
    maxDtvIdx := if r.found then r.maxDtvIdx else s.staticNelem
    gaps := r.gaps }

/-- The TLS part of `_dl_close_worker`. -/
def releaseAll (initCalled : Bool) (s : State α) (closing : List α) : Except Stop (State α) := do
  let s ← closing.foldlM (releaseModid initCalled) s
  .ok (bump s closing)

/-- The calls of a program, each of them atomic. -/
inductive Call (α : Type) where
  | dlopen (loads order : List α)
  | dlopenFails (loads order : List α) (resized : ℕ) (closing : List α)
  | dlclose (closing : List α)
deriving DecidableEq, Repr

def step (s : State α) : Call α → Except Stop (State α)
  | .dlopen loads order => do
      let s ← loads.foldlM assignTlsModid s
      let s ← resizeTlsSlotinfo s order
      let s ← updateTlsSlotinfo s order
      .ok { s with loaded := s.loaded ++ loads }
  | .dlopenFails loads order resized closing => do
      let s ← loads.foldlM assignTlsModid s
      let s ← resizeTlsSlotinfo s (order.take resized)
      releaseAll false s closing
  | .dlclose closing =>
    releaseAll true { s with loaded := s.loaded.filter (· ∉ closing) } closing

def run (s : State α) (calls : List (Call α)) : Except Stop (State α) := calls.foldlM step s

/-- `init_tls`: ids from 1 on in the order of `objects`, the first slots filled, and room
for more behind them. -/
def initTls (objects : List α) : State α where
  segments := [objects.map (fun l => ⟨0, some l⟩) ++
    List.replicate (1 + slotinfoSurplus) Slot.empty]
  maxDtvIdx := objects.length
  staticNelem := objects.length
  gaps := false
  generation := 0
  modid l := objects.idxOf l + 1
  startup := objects
  loaded := []

/-- The state when the program starts. Relocation goes through the objects from the last
to the first and enters each in its slot. -/
def start (objects : List α) : Except Stop (State α) :=
  updateTlsSlotinfo (initTls objects) objects.reverse

/-- What a program can ask for: new objects are new, and only objects that `dlopen` has
loaded are unloaded. -/
def Call.Legal (s : State α) : Call α → Prop
  | .dlopen loads order =>
    loads.Nodup ∧ (∀ l ∈ loads, l ∉ s.startup ∧ l ∉ s.loaded) ∧ order.Perm loads
  | .dlopenFails loads order resized closing =>
    loads.Nodup ∧ (∀ l ∈ loads, l ∉ s.startup ∧ l ∉ s.loaded) ∧ order.Perm loads ∧
      resized ≤ loads.length ∧ closing.Perm loads
  | .dlclose closing => closing.Nodup ∧ ∀ l ∈ closing, l ∈ s.loaded

end Model

/-! ## What holds between the parts of a call -/

/-- The numbering while the objects of `pending` have ids but need not have slots. -/
structure Numbered (s : State α) (pending : List α) : Prop where
  objects : (s.startup ++ (s.loaded ++ pending)).Nodup
  room : ∀ seg next, s.segments = seg :: next → s.staticNelem < seg.length
  segments_ne : s.segments ≠ []
  static_le : s.staticNelem ≤ s.maxDtvIdx
  static_length : s.startup.length = s.staticNelem
  modid_startup : ∀ l ∈ s.startup, 0 < s.modid l ∧ s.modid l ≤ s.staticNelem
  modid_above : ∀ l ∈ s.loaded ++ pending, s.staticNelem < s.modid l
  held : ∀ l ∈ s.startup ++ s.loaded, holder s.slots (s.modid l) = some l
  pending_slot : ∀ p ∈ pending,
    holder s.slots (s.modid p) = none ∨ holder s.slots (s.modid p) = some p
  pending_inj : (pending.map s.modid).Nodup
  holder_modid : ∀ i l, 0 < i → holder s.slots i = some l →
    l ∈ s.startup ++ (s.loaded ++ pending) ∧ s.modid l = i
  holder_le : ∀ i, 0 < i → holder s.slots i ≠ none → i ≤ s.maxDtvIdx
  no_gap : s.gaps = false → ∀ i, s.staticNelem < i → i ≤ s.maxDtvIdx →
    holder s.slots i ≠ none ∨ ∃ p ∈ pending, s.modid p = i
  max_inside : s.maxDtvIdx < s.size ∨ ∃ p ∈ pending, s.modid p = s.maxDtvIdx

namespace Numbered
variable {s s' : State α} {pending : List α}

section
variable (h : Numbered s pending)
include h

theorem static_lt_size : s.staticNelem < s.size := by
  cases hseg : s.segments with
  | nil => exact absurd hseg h.segments_ne
  | cons seg next =>
    have := h.room seg next hseg
    rw [State.size, State.slots, hseg, List.flatten_cons, List.length_append]
    omega

theorem perm {pending' : List α} (hp : pending'.Perm pending) : Numbered s pending' :=
  { h with
    objects := ((hp.append_left _).append_left _).nodup_iff.mpr h.objects
    modid_above := fun l hl => h.modid_above l ((hp.append_left _).mem_iff.mp hl)
    pending_slot := fun p hp' => h.pending_slot p (hp.mem_iff.mp hp')
    pending_inj := (hp.map _).nodup_iff.mpr h.pending_inj
    holder_modid := fun i l hi hl =>
      (h.holder_modid i l hi hl).imp_left ((hp.append_left _).append_left _).mem_iff.mpr
    no_gap := fun hg i hlo hhi => (h.no_gap hg i hlo hhi).imp_right
      fun ⟨p, hp', hi⟩ => ⟨p, hp.mem_iff.mpr hp', hi⟩
    max_inside := h.max_inside.imp_right fun ⟨p, hp', hi⟩ => ⟨p, hp.mem_iff.mpr hp', hi⟩ }

theorem modid_lt_size {l : α} (hl : l ∈ s.startup ++ s.loaded) : s.modid l < s.size := by
  apply lt_length_of_holder
  rw [h.held l hl]
  exact Option.some_ne_none l

theorem pending_modid_ne {p l : α} (hp : p ∈ pending)
    (hl : l ∈ s.startup ++ s.loaded) : s.modid p ≠ s.modid l := by
  intro heq
  have hdisj := (List.nodup_append.mp (List.append_assoc .. ▸ h.objects)).2.2 l hl p hp
  have hheld := h.held l hl
  rcases h.pending_slot p hp with hnone | hsome
  · rw [heq, hheld] at hnone
    cases hnone
  · rw [heq, hheld] at hsome
    exact hdisj (Option.some.inj hsome)

theorem modid_nodup : ((s.loaded ++ pending).map s.modid).Nodup := by
  have hloaded : (s.loaded.map s.modid).Nodup := by
    have hnodup : s.loaded.Nodup :=
      (List.nodup_append.mp (List.nodup_append.mp h.objects).2.1).1
    refine hnodup.map_on fun a ha b hb heq => ?_
    have hheld := h.held a (List.mem_append_right _ ha)
    rw [heq, h.held b (List.mem_append_right _ hb)] at hheld
    exact (Option.some.inj hheld).symm
  rw [List.map_append, List.nodup_append]
  refine ⟨hloaded, h.pending_inj, ?_⟩
  intro a ha b hb heq
  obtain ⟨l, hl, rfl⟩ := List.mem_map.mp ha
  obtain ⟨p, hp, rfl⟩ := List.mem_map.mp hb
  exact h.pending_modid_ne hp (List.mem_append_right _ hl) heq.symm

end

end Numbered

/-! ## Handing out an id -/

theorem holder_mark {slots : List (Slot α)} {k : ℕ} (l : α) (h : k < slots.length) :
    holder (slots.modify k (Slot.mark l)) k = some l := by
  simp [holder, List.getElem?_eq_getElem h, Slot.mark]

/-- How one call of `_dl_assign_tls_modid` changes the state. -/
structure Assigned [DecidableEq α] (s s' : State α) (l : α) (id : ℕ) : Prop where
  startup : s'.startup = s.startup
  loaded : s'.loaded = s.loaded
  staticNelem : s'.staticNelem = s.staticNelem
  generation : s'.generation = s.generation
  modid : s'.modid = Function.update s.modid l id
  lengths : s'.segments.map List.length = s.segments.map List.length
  slots : s'.slots = s.slots ∨ s'.slots = s.slots.modify id (Slot.mark l)
  max : (id ≤ s.maxDtvIdx ∧ s'.maxDtvIdx = s.maxDtvIdx) ∨
    (id = s.maxDtvIdx + 1 ∧ s'.maxDtvIdx = id)
  -- with gaps left, the id is one of them and its slot is taken at once
  gap : s'.gaps = true → s.gaps = true ∧ id ≤ s.maxDtvIdx ∧
    s'.slots = s.slots.modify id (Slot.mark l)

namespace Assigned
variable [DecidableEq α] {s s' : State α} {l : α} {id : ℕ}

theorem holder_ne (h : Assigned s s' l id) {i : ℕ} (hi : i ≠ id) :
    holder s'.slots i = holder s.slots i := by
  rcases h.slots with heq | heq <;> rw [heq]
  exact holder_modify_ne _ (Ne.symm hi)

theorem holder_id (h : Assigned s s' l id) (hfree : holder s.slots id = none) :
    holder s'.slots id = none ∨ holder s'.slots id = some l := by
  rcases h.slots with heq | heq <;> rw [heq]
  · exact Or.inl hfree
  · by_cases hlt : id < s.slots.length
    · exact Or.inr (holder_mark l hlt)
    · rw [List.modify_eq_self (by omega)]
      exact Or.inl hfree

theorem size_eq (h : Assigned s s' l id) : s'.size = s.size := by
  rcases h.slots with heq | heq <;> simp [State.size, heq]

theorem modid_ne (h : Assigned s s' l id) {p : α} (hp : p ≠ l) : s'.modid p = s.modid p := by
  rw [h.modid, Function.update_of_ne hp]

theorem modid_self (h : Assigned s s' l id) : s'.modid l = id := by
  rw [h.modid, Function.update_self]

end Assigned

variable {n : ℕ} {s : State α} {pending : List α}

section
variable {segs segs' : List (Segment α)} (hlen : segs'.map List.length = segs.map List.length)
include hlen

theorem forall_head_of_lengths (h : ∀ seg next, segs = seg :: next → n < seg.length) :
    ∀ seg next, segs' = seg :: next → n < seg.length := by
  intro seg next heq
  subst heq
  cases segs with
  | nil => cases hlen
  | cons seg' next' =>
    simp only [List.map_cons, List.cons.injEq] at hlen
    rw [hlen.1]
    exact h seg' next' rfl

theorem ne_nil_of_lengths (h : segs ≠ []) : segs' ≠ [] := by
  intro hnil
  subst hnil
  exact h (List.map_eq_nil_iff.mp hlen.symm)

end

section Assign
variable [DecidableEq α] {s' : State α} {l : α} {id : ℕ} (h : Numbered s pending)
  (hs : Assigned s s' l id) (hl : l ∉ s.startup ++ (s.loaded ++ pending))
include hs hl

omit h in
theorem Assigned.modid_known {p : α} (hp : p ∈ s.startup ++ (s.loaded ++ pending)) :
    s'.modid p = s.modid p :=
  hs.modid_ne fun heq => hl (heq ▸ hp)

include h

theorem Numbered.assigned_objects : (s'.startup ++ (s'.loaded ++ (pending ++ [l]))).Nodup := by
  rw [hs.startup, hs.loaded, ← List.append_assoc, ← List.append_assoc, List.nodup_append]
  refine ⟨by simpa using h.objects, by simp, ?_⟩
  intro a ha b hb heq
  rw [List.mem_singleton] at hb
  subst hb heq
  simp only [List.mem_append] at ha hl
  tauto

theorem Numbered.assigned_above (hlo : s.staticNelem < id) :
    ∀ p ∈ s'.loaded ++ (pending ++ [l]), s'.staticNelem < s'.modid p := by
  intro p hp
  rw [hs.staticNelem]
  rw [hs.loaded, ← List.append_assoc, List.mem_append, List.mem_singleton] at hp
  rcases hp with hp | rfl
  · rw [hs.modid_known hl (List.mem_append_right _ hp)]
    exact h.modid_above p hp
  · rwa [hs.modid_self]

section
variable (hfree : holder s.slots id = none)
include hfree

theorem Numbered.assigned_held :
    ∀ p ∈ s'.startup ++ s'.loaded, holder s'.slots (s'.modid p) = some p := by
  intro p hp
  rw [hs.startup, hs.loaded] at hp
  have hheld := h.held p hp
  rw [hs.modid_known hl (by simp only [List.mem_append] at hp ⊢; tauto), hs.holder_ne]
  · exact hheld
  · intro heq
    rw [heq, hfree] at hheld
    cases hheld

theorem Numbered.assigned_slot (hnew : ∀ p ∈ pending, s.modid p ≠ id) :
    ∀ p ∈ pending ++ [l],
      holder s'.slots (s'.modid p) = none ∨ holder s'.slots (s'.modid p) = some p := by
  intro p hp
  rw [List.mem_append, List.mem_singleton] at hp
  rcases hp with hp | rfl
  · rw [hs.modid_known hl (by simp [hp]), hs.holder_ne (hnew p hp)]
    exact h.pending_slot p hp
  · rw [hs.modid_self]
    exact hs.holder_id hfree

theorem Numbered.assigned_holder {i : ℕ} {p : α} (hi : 0 < i)
    (hheld : holder s'.slots i = some p) :
    p ∈ s'.startup ++ (s'.loaded ++ (pending ++ [l])) ∧ s'.modid p = i := by
  rw [hs.startup, hs.loaded]
  by_cases heq : i = id
  · subst heq
    rcases hs.holder_id hfree with hnone | hsome
    · rw [hnone] at hheld
      cases hheld
    · rw [hsome] at hheld
      cases hheld
      exact ⟨by simp, hs.modid_self⟩
  · rw [hs.holder_ne heq] at hheld
    obtain ⟨hp, hid⟩ := h.holder_modid i p hi hheld
    refine ⟨by simp only [List.mem_append] at hp ⊢; tauto, ?_⟩
    rw [hs.modid_known hl hp, hid]

end

theorem Numbered.assigned_inj (hnew : ∀ p ∈ pending, s.modid p ≠ id) :
    ((pending ++ [l]).map s'.modid).Nodup := by
  have hmap : pending.map s'.modid = pending.map s.modid :=
    List.map_congr_left fun p hp => hs.modid_known hl (by simp [hp])
  rw [List.map_append, hmap, List.map_singleton, hs.modid_self, List.nodup_append]
  refine ⟨h.pending_inj, by simp, ?_⟩
  intro a ha b hb heq
  obtain ⟨p, hp, rfl⟩ := List.mem_map.mp ha
  exact hnew p hp (heq.trans (List.mem_singleton.mp hb))

omit h in
/-- An id is found among the pending objects as before, or it is the new one. -/
theorem Assigned.exists_pending {i : ℕ} (hi : i = id ∨ ∃ p ∈ pending, s.modid p = i) :
    ∃ p ∈ pending ++ [l], s'.modid p = i := by
  rcases hi with rfl | ⟨p, hp, hid⟩
  · exact ⟨l, by simp, hs.modid_self⟩
  · exact ⟨p, by simp [hp], by rw [hs.modid_known hl (by simp [hp]), hid]⟩

/-- The numbering with one more pending object, under an id nobody has. -/
theorem Numbered.assigned (hlo : s.staticNelem < id) (hfree : holder s.slots id = none)
    (hnew : ∀ p ∈ pending, s.modid p ≠ id)
    (hgap : s'.gaps = false → ∀ i, s.staticNelem < i → i ≤ s.maxDtvIdx →
      holder s.slots i ≠ none ∨ ∃ p ∈ pending, s.modid p = i) : Numbered s' (pending ++ [l]) := by
  have hmax := hs.max
  refine
    { objects := h.assigned_objects hs hl,
      room := hs.staticNelem ▸ forall_head_of_lengths hs.lengths h.room,
      segments_ne := ne_nil_of_lengths hs.lengths h.segments_ne,
      static_le := ?_, static_length := by rw [hs.startup, hs.staticNelem, h.static_length],
      modid_startup := ?_, modid_above := h.assigned_above hs hl hlo,
      held := h.assigned_held hs hl hfree, pending_slot := h.assigned_slot hs hl hfree hnew,
      pending_inj := h.assigned_inj hs hl hnew,
      holder_modid := fun i p hi hheld => h.assigned_holder hs hl hfree hi hheld,
      holder_le := ?_, no_gap := ?_, max_inside := ?_ }
  · have := h.static_le
    rw [hs.staticNelem]
    omega
  · intro p hp
    rw [hs.startup] at hp
    rw [hs.modid_known hl (List.mem_append_left _ hp), hs.staticNelem]
    exact h.modid_startup p hp
  · intro i hi hheld
    by_cases heq : i = id
    · omega
    · rw [hs.holder_ne heq] at hheld
      have := h.holder_le i hi hheld
      omega
  · intro hg i hlo' hhi
    rw [hs.staticNelem] at hlo'
    by_cases heq : i = id
    · exact Or.inr (hs.exists_pending hl (.inl heq))
    · rw [hs.holder_ne heq]
      exact (hgap hg i hlo' (by omega)).imp_right fun hp => hs.exists_pending hl (.inr hp)
  · rw [hs.size_eq]
    rcases hmax with ⟨-, hmax⟩ | ⟨-, hmax⟩
    · rw [hmax]
      exact h.max_inside.imp_right fun hp => hs.exists_pending hl (.inr hp)
    · exact Or.inr (hs.exists_pending hl (.inl hmax))

end Assign

/-- The numbering while ids are handed out: nothing has been removed, and as long as
there are gaps every pending object sits in its slot. -/
structure Assigning (s : State α) (pending : List α) : Prop extends Numbered s pending where
  modid_le : ∀ p ∈ pending, s.modid p ≤ s.maxDtvIdx
  with_gaps : s.gaps = true →
    s.maxDtvIdx < s.size ∧ ∀ p ∈ pending, holder s.slots (s.modid p) = some p

theorem Assigning.of_numbered (h : Numbered s []) : Assigning s [] where
  toNumbered := h
  modid_le := by simp
  with_gaps _ := by
    refine ⟨?_, by simp⟩
    rcases h.max_inside with hlt | ⟨p, hp, -⟩
    · exact hlt
    · cases hp

section Assign
variable [DecidableEq α] {s : State α} {pending : List α}

omit [DecidableEq α] in
/-- With gaps the search ends at the first free id, which is at most one above the
highest. -/
theorem firstHole_spec (h : Assigning s pending) (hg : s.gaps = true) (l : α) :
    ∃ segs k, firstHole s l = .ok (segs, k) ∧ s.staticNelem < k ∧ k ≤ s.maxDtvIdx + 1 ∧
      (∀ i, s.staticNelem < i → i < k → holder s.slots i ≠ none) ∧ holder s.slots k = none ∧
      segs.map List.length = s.segments.map List.length ∧
      (segs.flatten = s.slots.modify k (Slot.mark l) ∨
        segs = s.segments ∧ k = s.maxDtvIdx + 1) := by
  have hsize := (h.with_gaps hg).1
  have hle : ∀ i, s.staticNelem < i → holder s.slots i ≠ none → i ≤ s.maxDtvIdx :=
    fun i hi => h.holder_le i (by omega)
  rw [firstHole]
  by_cases hlow : s.staticNelem + 1 ≤ s.maxDtvIdx
  · rw [if_pos hlow]
    have hmax : ∀ i, s.staticNelem + 1 ≤ i → holder s.segments.flatten i ≠ none →
        0 + i ≤ s.maxDtvIdx := by
      intro i hi hheld
      have := hle i hi hheld
      omega
    have hstart : s.staticNelem + 1 ≤ s.segments.flatten.length := by
      change _ ≤ s.size
      omega
    obtain ⟨k, hlo, -, hused, hfree, segs, hrun, hflat, hlen⟩ :=
      findGap_spec l s.segments 0 (s.staticNelem + 1) hstart hmax
    rw [Nat.zero_add, Nat.zero_add] at hrun
    refine ⟨segs, k, hrun, hlo, ?_, hused, hfree, hlen, Or.inl hflat⟩
    by_contra hgt
    have := hle _ (by omega) (hused (s.maxDtvIdx + 1) (by omega) (by omega))
    omega
  · have hmax : s.staticNelem = s.maxDtvIdx := by
      have := h.static_le
      omega
    rw [if_neg hlow]
    refine ⟨s.segments, s.staticNelem + 1, rfl, by omega, by omega, by omega, ?_, rfl,
      Or.inr ⟨rfl, by omega⟩⟩
    by_contra hheld
    have := hle _ (by omega) hheld
    omega

variable {l : α}

/-- The id right above the highest one: it has a slot or is right behind the last slot,
unless the highest id itself is behind the last slot. -/
theorem nextId_spec (h : Assigning s pending) (hl : l ∉ s.startup ++ (s.loaded ++ pending))
    {segs : List (Segment α)} (hlen : segs.map List.length = s.segments.map List.length)
    (hflat : segs.flatten = s.slots ∨
      segs.flatten = s.slots.modify (s.maxDtvIdx + 1) (Slot.mark l))
    (hgap : ∀ i, s.staticNelem < i → i ≤ s.maxDtvIdx →
      holder s.slots i ≠ none ∨ ∃ p ∈ pending, s.modid p = i) :
    ∃ id, Assigned s (nextId { s with segments := segs, gaps := false } l) l id ∧
      Assigning (nextId { s with segments := segs, gaps := false } l) (pending ++ [l]) ∧
      (id ≤ s.size ∨ ∃ p ∈ pending, id = s.modid p + 1) ∧ holder s.slots id = none := by
  have hs : Assigned s (nextId { s with segments := segs, gaps := false } l) l (s.maxDtvIdx + 1) :=
    { startup := rfl, loaded := rfl, staticNelem := rfl, generation := rfl, modid := rfl,
      lengths := hlen, slots := hflat, max := Or.inr ⟨rfl, rfl⟩, gap := fun hg => nomatch hg }
  have hfree : holder s.slots (s.maxDtvIdx + 1) = none := by
    by_contra hheld
    have := h.holder_le _ (by omega) hheld
    omega
  have hlow := h.static_le
  have hnew : ∀ p ∈ pending, s.modid p ≠ s.maxDtvIdx + 1 := by
    intro p hp
    have := h.modid_le p hp
    omega
  refine ⟨s.maxDtvIdx + 1, hs, ⟨?_, ?_, fun hg => nomatch hg⟩, ?_, hfree⟩
  · exact h.toNumbered.assigned hs hl (by omega) hfree hnew fun _ => hgap
  · intro p hp
    change (Function.update s.modid l (s.maxDtvIdx + 1)) p ≤ s.maxDtvIdx + 1
    by_cases heq : p = l
    · rw [heq, Function.update_self]
    · rw [Function.update_of_ne heq]
      have := h.modid_le p (by simpa [heq] using hp)
      omega
  · rcases h.max_inside with hlt | ⟨p, hp, hmax⟩
    · exact Or.inl (by omega)
    · exact Or.inr ⟨p, hp, by omega⟩

theorem holeId_spec (h : Assigning s pending) (hg : s.gaps = true) {k : ℕ}
    (hl : l ∉ s.startup ++ (s.loaded ++ pending)) {segs : List (Segment α)}
    (hlen : segs.map List.length = s.segments.map List.length)
    (hflat : segs.flatten = s.slots.modify k (Slot.mark l)) (hlo : s.staticNelem < k)
    (hle : k ≤ s.maxDtvIdx) (hfree : holder s.slots k = none) :
    Assigned s { s with segments := segs, modid := Function.update s.modid l k } l k ∧
      Assigning { s with segments := segs, modid := Function.update s.modid l k }
        (pending ++ [l]) := by
  have hsize := (h.with_gaps hg).1
  have hheld := (h.with_gaps hg).2
  have hs : Assigned s { s with segments := segs, modid := Function.update s.modid l k } l k :=
    { startup := rfl, loaded := rfl, staticNelem := rfl, generation := rfl, modid := rfl,
      lengths := hlen, slots := Or.inr hflat, max := Or.inl ⟨hle, rfl⟩,
      gap := fun _ => ⟨hg, hle, hflat⟩ }
  have hnew : ∀ p ∈ pending, s.modid p ≠ k := by
    intro p hp heq
    have := hheld p hp
    rw [heq, hfree] at this
    cases this
  refine ⟨hs, ⟨?_, ?_, fun _ => ⟨?_, ?_⟩⟩⟩
  · refine h.toNumbered.assigned hs hl hlo hfree hnew fun hg' => ?_
    rw [show s.gaps = false from hg'] at hg
    cases hg
  · intro p hp
    by_cases heq : p = l
    · rw [heq, hs.modid_self]
      exact hle
    · rw [hs.modid_ne heq]
      exact h.modid_le p (by simpa [heq] using hp)
  · rw [hs.size_eq]
    exact hsize
  · intro p hp
    by_cases heq : p = l
    · subst heq
      rw [hs.modid_self]
      change holder segs.flatten k = some p
      rw [hflat]
      exact holder_mark p (show k < s.size by omega)
    · have hp' : p ∈ pending := by simpa [heq] using hp
      rw [hs.modid_ne heq, hs.holder_ne (hnew p hp')]
      exact hheld p hp'

/-- `_dl_assign_tls_modid` keeps its assertions and picks an id nobody has. The id has a
slot or is right behind the last slot, unless an object before it is behind the last
slot already. -/
theorem assignTlsModid_spec (h : Assigning s pending)
    (hl : l ∉ s.startup ++ (s.loaded ++ pending)) :
    ∃ s' id, assignTlsModid s l = .ok s' ∧ Assigned s s' l id ∧ Assigning s' (pending ++ [l]) ∧
      (id ≤ s.size ∨ ∃ p ∈ pending, id = s.modid p + 1) ∧ holder s.slots id = none := by
  by_cases hg : s.gaps = true
  · obtain ⟨segs, k, hrun, hlo, hle, hused, hfree, hlen, hflat⟩ := firstHole_spec h hg l
    have hstep : assignTlsModid s l = if s.maxDtvIdx < k then
        if k = s.maxDtvIdx + 1 then .ok (nextId { s with segments := segs, gaps := false } l)
        else .error .assertion
        else .ok { s with segments := segs, modid := Function.update s.modid l k } := by
      rw [assignTlsModid, if_pos hg, hrun]
      rfl
    by_cases hk : s.maxDtvIdx < k
    · -- the last gap is gone
      have hkmax : k = s.maxDtvIdx + 1 := by omega
      subst hkmax
      obtain ⟨id, hs⟩ := nextId_spec h hl hlen
        (hflat.elim Or.inr fun h => Or.inl (h.1 ▸ rfl))
        fun i hlo hi => Or.inl (hused i hlo (by omega))
      exact ⟨_, id, by rw [hstep, if_pos hk, if_pos rfl], hs⟩
    · have hmark : segs.flatten = s.slots.modify k (Slot.mark l) :=
        hflat.resolve_right fun h => by omega
      obtain ⟨hs, hassign⟩ := holeId_spec h hg hl hlen hmark hlo (by omega) hfree
      refine ⟨_, k, by rw [hstep, if_neg hk], hs, hassign, Or.inl ?_, hfree⟩
      have := (h.with_gaps hg).1
      omega
  · have hg' : s.gaps = false := by simpa using hg
    obtain ⟨id, hs⟩ := nextId_spec h hl rfl (Or.inl rfl) (h.no_gap hg')
    have heq : ({ s with segments := s.segments, gaps := false } : State α) = s := by
      rw [← hg']
    rw [heq] at hs
    exact ⟨_, id, by rw [assignTlsModid, if_neg hg], hs⟩

end Assign

/-- Ids each of which is at most `n` or at most one above an id before it. -/
def Chained (n : ℕ) : List ℕ → Prop
  | [] => True
  | m :: ms => m ≤ n ∧ Chained (max n (m + 1)) ms

theorem Chained.mono {n' : ℕ} {ms : List ℕ} (h : Chained n ms) (hn : n ≤ n') : Chained n' ms := by
  induction ms generalizing n n' with
  | nil => trivial
  | cons m ms ih => exact ⟨h.1.trans hn, ih h.2 (by omega)⟩

theorem Chained.append {m : ℕ} {ms : List ℕ} (h : Chained n ms)
    (hm : m ≤ n ∨ ∃ m' ∈ ms, m = m' + 1) : Chained n (ms ++ [m]) := by
  induction ms generalizing n with
  | nil => exact ⟨by simpa using hm, trivial⟩
  | cons a ms ih =>
    refine ⟨h.1, ih h.2 ?_⟩
    rcases hm with hm | ⟨m', hm', rfl⟩
    · exact Or.inl (by omega)
    · rcases List.mem_cons.mp hm' with rfl | hm'
      · exact Or.inl (by omega)
      · exact Or.inr ⟨m', hm', rfl⟩

/-- What handing out the ids of `loads` leaves as it was. -/
structure AllAssigned (s s' : State α) (loads : List α) : Prop where
  startup : s'.startup = s.startup
  loaded : s'.loaded = s.loaded
  staticNelem : s'.staticNelem = s.staticNelem
  generation : s'.generation = s.generation
  size : s'.size = s.size
  modid : ∀ l ∉ loads, s'.modid l = s.modid l
  slots : ∀ i, (∀ l ∈ loads, s'.modid l ≠ i) → s'.slots[i]? = s.slots[i]?
  gens : s'.slots.map Slot.gen = s.slots.map Slot.gen
  free : ∀ l ∈ loads, holder s.slots (s'.modid l) = none

section AssignAll
variable [DecidableEq α] {s s' : State α}

theorem Assigned.gens {l : α} {id : ℕ} (h : Assigned s s' l id) :
    s'.slots.map Slot.gen = s.slots.map Slot.gen := by
  rcases h.slots with heq | heq <;> rw [heq]
  apply List.ext_getElem?
  intro i
  by_cases hi : id = i <;> cases hslot : s.slots[i]? <;> simp [hi, hslot, Slot.mark]

theorem Assigned.slots_ne {l : α} {id i : ℕ} (h : Assigned s s' l id) (hi : i ≠ id) :
    s'.slots[i]? = s.slots[i]? := by
  rcases h.slots with heq | heq <;> rw [heq]
  simp [Ne.symm hi]

theorem assignAll_spec {pending : List α} (h : Assigning s pending) (loads : List α)
    (hnodup : loads.Nodup) (hnew : ∀ l ∈ loads, l ∉ s.startup ++ (s.loaded ++ pending))
    (hchain : Chained s.size (pending.map s.modid)) :
    ∃ s', loads.foldlM assignTlsModid s = .ok s' ∧ Assigning s' (pending ++ loads) ∧
      Chained s.size ((pending ++ loads).map s'.modid) ∧ AllAssigned s s' loads := by
  induction loads generalizing s pending with
  | nil =>
    refine ⟨s, rfl, by simpa using h, by simpa using hchain, ?_⟩
    exact ⟨rfl, rfl, rfl, rfl, rfl, fun _ _ => rfl, fun _ _ => rfl, rfl, by simp⟩
  | cons l loads ih =>
    have hl := hnew l List.mem_cons_self
    obtain ⟨s₁, id, hrun, hs, h₁, hid, hfree⟩ := assignTlsModid_spec h hl
    have hmodid : ∀ p ∈ pending, s₁.modid p = s.modid p := by
      intro p hp
      apply hs.modid_ne
      rintro rfl
      exact hl (by simp [hp])
    have hchain₁ : Chained s₁.size ((pending ++ [l]).map s₁.modid) := by
      rw [hs.size_eq, List.map_append, List.map_congr_left hmodid, List.map_singleton,
        hs.modid_self]
      apply hchain.append
      rcases hid with hle | ⟨p, hp, heq⟩
      · exact Or.inl hle
      · exact Or.inr ⟨s.modid p, List.mem_map_of_mem hp, heq⟩
    have hnew₁ : ∀ p ∈ loads, p ∉ s₁.startup ++ (s₁.loaded ++ (pending ++ [l])) := by
      intro p hp
      have hold := hnew p (List.mem_cons_of_mem l hp)
      have hne : p ≠ l := by
        rintro rfl
        exact (List.nodup_cons.mp hnodup).1 hp
      rw [hs.startup, hs.loaded]
      simp only [List.mem_append, List.mem_singleton] at hold ⊢
      tauto
    obtain ⟨s₂, hrun₂, h₂, hchain₂, hall⟩ := ih h₁ (List.nodup_cons.mp hnodup).2 hnew₁ hchain₁
    have happ : pending ++ [l] ++ loads = pending ++ l :: loads := by simp
    have hself : s₂.modid l = id := by
      rw [hall.modid l (List.nodup_cons.mp hnodup).1, hs.modid_self]
    refine ⟨s₂, ?_, happ ▸ h₂, ?_, ?_⟩
    · rw [List.foldlM_cons, hrun]
      exact hrun₂
    · rw [← happ, ← hs.size_eq]
      exact hchain₂
    · refine ⟨hall.startup.trans hs.startup, hall.loaded.trans hs.loaded,
        hall.staticNelem.trans hs.staticNelem, hall.generation.trans hs.generation,
        hall.size.trans hs.size_eq, ?_, ?_, hall.gens.trans hs.gens, ?_⟩
      · intro p hp
        rw [List.mem_cons, not_or] at hp
        rw [hall.modid p hp.2, hs.modid_ne hp.1]
      · intro i hi
        have hne : i ≠ id := by
          have := hi l List.mem_cons_self
          rw [hself] at this
          exact Ne.symm this
        rw [hall.slots i fun p hp => hi p (List.mem_cons_of_mem l hp), hs.slots_ne hne]
      · intro p hp
        rcases List.mem_cons.mp hp with rfl | hp
        · rw [hself]
          exact hfree
        · have hlater := hall.free p hp
          by_cases heq : s₂.modid p = id
          · rw [heq]
            exact hfree
          · rwa [hs.holder_ne heq] at hlater

end AssignAll

/-! ## Counting ids -/

theorem Assigning.maxDtvIdx_eq (h : Assigning s pending) (hg : s.gaps = false) :
    s.maxDtvIdx = s.staticNelem + (s.loaded.length + pending.length) := by
  have hperm : ((s.loaded ++ pending).map s.modid).Perm
      (List.range' (s.staticNelem + 1) (s.maxDtvIdx - s.staticNelem)) := by
    rw [List.perm_ext_iff_of_nodup h.modid_nodup (List.nodup_range')]
    intro i
    rw [List.mem_range'_1, List.mem_map]
    constructor
    · rintro ⟨l, hl, rfl⟩
      have hlo := h.modid_above l hl
      have hhi : s.modid l ≤ s.maxDtvIdx := by
        rcases List.mem_append.mp hl with hl | hl
        · apply h.holder_le _ (by omega)
          rw [h.held l (List.mem_append_right _ hl)]
          simp
        · exact h.modid_le l hl
      omega
    · rintro ⟨hlo, hhi⟩
      rcases h.no_gap hg i (by omega) (by omega) with hheld | ⟨p, hp, hid⟩
      · obtain ⟨l, hl⟩ := Option.ne_none_iff_exists'.mp hheld
        obtain ⟨hmem, hid⟩ := h.holder_modid i l (by omega) hl
        refine ⟨l, ?_, hid⟩
        rcases List.mem_append.mp hmem with hstart | hmem
        · have := (h.modid_startup l hstart).2
          omega
        · exact hmem
      · exact ⟨p, List.mem_append_right _ hp, hid⟩
  have hlen := hperm.length_eq
  rw [List.length_map, List.length_append, List.length_range'] at hlen
  have := h.static_le
  omega

theorem Numbered.count_lt {some : List α} (h : Numbered s pending) (hsub : some.Sublist pending)
    (hloaded : ∀ l ∈ s.loaded, s.modid l < n) (hsome : ∀ p ∈ some, s.modid p < n)
    (hn : s.staticNelem < n) : s.staticNelem + (s.loaded.length + some.length) < n := by
  have hnodup : ((s.loaded ++ some).map s.modid).Nodup :=
    (((List.Sublist.refl _).append hsub).map _).nodup h.modid_nodup
  have hsubset : (s.loaded ++ some).map s.modid ⊆
      List.range' (s.staticNelem + 1) (n - (s.staticNelem + 1)) := by
    intro i hi
    obtain ⟨l, hl, rfl⟩ := List.mem_map.mp hi
    have hlo := h.modid_above l (((List.Sublist.refl _).append hsub).subset hl)
    have hhi : s.modid l < n := by
      rcases List.mem_append.mp hl with hl | hl
      · exact hloaded l hl
      · exact hsome l hl
    rw [List.mem_range'_1]
    omega
  have hlen := (hnodup.subperm hsubset).length_le
  rw [List.length_map, List.length_append, List.length_range'] at hlen
  omega

theorem Assigning.modid_le_of_count (h : Assigning s pending)
    (hn : s.staticNelem + (s.loaded.length + pending.length) ≤ n) {p : α} (hp : p ∈ pending) :
    s.modid p < s.size ∨ s.modid p ≤ n := by
  cases hg : s.gaps with
  | true =>
    apply Or.inl
    have := (h.with_gaps hg).1
    have := h.modid_le p hp
    omega
  | false =>
    apply Or.inr
    have := h.maxDtvIdx_eq hg
    have := h.modid_le p hp
    omega

end AwaitGlibc.TlsModuleIds

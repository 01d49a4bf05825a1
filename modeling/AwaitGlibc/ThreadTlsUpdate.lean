import AwaitGlibc.ThreadTls

/-!
# What the loops over the slot list do to a vector

One rule for the common loop, and from it what `_dl_allocate_tls_init` leaves in a new
vector and what `_dl_update_slotinfo` leaves in one that was out of date. An update
resets exactly the entries whose slots are newer than the vector and not newer than the
requested module; the blocks of these entries are freed, and no others.
-/
namespace AwaitGlibc.ThreadTls
open TlsSlots TlsModuleIds

variable {α τ : Type}

theorem slotAt_eq (segs : List (Segment α)) (i : ℕ) :
    slotAt segs i = (segs.flatten[i]?).elim (.error .noSlot) .ok := by
  induction segs generalizing i with
  | nil => rfl
  | cons seg next ih =>
    rw [slotAt, List.flatten_cons]
    by_cases hi : i < seg.length
    · rw [List.getElem?_append_left hi, List.getElem?_eq_getElem hi]
      rfl
    · rw [List.getElem?_append_right (by omega), List.getElem?_eq_none (by omega)]
      exact ih _

variable {s : State α} {slot : Slot α} {heap : Heap α τ} {t : τ} {d : Dtv τ}

theorem slotAt_of_some {i : ℕ} (h : s.slots[i]? = some slot) : slotAt s.segments i = .ok slot := by
  rw [slotAt_eq, show s.segments.flatten[i]? = some slot from h]
  rfl

/-! ## The rule for the loop -/

section Walk
variable {σ : Type} (maxModid : ℕ) (visit : ℕ → Slot α → σ → Except Fault σ)
  {P : ℕ → σ → Prop}

theorem walkSegment_rule (slots : List (Slot α)) (modid : ℕ) (x : σ) (hle : modid ≤ maxModid + 1)
    (hx : P modid x)
    (hvisit : ∀ j slot y, slots[j]? = some slot → modid + j ≤ maxModid → P (modid + j) y →
      ∃ y', visit (modid + j) slot y = .ok y' ∧ P (modid + j + 1) y') :
    ∃ y, walkSegment maxModid visit slots modid x = .ok y ∧
      P (min (modid + slots.length) (maxModid + 1)) y := by
  induction slots generalizing modid x with
  | nil =>
    refine ⟨x, rfl, ?_⟩
    rwa [List.length_nil, Nat.add_zero, Nat.min_eq_left hle]
  | cons slot slots ih =>
    rw [walkSegment]
    by_cases hend : maxModid < modid
    · have hmod : modid = maxModid + 1 := by omega
      rw [if_pos hend]
      refine ⟨x, rfl, ?_⟩
      rwa [List.length_cons, Nat.min_eq_right (by omega), ← hmod]
    · rw [if_neg hend]
      obtain ⟨y, hrun, hy⟩ := hvisit 0 slot x rfl (by omega) hx
      obtain ⟨z, hrest, hz⟩ := ih (modid + 1) y (by omega) hy (by
        intro j slot' y' hslot hj hy'
        have hat : modid + 1 + j = modid + (j + 1) := by omega
        rw [hat] at hj hy' ⊢
        exact hvisit (j + 1) slot' y' hslot hj hy')
      refine ⟨z, ?_, ?_⟩
      · rw [show visit modid slot x = .ok y from hrun]
        exact hrest
      · rwa [List.length_cons, Nat.add_comm slots.length, ← Nat.add_assoc]

theorem walk_rule_from (atEnd : σ → Except Fault σ) (segs : List (Segment α)) (total : ℕ) (x : σ)
    (hfirst : total = 0 → ∀ seg next, segs = seg :: next → 0 < seg.length)
    (hle : total ≤ maxModid) (hmax : maxModid < total + segs.flatten.length)
    (hx : P (max total 1) x)
    (hvisit : ∀ j slot y, segs.flatten[j]? = some slot → 0 < total + j → total + j ≤ maxModid →
      P (total + j) y → ∃ y', visit (total + j) slot y = .ok y' ∧ P (total + j + 1) y') :
    ∃ y, walk maxModid visit atEnd segs total x = .ok y ∧ P (maxModid + 1) y := by
  induction segs generalizing total x with
  | nil =>
    rw [List.flatten_nil, List.length_nil] at hmax
    omega
  | cons seg next ih =>
    rw [List.flatten_cons, List.length_append] at hmax
    simp only [List.flatten_cons] at hvisit
    obtain ⟨first, hstart⟩ : ∃ first, first = if total = 0 then 1 else 0 := ⟨_, rfl⟩
    have hsum : max total 1 = total + first := by rw [hstart]; split_ifs <;> omega
    have hseg : first ≤ seg.length := by
      rw [hstart]
      split_ifs with hzero
      · exact hfirst hzero seg next rfl
      · exact Nat.zero_le _
    rw [hsum] at hx
    obtain ⟨y, hrun, hy⟩ := walkSegment_rule maxModid visit (seg.drop first) (total + first) x
      (by omega) hx (by
        intro j slot y hslot hj hy
        rw [List.getElem?_drop] at hslot
        have hlt : first + j < seg.length := (List.getElem?_eq_some_iff.mp hslot).1
        rw [Nat.add_assoc] at hj hy ⊢
        exact hvisit (first + j) slot y (by rwa [List.getElem?_append_left hlt]) (by omega) hj hy)
    rw [List.length_drop, Nat.add_assoc, Nat.add_sub_cancel' hseg] at hy
    rw [walk, ← hstart, hrun, ok_bind]
    by_cases hend : maxModid < total + seg.length
    · rw [if_pos hend]
      rw [Nat.min_eq_right (by omega)] at hy
      exact ⟨y, rfl, hy⟩
    · rw [Nat.min_eq_left (by omega)] at hy
      rw [if_neg hend]
      apply ih (total + seg.length) y (by omega) (by omega) (by omega)
      · rwa [Nat.max_eq_left (by omega)]
      · intro j slot y' hslot hpos hj hy'
        rw [Nat.add_assoc] at hj hy' ⊢
        refine hvisit (seg.length + j) slot y' ?_ (by omega) hj hy'
        rwa [List.getElem?_append_right (by omega), Nat.add_sub_cancel_left]

/-- Every slot of the ids from 1 to `maxModid` is visited, in order. -/
theorem walk_rule (atEnd : σ → Except Fault σ) {segs : List (Segment α)} {x : σ}
    (hmax : maxModid < segs.flatten.length)
    (hfirst : ∀ seg next, segs = seg :: next → 0 < seg.length) (hx : P 1 x)
    (hvisit : ∀ i slot y, 0 < i → i ≤ maxModid → segs.flatten[i]? = some slot → P i y →
      ∃ y', visit i slot y = .ok y' ∧ P (i + 1) y') :
    ∃ y, walk maxModid visit atEnd segs 0 x = .ok y ∧ P (maxModid + 1) y := by
  apply walk_rule_from maxModid visit atEnd segs 0 x (fun _ => hfirst) (Nat.zero_le _)
    (by rwa [Nat.zero_add]) hx
  intro j slot y hslot hpos hj
  rw [Nat.zero_add] at hpos hj ⊢
  exact hvisit j slot y hpos hj hslot

end Walk

/-! ## Who refers to a block -/

/-- The block `b` was allocated for the entry `i` of the thread `t` and not freed. -/
def Owned (heap : Heap α τ) (t : τ) (i b : ℕ) : Prop :=
  ∃ block, heap.blocks[b]? = some block ∧ block.thread = t ∧ block.modid = i ∧ b ∉ heap.freed

def Holds (heap : Heap α τ) (t : τ) (d : Dtv τ) : Prop :=
  ∀ i, 0 < i → i ≤ d.len → ∀ b, (d.entries i).toFree = some b → Owned heap t i b

/-- Between the two heaps blocks of the thread `t` have been freed, and no others. -/
structure FreedBy (heap heap' : Heap α τ) (t : τ) : Prop where
  blocks : heap'.blocks = heap.blocks
  freed : ∀ b ∈ heap'.freed, b ∈ heap.freed ∨
    ∃ block, heap.blocks[b]? = some block ∧ block.thread = t

theorem FreedBy.refl (heap : Heap α τ) (t : τ) : FreedBy heap heap t :=
  ⟨rfl, fun _ hb => Or.inl hb⟩

theorem FreedBy.trans {heap' heap'' : Heap α τ} (h : FreedBy heap heap' t)
    (h' : FreedBy heap' heap'' t) : FreedBy heap heap'' t := by
  refine ⟨h'.blocks.trans h.blocks, fun b hb => ?_⟩
  rcases h'.freed b hb with hb | hb
  · exact h.freed b hb
  · rw [h.blocks] at hb
    exact Or.inr hb

theorem FreedBy.owned {heap' : Heap α τ} {t' : τ} {i b : ℕ} (h : FreedBy heap heap' t) (ht : t' ≠ t)
    (hb : Owned heap t' i b) : Owned heap' t' i b := by
  obtain ⟨block, hblock, hthread, hmodid, hfreed⟩ := hb
  refine ⟨block, by rw [h.blocks, hblock], hthread, hmodid, fun hmem => ?_⟩
  rcases h.freed b hmem with hold | ⟨block', hblock', hthread'⟩
  · exact hfreed hold
  · rw [hblock] at hblock'
    cases hblock'
    exact ht (hthread.symm.trans hthread')

/-- What an entry refers to can be freed, and the other entries do not refer to it. -/
theorem free_spec {i : ℕ} {o : Option ℕ} (h : ∀ b, o = some b → Owned heap t i b) :
    ∃ heap', heap.free o = .ok heap' ∧ FreedBy heap heap' t ∧
      ∀ j b, j ≠ i → Owned heap t j b → Owned heap' t j b := by
  cases o with
  | none => exact ⟨heap, rfl, FreedBy.refl heap t, fun _ _ _ hb => hb⟩
  | some b =>
    obtain ⟨block, hblock, hthread, hmodid, hfreed⟩ := h b rfl
    have hlt : b < heap.blocks.length := (List.getElem?_eq_some_iff.mp hblock).1
    refine ⟨{ heap with freed := b :: heap.freed }, if_pos ⟨hlt, hfreed⟩, ⟨rfl, ?_⟩, ?_⟩
    · intro b' hb'
      rcases List.mem_cons.mp hb' with rfl | hb'
      · exact Or.inr ⟨block, hblock, hthread⟩
      · exact Or.inl hb'
    · rintro j b' hj ⟨block', hblock', hthread', hmodid', hfreed'⟩
      refine ⟨block', hblock', hthread', hmodid', fun hmem => ?_⟩
      rcases List.mem_cons.mp hmem with rfl | hmem
      · rw [hblock] at hblock'
        cases hblock'
        exact hj (hmodid'.symm.trans hmodid)
      · exact hfreed' hmem

/-- When a vector is given up, everything it refers to is freed once. -/
theorem freeEntries_spec (h : Holds heap t d) :
    ∃ heap', freeEntries d heap = .ok heap' ∧ FreedBy heap heap' t := by
  suffices hrange : ∀ n i (heap : Heap α τ), 0 < i → i + n ≤ d.len + 1 →
      (∀ j, i ≤ j → j ≤ d.len → ∀ b, (d.entries j).toFree = some b → Owned heap t j b) →
      ∃ heap', (List.range' i n).foldlM (fun heap i => do
        let e ← d.get i
        heap.free e.toFree) heap = .ok heap' ∧ FreedBy heap heap' t by
    exact hrange d.len 1 heap Nat.one_pos (by omega) fun j hj => h j (by omega)
  intro n
  induction n with
  | zero => exact fun i heap _ _ _ => ⟨heap, rfl, FreedBy.refl heap t⟩
  | succ n ih =>
    intro i heap hi hle hown
    obtain ⟨heap₁, hfree, hby, hkeep⟩ := free_spec (hown i le_rfl (by omega))
    obtain ⟨heap₂, hrest, hby'⟩ := ih (i + 1) heap₁ (by omega) (by omega) fun j hj hlen b hb =>
      hkeep j b (by omega) (hown j (by omega) hlen b hb)
    refine ⟨heap₂, ?_, hby.trans hby'⟩
    rw [List.range'_succ, List.foldlM_cons, Dtv.get, if_pos (by omega), ok_bind, hfree]
    exact hrest

/-! ## Bringing a vector up to date -/

theorem Holds.resize (h : Holds heap t d) {n : ℕ} : Holds heap t (d.resize n) := by
  intro i hi _ b hb
  change (if i ≤ d.len then d.entries i else Entry.zero).toFree = some b at hb
  split at hb
  · exact h i hi ‹_› b hb
  · cases hb

theorem resetEntry_spec {x : Refresh α τ} (h : Holds x.heap t x.dtv) (reqModid : ℕ) {modid : ℕ}
    (hpos : 0 < modid) (hle : modid ≤ x.dtv.len) (slot : Slot α) :
    ∃ heap', resetEntry reqModid modid slot x =
        .ok ⟨{ x.dtv with entries := Function.update x.dtv.entries modid ⟨.unallocated, none⟩ },
          heap', if modid = reqModid then slot.map else x.theMap⟩ ∧
      FreedBy x.heap heap' t ∧
      Holds heap' t
        { x.dtv with entries := Function.update x.dtv.entries modid ⟨.unallocated, none⟩ } := by
  obtain ⟨heap', hfree, hby, hkeep⟩ := free_spec (h modid hpos hle)
  refine ⟨heap', ?_, hby, ?_⟩
  · rw [resetEntry, Dtv.get, if_pos hle, ok_bind, hfree, ok_bind, Dtv.set, if_pos hle]
    rfl
  · intro i hi hlen b hb
    by_cases heq : i = modid
    · subst heq
      simp at hb
    · change (Function.update x.dtv.entries modid _ i).toFree = some b at hb
      rw [Function.update_of_ne heq] at hb
      exact hkeep i b heq (h i hi hlen b hb)

/-- A vector on its way from generation `d.counter` to `newGen`: the entries of the ids
below `k` are done. -/
structure Refreshing (s : State α) (t : τ) (d : Dtv τ) (heap : Heap α τ) (newGen reqModid : ℕ)
    (k : ℕ) (x : Refresh α τ) : Prop where
  counter : x.dtv.counter = d.counter
  len : d.len ≤ x.dtv.len
  holds : Holds x.heap t x.dtv
  freedBy : FreedBy heap x.heap t
  kept : ∀ i slot, s.slots[i]? = some slot → slot.gen ≤ d.counter → i ≤ d.len →
    x.dtv.entries i = d.entries i
  reset : ∀ i slot, 0 < i → i < k → s.slots[i]? = some slot → d.counter < slot.gen →
    slot.gen ≤ newGen → slot.map ≠ none →
    i ≤ x.dtv.len ∧ x.dtv.entries i = ⟨.unallocated, none⟩
  theMap : reqModid < k → ∀ slot, s.slots[reqModid]? = some slot → x.theMap = slot.map

namespace Refreshing
variable {s : State α} {t : τ} {d : Dtv τ} {heap : Heap α τ} {newGen reqModid k : ℕ}
  {x : Refresh α τ} {slot : Slot α}

section
variable (h : Refreshing s t d heap newGen reqModid k x)
include h

theorem skip (hslot : s.slots[k]? = some slot)
    (hno : d.counter < slot.gen → slot.gen ≤ newGen → slot.map = none) (hreq : reqModid ≠ k) :
    Refreshing s t d heap newGen reqModid (k + 1) x := by
  refine { h with reset := ?_, theMap := ?_ }
  · intro i slot' hi hik hslot' hlo hhi hmap
    by_cases heq : i = k
    · rw [heq, hslot] at hslot'
      cases hslot'
      exact absurd (hno hlo hhi) hmap
    · exact h.reset i slot' hi (by omega) hslot' hlo hhi hmap
  · intro hlt
    exact h.theMap (by omega)

theorem resetAt (hslot : s.slots[k]? = some slot)
    (hpos : 0 < k) (hlo : d.counter < slot.gen) (hle : k ≤ x.dtv.len) :
    ∃ y, resetEntry reqModid k slot x = .ok y ∧
      Refreshing s t d heap newGen reqModid (k + 1) y := by
  obtain ⟨heap', hrun, hby, hholds⟩ := resetEntry_spec h.holds reqModid hpos hle slot
  refine ⟨_, hrun, h.counter, h.len, hholds, h.freedBy.trans hby, ?_, ?_, ?_⟩
  · intro i slot' hslot' hgen hlen
    have hne : i ≠ k := by
      rintro rfl
      rw [hslot] at hslot'
      cases hslot'
      omega
    simp only [Function.update_of_ne hne]
    exact h.kept i slot' hslot' hgen hlen
  · intro i slot' hi hik hslot' hlo' hhi hmap
    by_cases heq : i = k
    · subst heq
      exact ⟨hle, by simp⟩
    · simp only [Function.update_of_ne heq]
      exact h.reset i slot' hi (by omega) hslot' hlo' hhi hmap
  · intro hlt slot' hslot'
    by_cases heq : k = reqModid
    · subst heq
      rw [hslot] at hslot'
      cases hslot'
      simp
    · simp only [if_neg heq]
      exact h.theMap (by omega) slot' hslot'

theorem resize {n : ℕ} (hn : x.dtv.len ≤ n) :
    Refreshing s t d heap newGen reqModid k { x with dtv := x.dtv.resize n } := by
  refine ⟨h.counter, ?_, h.holds.resize, h.freedBy, ?_, ?_, h.theMap⟩
  · have := h.len
    change d.len ≤ n + dtvSurplus
    omega
  · intro i slot' hslot' hgen hlen
    have := h.len
    change (if i ≤ x.dtv.len then x.dtv.entries i else Entry.zero) = _
    rw [if_pos (by omega)]
    exact h.kept i slot' hslot' hgen hlen
  · intro i slot' hi hik hslot' hlo hhi hmap
    obtain ⟨hle, hentry⟩ := h.reset i slot' hi hik hslot' hlo hhi hmap
    refine ⟨?_, ?_⟩
    · change i ≤ n + dtvSurplus
      omega
    · change (if i ≤ x.dtv.len then x.dtv.entries i else Entry.zero) = _
      rw [if_pos hle, hentry]

theorem step {maxModid : ℕ} (hpos : 0 < k) (hk : k ≤ maxModid) (hslot : s.slots[k]? = some slot)
    (hreq : k = reqModid → slot.map ≠ none ∧ d.counter < slot.gen ∧ slot.gen ≤ newGen) :
    ∃ y, refreshEntry maxModid newGen reqModid k slot x = .ok y ∧
      Refreshing s t d heap newGen reqModid (k + 1) y := by
  rw [refreshEntry, h.counter]
  by_cases hnew : newGen < slot.gen
  · rw [if_pos hnew]
    refine ⟨x, rfl, h.skip hslot (by omega) ?_⟩
    rintro rfl
    omega
  · rw [if_neg hnew]
    by_cases hold : slot.gen ≤ d.counter
    · rw [if_pos hold]
      refine ⟨x, rfl, h.skip hslot (by omega) ?_⟩
      rintro rfl
      omega
    · rw [if_neg hold]
      by_cases hshort : x.dtv.len < k
      · rw [if_pos hshort]
        cases hmap : slot.map with
        | none =>
          refine ⟨x, rfl, h.skip hslot (fun _ _ => hmap) ?_⟩
          rintro rfl
          exact (hreq rfl).1 hmap
        | some l =>
          have hlen : k ≤ (x.dtv.resize maxModid).len := by
            change k ≤ maxModid + dtvSurplus
            omega
          rw [if_neg (by simp), if_pos hlen]
          exact (h.resize (n := maxModid) (by omega)).resetAt hslot hpos (by omega) hlen
      · rw [if_neg hshort]
        exact h.resetAt hslot hpos (by omega) (by omega)

end

end Refreshing

theorem updateSlotinfo_newer (hs : Numbered s []) (hholds : Holds heap t d) {m : ℕ} (hm : 0 < m)
    (hslot : s.slots[m]? = some slot) (hlive : slot.map ≠ none) (hnew : d.counter < slot.gen) :
    ∃ x, Refreshing s t d heap slot.gen m (s.maxDtvIdx + 1) x ∧
      updateSlotinfo s d heap m = .ok { x with dtv := { x.dtv with counter := slot.gen } } := by
  have hle : m ≤ s.maxDtvIdx := hs.holder_le m hm (by simpa [holder, hslot] using hlive)
  have hmax : s.maxDtvIdx < s.segments.flatten.length := by
    rcases hs.max_inside with hlt | ⟨p, hp, -⟩
    · exact hlt
    · cases hp
  have hstart : Refreshing s t d heap slot.gen m 1 ⟨d, heap, none⟩ :=
    ⟨rfl, le_rfl, hholds, FreedBy.refl heap t, fun _ _ _ _ _ => rfl, by omega, by omega⟩
  obtain ⟨x, hwalk, hx⟩ := walk_rule s.maxDtvIdx (refreshEntry s.maxDtvIdx slot.gen m) .ok hmax
    (fun seg next heq => Nat.zero_lt_of_lt (hs.room seg next heq)) hstart (by
      intro i slot' y hi hile hslot' hy
      refine hy.step hi hile hslot' ?_
      rintro rfl
      rw [show s.segments.flatten[i]? = some slot from hslot] at hslot'
      cases hslot'
      exact ⟨hlive, hnew, le_rfl⟩)
  refine ⟨x, hx, ?_⟩
  rw [updateSlotinfo, slotAt_of_some hslot, ok_bind, if_pos hnew, if_neg (by omega), hwalk]
  rfl

theorem updateSlotinfo_older {m : ℕ} (hslot : s.slots[m]? = some slot)
    (hold : slot.gen ≤ d.counter) : updateSlotinfo s d heap m = .ok ⟨d, heap, none⟩ := by
  rw [updateSlotinfo, slotAt_of_some hslot, ok_bind, if_neg (by omega)]

/-! ## A new vector -/

/-- The entry of a module in a new vector, and its static block if it has one. -/
def Placed (w : World α τ) (t : τ) (l : α) (gen : ℕ) (e : Entry τ)
    (image : ℕ → Option (α × ℕ)) : Prop :=
  (e = ⟨.unallocated, none⟩ ∧ ∀ offset, w.offset l ≠ .static offset) ∨
    ∃ offset, w.offset l = .static offset ∧ e = ⟨.addr (.static t offset), none⟩ ∧
      image offset = some (l, gen)

/-- A new vector when the ids below `k` are done. -/
structure Initialising (w : World α τ) (t : τ) (len : ℕ) (k : ℕ) (x : Init α τ) : Prop where
  len_eq : x.dtv.len = len
  toFree : ∀ i, (x.dtv.entries i).toFree = none
  maxgen_le : x.maxgen ≤ w.tls.generation
  placed : ∀ i l gen, 0 < i → i < k → w.tls.slots[i]? = some ⟨gen, some l⟩ →
    gen ≤ x.maxgen ∧ Placed w t l gen (x.dtv.entries i) x.image

def Apart (w : World α τ) : Prop :=
  ∀ l ∈ w.tls.startup ++ w.tls.loaded, ∀ l' ∈ w.tls.startup ++ w.tls.loaded, ∀ offset,
    w.offset l = .static offset → w.offset l' = .static offset → l = l'

section Initialising
variable {w : World α τ} {t : τ} {len k : ℕ} {x : Init α τ} {l : α} {gen : ℕ}

/-- One more entry. The image may change at the offset of this object. -/
theorem Initialising.extend (h : Initialising w t len k x) (hs : Numbered w.tls [])
    (hapart : Apart w) (hpos : 0 < k) (hslot : w.tls.slots[k]? = some ⟨gen, some l⟩)
    (hgen : gen ≤ w.tls.generation) {e : Entry τ} (he : e.toFree = none)
    {image : ℕ → Option (α × ℕ)} (hplaced : Placed w t l gen e image)
    (himage : ∀ o, w.offset l ≠ .static o → image o = x.image o) :
    Initialising w t len (k + 1)
      ⟨{ x.dtv with entries := Function.update x.dtv.entries k e }, image, max x.maxgen gen⟩ := by
  obtain ⟨hlive, hmodid⟩ := hs.holder_modid k l hpos (by simp [holder, hslot])
  refine ⟨h.len_eq, ?_, max_le h.maxgen_le hgen, ?_⟩
  · intro i
    by_cases heq : i = k
    · subst heq
      simpa using he
    · simp only [Function.update_of_ne heq]
      exact h.toFree i
  · intro i l' gen' hi hik hslot'
    by_cases heq : i = k
    · subst heq
      rw [hslot] at hslot'
      cases hslot'
      exact ⟨le_max_right .., by simpa using hplaced⟩
    · obtain ⟨hle, hold⟩ := h.placed i l' gen' hi (by omega) hslot'
      refine ⟨hle.trans (le_max_left ..), ?_⟩
      simp only [Function.update_of_ne heq]
      rcases hold with hdyn | ⟨o, ho, hentry, him⟩
      · exact Or.inl hdyn
      · refine Or.inr ⟨o, ho, hentry, ?_⟩
        rw [himage o, him]
        intro hoff
        obtain ⟨hlive', hmodid'⟩ := hs.holder_modid i l' hi (by simp [holder, hslot'])
        have hll := hapart l' (by simpa using hlive') l (by simpa using hlive) o ho hoff
        rw [hll, hmodid] at hmodid'
        exact heq hmodid'.symm

theorem Initialising.step (h : Initialising w t len k x) (hs : Numbered w.tls [])
    (hapart : Apart w) (hpos : 0 < k) (hk : k ≤ len) {slot : Slot α}
    (hslot : w.tls.slots[k]? = some slot) (hgen : slot.gen ≤ w.tls.generation) :
    ∃ y, initEntry w t k slot x = .ok y ∧ Initialising w t len (k + 1) y := by
  obtain ⟨gen, map⟩ := slot
  cases map with
  | none =>
    refine ⟨x, rfl, h.len_eq, h.toFree, h.maxgen_le, ?_⟩
    intro i l gen hi hik hslot'
    have hne : i ≠ k := by
      rintro rfl
      rw [hslot] at hslot'
      cases hslot'
    exact h.placed i l gen hi (by omega) hslot'
  | some l =>
    have hmodid : w.tls.modid l = k := (hs.holder_modid k l hpos (by simp [holder, hslot])).2
    have hnot : ¬ w.tls.generation < gen := Nat.not_lt.mpr hgen
    have hlen : k ≤ x.dtv.len := by
      rw [h.len_eq]
      exact hk
    have hdynamic (hno : ∀ offset, w.offset l ≠ .static offset) : Initialising w t len (k + 1)
        ⟨{ x.dtv with entries := Function.update x.dtv.entries k ⟨.unallocated, none⟩ },
          x.image, max x.maxgen gen⟩ :=
      h.extend hs hapart hpos hslot hgen rfl (Or.inl ⟨rfl, hno⟩) fun _ _ => rfl
    cases hoff : w.offset l with
    | static offset =>
      refine ⟨⟨{ x.dtv with
          entries := Function.update x.dtv.entries k ⟨.addr (.static t offset), none⟩ },
        Function.update x.image offset (some (l, gen)), max x.maxgen gen⟩, ?_, ?_⟩
      · simp [initEntry, Dtv.set, hnot, hmodid, hlen, hoff, bind, Except.bind]
      · refine h.extend hs hapart hpos hslot hgen rfl (Or.inr ⟨offset, hoff, rfl, by simp⟩) ?_
        intro o ho
        have hne : o ≠ offset := by
          rintro rfl
          exact ho hoff
        rw [Function.update_of_ne hne]
    | none | forcedDynamic =>
      refine ⟨_, ?_, hdynamic (by simp [hoff])⟩
      simp [initEntry, Dtv.set, hnot, hmodid, hlen, hoff, bind, Except.bind]

end Initialising

theorem allocateTlsInit_spec [DecidableEq τ] {w : World α τ} (hs : Numbered w.tls [])
    (hgens : ∀ (i : ℕ) (slot : Slot α), w.tls.slots[i]? = some slot →
      slot.gen ≤ w.tls.generation) (hapart : Apart w) (t : τ)
    (hd : ∀ i, (d.entries i).toFree = none) :
    ∃ x len, allocateTlsInit w t d = .ok { w with
        active := Function.update w.active t (some { x.dtv with counter := x.maxgen })
        image := Function.update w.image t x.image } ∧
      w.tls.maxDtvIdx ≤ len ∧ Initialising w t len (w.tls.maxDtvIdx + 1) x := by
  have hmax : w.tls.maxDtvIdx < w.tls.segments.flatten.length := by
    rcases hs.max_inside with hlt | ⟨p, hp, -⟩
    · exact hlt
    · cases hp
  have hresize : ∃ d', d' = (if d.len < w.tls.maxDtvIdx then d.resize w.tls.maxDtvIdx else d) ∧
      w.tls.maxDtvIdx ≤ d'.len ∧ ∀ i, (d'.entries i).toFree = none := by
    refine ⟨_, rfl, ?_⟩
    split
    · refine ⟨Nat.le_add_right .., fun i => ?_⟩
      change (if i ≤ d.len then d.entries i else Entry.zero).toFree = none
      split
      · exact hd i
      · rfl
    · exact ⟨by omega, hd⟩
  obtain ⟨d', hd', hlen, hfree⟩ := hresize
  have hstart : Initialising w t d'.len 1 ⟨d', w.image t, 0⟩ :=
    ⟨rfl, hfree, Nat.zero_le _, by omega⟩
  obtain ⟨x, hwalk, hx⟩ := walk_rule w.tls.maxDtvIdx (initEntry w t) (fun _ => .error .assertion)
    hmax (fun seg next heq => Nat.zero_lt_of_lt (hs.room seg next heq)) hstart (by
      intro i slot y hi hile hslot hy
      exact hy.step hs hapart hi (by omega) hslot (hgens i slot hslot))
  refine ⟨x, d'.len, ?_, hlen, hx⟩
  rw [allocateTlsInit]
  simp only [← hd', hwalk]
  rfl

end AwaitGlibc.ThreadTls

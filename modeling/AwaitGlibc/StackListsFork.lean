import AwaitGlibc.StackLists

/-! A `fork` at any point of a list operation. Before the last store of an insertion the list
is either untouched or can be completed from its head, a removal can always be repeated, and
so both lists are well-formed again when `reclaim_stacks` walks them. -/
namespace AwaitGlibc.StackLists
open RingList

/-! ### The lists between two operations -/

/-- Both lists are well-formed and hold these stacks. -/
structure Lists (L : Links Cell) (us cs : List ℕ) : Prop where
  used : Ring L .used (us.map .thread)
  cache : Ring L .cache (cs.map .thread)
  nodup : (us ++ cs).Nodup

theorem thread_injective : Function.Injective Cell.thread := fun _ _ h => Cell.thread.inj h

variable {L : Links Cell} {us cs : List ℕ} {e : ℕ}

variable {xs : List ℕ} {head : Cell} {cells others : List Cell}

theorem mem_map_thread : Cell.thread e ∈ xs.map .thread ↔ e ∈ xs :=
  List.mem_map_of_injective thread_injective

theorem ne_of_mem_map {c : Cell} (h : c ∈ xs.map .thread) : c ≠ .used ∧ c ≠ .cache := by
  obtain ⟨i, -, rfl⟩ := List.mem_map.mp h
  exact ⟨nofun, nofun⟩

theorem Lists.disjoint (h : Lists L us cs) :
    ∀ c ∈ Cell.used :: us.map .thread, c ∉ Cell.cache :: cs.map .thread := by
  have hdisjoint := List.disjoint_of_nodup_append h.nodup
  intro c hc hc'
  cases List.mem_cons.mp hc with
  | inl hused =>
    subst hused
    cases List.mem_cons.mp hc' with
    | inl heq => cases heq
    | inr hmem => exact (ne_of_mem_map hmem).1 rfl
  | inr hmem =>
    obtain ⟨i, hi, rfl⟩ := List.mem_map.mp hmem
    cases List.mem_cons.mp hc' with
    | inl heq => cases heq
    | inr hmem' => exact hdisjoint hi (mem_map_thread.mp hmem')

/-! ### Insertion -/

/-- The links when `list_add` is done. -/
def added (L : Links Cell) (newp head : Cell) : Links Cell where
  next := Function.update (Function.update L.next newp (L.next head)) head newp
  prev := Function.update (Function.update L.prev newp head) (L.next head) newp

theorem ring_added {newp : Cell} (hr : Ring L head cells) (hnew : newp ∉ head :: cells) :
    Ring (added L newp head) head (newp :: cells) := by
  have hfirst := hr.next_mem
  have hne : newp ≠ head := fun heq => hnew (heq ▸ List.mem_cons_self)
  have hnefirst : newp ≠ L.next head := fun heq => hnew (heq ▸ hfirst)
  apply hr.insert hnew
  case hhead => exact Function.update_self _ _ _
  case hback => simp [added, hnefirst]
  case hfirst => simp [added, hne]
  case hsecond => exact Function.update_self _ _ _
  case hnext =>
    intro a ha
    have hahead : a ≠ head := fun heq => (List.nodup_cons.mp hr.nodup).1 (heq ▸ ha)
    have hanew : a ≠ newp := fun heq => hnew (heq ▸ List.mem_cons_of_mem _ ha)
    simp [added, hahead, hanew]
  case hprev =>
    intro a ha hafirst
    have hanew : a ≠ newp := fun heq => hnew (heq ▸ ha)
    simp [added, hafirst, hanew]

/-- The links before the last store of `list_add`. -/
def halfAdded (L : Links Cell) (newp head : Cell) : Links Cell where
  next := Function.update L.next newp (L.next head)
  prev := Function.update (Function.update L.prev newp head) (L.next head) newp

theorem ring_halfAdded_of_disjoint {newp other : Cell} (hr : Ring L head cells)
    (ho : Ring L other others) (hdisjoint : ∀ c ∈ head :: cells, c ∉ other :: others)
    (hnew : newp ∉ other :: others) : Ring (halfAdded L newp head) other others := by
  apply ho.congr
  intro a ha
  have hafirst : a ≠ L.next head := fun heq => hdisjoint _ hr.next_mem (heq ▸ ha)
  have hanew : a ≠ newp := fun heq => hnew (heq ▸ ha)
  simp [halfAdded, hafirst, hanew]

theorem ring_added_of_disjoint {newp other : Cell} (hr : Ring L head cells)
    (ho : Ring L other others) (hdisjoint : ∀ c ∈ head :: cells, c ∉ other :: others)
    (hnew : newp ∉ other :: others) : Ring (added L newp head) other others := by
  -- the last store is at the head of the ring that grows
  apply (ring_halfAdded_of_disjoint hr ho hdisjoint hnew).congr
  intro a ha
  have hahead : a ≠ head := fun heq => hdisjoint head List.mem_cons_self (heq ▸ ha)
  simp [added, halfAdded, hahead]

theorem notMem_ring (hhead : Cell.thread e ≠ head) (h : e ∉ xs) :
    Cell.thread e ∉ head :: xs.map .thread := by
  rw [List.mem_cons, not_or, mem_map_thread]
  exact ⟨hhead, h⟩

theorem Lists.of_eqOn_ne {L' : Links Cell} (h : Lists L us cs) (he : e ∉ us ++ cs)
    (heq : ∀ c, c ≠ .thread e → L'.next c = L.next c ∧ L'.prev c = L.prev c) : Lists L' us cs := by
  rw [List.mem_append, not_or] at he
  constructor
  case used =>
    have hnot : Cell.thread e ∉ Cell.used :: us.map .thread := notMem_ring nofun he.1
    exact h.used.congr fun c hc => heq c fun hce => hnot (hce ▸ hc)
  case cache =>
    have hnot : Cell.thread e ∉ Cell.cache :: cs.map .thread := notMem_ring nofun he.2
    exact h.cache.congr fun c hc => heq c fun hce => hnot (hce ▸ hc)
  case nodup => exact h.nodup

theorem Lists.disjoint_symm (h : Lists L us cs) :
    ∀ c ∈ Cell.cache :: cs.map .thread, c ∉ Cell.used :: us.map .thread :=
  fun c hc hc' => h.disjoint c hc' hc

theorem Lists.added_used (h : Lists L us cs) (he : e ∉ us ++ cs) :
    Lists (added L (.thread e) .used) (e :: us) cs := by
  have hparts := not_or.mp (he ∘ List.mem_append.mpr)
  constructor
  case used => exact ring_added h.used (notMem_ring nofun hparts.1)
  case cache => exact ring_added_of_disjoint h.used h.cache h.disjoint (notMem_ring nofun hparts.2)
  case nodup => exact List.nodup_cons.mpr ⟨he, h.nodup⟩

theorem Lists.added_cache (h : Lists L us cs) (he : e ∉ us ++ cs) :
    Lists (added L (.thread e) .cache) us (e :: cs) := by
  have hparts := not_or.mp (he ∘ List.mem_append.mpr)
  constructor
  case used =>
    exact ring_added_of_disjoint h.cache h.used h.disjoint_symm (notMem_ring nofun hparts.1)
  case cache => exact ring_added h.cache (notMem_ring nofun hparts.2)
  case nodup =>
    apply (List.perm_middle).nodup_iff.mpr
    exact List.nodup_cons.mpr ⟨he, h.nodup⟩

/-! ### Removal -/

/-- The links when `list_del` is done. -/
def removed (L : Links Cell) (elem : Cell) : Links Cell where
  next := Function.update L.next (L.prev elem) (L.next elem)
  prev := Function.update L.prev (L.next elem) (L.prev elem)

theorem ring_removed {elem : Cell} {xs ys : List Cell} (hr : Ring L head (xs ++ elem :: ys)) :
    Ring (removed L elem) head (xs ++ ys) := by
  apply hr.remove
  case hprev' => exact Function.update_self _ _ _
  case hnext' => exact Function.update_self _ _ _
  case hnext => exact fun a _ ha => Function.update_of_ne ha _ _
  case hprev => exact fun a _ ha => Function.update_of_ne ha _ _

theorem ring_removed_of_disjoint {elem other : Cell} (hr : Ring L head cells) (hmem : elem ∈ cells)
    (ho : Ring L other others) (hdisjoint : ∀ c ∈ head :: cells, c ∉ other :: others) :
    Ring (removed L elem) other others := by
  have hneighbours := hr.neighbours hmem
  apply ho.congr
  intro a ha
  have hanext : a ≠ L.next elem := fun heq => hdisjoint _ hneighbours.1.1 (heq ▸ ha)
  have haprev : a ≠ L.prev elem := fun heq => hdisjoint _ hneighbours.2.1 (heq ▸ ha)
  simp [removed, hanext, haprev]

theorem ring_erase (hr : Ring L head (xs.map .thread)) (he : e ∈ xs) :
    Ring (removed L (.thread e)) head ((xs.erase e).map .thread) := by
  obtain ⟨ys, zs, -, heq, herase⟩ := List.exists_erase_eq he
  rw [herase, List.map_append]
  apply ring_removed
  rw [← List.map_cons, ← List.map_append, ← heq]
  exact hr

/-- A removal that has been done, in part or in full, can be done again. -/
theorem removed_again {elem : Cell} (hnext : L.next elem ≠ elem) (hprev : L.prev elem ≠ elem) :
    removed ⟨L.next, (removed L elem).prev⟩ elem = removed L elem ∧
      removed (removed L elem) elem = removed L elem := by
  simp [removed, Function.update_of_ne hnext.symm, Function.update_of_ne hprev.symm]

theorem Lists.neighbours (h : Lists L us cs) (he : e ∈ us ++ cs) :
    L.next (.thread e) ≠ .thread e ∧ L.prev (.thread e) ≠ .thread e := by
  cases List.mem_append.mp he with
  | inl he =>
    have hneighbours := h.used.neighbours (mem_map_thread.mpr he)
    exact ⟨hneighbours.1.2, hneighbours.2.2⟩
  | inr he =>
    have hneighbours := h.cache.neighbours (mem_map_thread.mpr he)
    exact ⟨hneighbours.1.2, hneighbours.2.2⟩

theorem Lists.removed (h : Lists L us cs) (he : e ∈ us ++ cs) :
    Lists (StackLists.removed L (.thread e)) (us.erase e) (cs.erase e) := by
  have hnodup : (us.erase e ++ cs.erase e).Nodup :=
    h.nodup.sublist ((List.erase_sublist).append List.erase_sublist)
  cases List.mem_append.mp he with
  | inl hmem =>
    have hcs : cs.erase e = cs :=
      List.erase_of_not_mem fun he' => List.disjoint_of_nodup_append h.nodup hmem he'
    constructor
    case used => exact ring_erase h.used hmem
    case cache =>
      rw [hcs]
      exact ring_removed_of_disjoint h.used (mem_map_thread.mpr hmem) h.cache h.disjoint
    case nodup => exact hnodup
  | inr hmem =>
    have hus : us.erase e = us :=
      List.erase_of_not_mem fun he' => List.disjoint_of_nodup_append h.nodup he' hmem
    constructor
    case used =>
      rw [hus]
      exact ring_removed_of_disjoint h.cache (mem_map_thread.mpr hmem) h.used h.disjoint_symm
    case cache => exact ring_erase h.cache hmem
    case nodup => exact hnodup

/-! ### The repair -/

/-- An action that the thread may take: it adds a stack that is on no list, or removes one that is
on a list. The stack of the forking thread `self` is not concerned. -/
inductive Legal (self : ℕ) (us cs : List ℕ) : Action → Prop
  | add_used {e : ℕ} (hself : e ≠ self) (he : e ∉ us ++ cs) : Legal self us cs (.add e .used)
  | add_cache {e : ℕ} (hself : e ≠ self) (he : e ∉ us ++ cs) : Legal self us cs (.add e .cache)
  | del {e : ℕ} (hself : e ≠ self) (he : e ∈ us ++ cs) : Legal self us cs (.del e)
  | account (size : UInt64) : Legal self us cs (.account size)

def Action.elem : Action → Option ℕ
  | .add e _ | .del e => some e
  | .account _ => none

/-- The lists hold the same stacks, except that one may be on a list or on none. -/
def SameStacks (elem : Option ℕ) (us cs us' cs' : List ℕ) : Prop :=
  ∀ x, elem ≠ some x → ((x ∈ us' ↔ x ∈ us) ∧ (x ∈ cs' ↔ x ∈ cs))

theorem SameStacks.refl (elem : Option ℕ) : SameStacks elem us cs us cs :=
  fun _ _ => ⟨Iff.rfl, Iff.rfl⟩

theorem SameStacks.cons_used : SameStacks (some e) us cs (e :: us) cs := by
  intro x hx
  have hne : x ≠ e := fun heq => hx (congrArg some heq.symm)
  simp [hne]

theorem SameStacks.cons_cache : SameStacks (some e) us cs us (e :: cs) := by
  intro x hx
  have hne : x ≠ e := fun heq => hx (congrArg some heq.symm)
  simp [hne]

theorem SameStacks.erase : SameStacks (some e) us cs (us.erase e) (cs.erase e) := by
  intro x hx
  have hne : x ≠ e := fun heq => hx (congrArg some heq.symm)
  exact ⟨List.mem_erase_of_ne hne, List.mem_erase_of_ne hne⟩

theorem SameStacks.length_le {elem : Option ℕ} {us' cs' : List ℕ} {L' : Links Cell}
    (hsame : SameStacks elem us cs us' cs') (h : Lists L' us' cs') :
    us'.length ≤ us.length + 1 := by
  have hnodup : us'.Nodup := (List.nodup_append.mp h.nodup).1
  have hsubset : us' ⊆ elem.toList ++ us := by
    intro x hx
    by_cases helem : elem = some x
    · simp [helem]
    · exact List.mem_append_right _ ((hsame x helem).1.mp hx)
  calc us'.length ≤ (elem.toList ++ us).length := (hnodup.subperm hsubset).length_le
    _ ≤ us.length + 1 := by cases elem <;> simp

theorem Legal.elem_ne {self : ℕ} {action : Action} (h : Legal self us cs action) :
    action.elem ≠ some self := by
  cases h with
  | add_used hself he | add_cache hself he | del hself he => exact fun heq => hself (Option.some.inj heq)
  | account size => nofun

section Repair

variable {h : Heap}

theorem repair_of_idle (hflight : h.inFlight = none) : repair h = some h := by
  rw [repair, hflight]

variable {elem : Cell} {us' cs' : List ℕ}

/-- Where both heads are consistent an insertion has not begun, or it is complete. -/
theorem repair_of_consistent (hflight : h.inFlight = some (elem, true)) (hl : Lists h.links us cs) :
    repair h = some { h with inFlight := none } := by
  simp [repair, hflight, hl.used.prev_next, hl.cache.prev_next]

theorem repair_of_del (hflight : h.inFlight = some (elem, false)) :
    repair h = some { run (listDel elem) h with inFlight := none } := by
  rw [repair, hflight]

theorem listDel_links (hnext : h.links.next elem ≠ elem) :
    (run (listDel elem) h).links = removed h.links elem := by
  simp [run, listDel, Heap.setPrev, Heap.setNext, removed, Function.update_of_ne hnext.symm]

theorem listAdd_links {newp head : Cell} (hne : newp ≠ head) :
    (run (listAdd newp head) h).links = added h.links newp head := by
  simp [run, listAdd, Heap.setPrev, Heap.setNext, added, Function.update_of_ne hne.symm]

theorem complete_links {newp head : Cell} (hhalf : h.links = halfAdded L newp head)
    (hne : newp ≠ head) (hfirst : newp ≠ L.next head) :
    (((h.setNext newp (h.links.next head)).setPrev newp head).setNext head newp).links =
      added L newp head := by
  simp only [Heap.setNext, Heap.setPrev, hhalf, halfAdded, added, Function.update_of_ne hne.symm,
    Function.update_idem]
  rw [Function.update_comm hfirst, Function.update_idem]

/-- An insertion at the head whose pointers do not agree is completed. -/
theorem repair_of_half {head : Cell} {cells : List Cell}
    (hflight : h.inFlight = some (.thread e, true))
    (hhalf : h.links = halfAdded L (.thread e) head) (hr : Ring L head cells)
    (hnew : Cell.thread e ∉ head :: cells)
    (hhead : head = .used ∨ head = .cache ∧ (halfAdded L (.thread e) head).prev
      ((halfAdded L (.thread e) head).next .used) = .used) :
    ∃ h', repair h = some h' ∧ h'.links = added L (.thread e) head ∧ h'.inFlight = none := by
  have hne : Cell.thread e ≠ head := fun heq => hnew (heq ▸ List.mem_cons_self)
  have hfirst : Cell.thread e ≠ L.next head := fun heq => hnew (heq ▸ hr.next_mem)
  have hback : h.links.prev (h.links.next head) = .thread e := by
    simp [hhalf, halfAdded, Function.update_of_ne hne.symm]
  refine ⟨{ ((h.setNext (.thread e) (h.links.next head)).setPrev (.thread e) head).setNext head
    (.thread e) with inFlight := none }, ?_, complete_links hhalf hne hfirst, rfl⟩
  cases hhead with
  | inl hused =>
    subst hused
    simp [repair, hflight, hback]
  | inr hcache =>
    obtain ⟨rfl, hused⟩ := hcache
    rw [← hhalf] at hused
    simp [repair, hflight, hback, hused]

def Repaired (elem : Option ℕ) (us cs : List ℕ) (h : Heap) : Prop :=
  ∃ h' us' cs', repair h = some h' ∧ Lists h'.links us' cs' ∧ SameStacks elem us cs us' cs' ∧
    h'.inFlight = none

theorem Repaired.of_idle {elem : Option ℕ} (hflight : h.inFlight = none)
    (hl : Lists h.links us' cs') (hsame : SameStacks elem us cs us' cs') : Repaired elem us cs h :=
  ⟨h, us', cs', repair_of_idle hflight, hl, hsame, hflight⟩

theorem Repaired.of_consistent {elem : Option ℕ} {c : Cell} (hflight : h.inFlight = some (c, true))
    (hl : Lists h.links us' cs') (hsame : SameStacks elem us cs us' cs') : Repaired elem us cs h :=
  ⟨_, us', cs', repair_of_consistent hflight hl, hl, hsame, rfl⟩

theorem Repaired.of_del (hflight : h.inFlight = some (.thread e, false))
    (hnext : h.links.next (.thread e) ≠ .thread e) (hl : Lists L us cs) (he : e ∈ us ++ cs)
    (hlinks : removed h.links (.thread e) = removed L (.thread e)) : Repaired (some e) us cs h := by
  refine ⟨_, _, _, repair_of_del hflight, ?_, SameStacks.erase, rfl⟩
  rw [show _ = _ from (listDel_links hnext).trans hlinks]
  exact hl.removed he

theorem run_take_stores {action : Action} {k : ℕ} (hk : action.stores.length ≤ k) :
    run (action.stores.take k) h = action.run h := by
  rw [List.take_of_length_le hk]
  rfl

theorem repaired_del (hl : Lists h.links us cs) (hflight : h.inFlight = none) (he : e ∈ us ++ cs)
    (k : ℕ) : Repaired (some e) us cs (run ((Action.del e).stores.take k) h) := by
  have hneighbours := hl.neighbours he
  have hagain := removed_again hneighbours.1 hneighbours.2
  have hkept : (removed h.links (.thread e)).next (.thread e) = h.links.next (.thread e) :=
    Function.update_of_ne hneighbours.2.symm _ _
  match k with
  | 0 => exact .of_idle hflight hl (.refl _)
  | 1 => exact .of_del rfl hneighbours.1 hl he rfl
  | 2 => exact .of_del rfl hneighbours.1 hl he hagain.1
  | 3 =>
    have hlinks : (run ((Action.del e).stores.take 3) h).links = removed h.links (.thread e) :=
      listDel_links hneighbours.1
    apply Repaired.of_del rfl _ hl he
    · rw [hlinks, hagain.2]
    · rw [hlinks, hkept]
      exact hneighbours.1
  | k + 4 =>
    have hlinks : ((Action.del e).run h).links = removed h.links (.thread e) :=
      listDel_links hneighbours.1
    rw [run_take_stores (Nat.le_add_left 4 k)]
    apply Repaired.of_idle rfl _ SameStacks.erase
    rw [hlinks]
    exact hl.removed he

/-- An insertion that is interrupted after any of its stores. -/
theorem repaired_add {head : Cell} {cells : List Cell} (hl : Lists h.links us cs)
    (hflight : h.inFlight = none) (he : e ∉ us ++ cs) (hr : Ring h.links head cells)
    (hnew : Cell.thread e ∉ head :: cells)
    (hfirst : head = .used ∨ head = .cache ∧ (halfAdded h.links (.thread e) head).prev
      ((halfAdded h.links (.thread e) head).next .used) = .used)
    (hadded : Lists (added h.links (.thread e) head) us' cs')
    (hsame : SameStacks (some e) us cs us' cs') (k : ℕ) :
    Repaired (some e) us cs (run ((Action.add e head).stores.take k) h) := by
  have hhead : Cell.thread e ≠ head := fun heq => hnew (heq ▸ List.mem_cons_self)
  have hfull : (run (listAdd (.thread e) head) (setInFlight (some (.thread e, true)) h)).links =
      added h.links (.thread e) head := listAdd_links hhead
  match k with
  | 0 => exact .of_idle hflight hl (.refl _)
  | 1 => exact .of_consistent rfl hl (.refl _)
  | 2 | 3 =>
    apply Repaired.of_consistent rfl (hl.of_eqOn_ne he _) (.refl _)
    intro c hc
    simp [run, Action.stores, listAdd, setInFlight, Heap.setNext, Heap.setPrev, hc]
  | 4 =>
    have hhalf : (run ((Action.add e head).stores.take 4) h).links =
        halfAdded h.links (.thread e) head := by
      simp [run, Action.stores, listAdd, setInFlight, Heap.setNext, Heap.setPrev, halfAdded,
        Function.update_of_ne hhead.symm]
    obtain ⟨h', hrepair, hlinks, hidle⟩ := repair_of_half rfl hhalf hr hnew hfirst
    exact ⟨h', _, _, hrepair, hlinks ▸ hadded, hsame, hidle⟩
  | 5 =>
    apply Repaired.of_consistent rfl _ hsame
    exact hfull ▸ hadded
  | k + 6 =>
    rw [run_take_stores (Nat.le_add_left 6 k)]
    apply Repaired.of_idle rfl _ hsame
    exact hfull ▸ hadded

theorem Legal.repaired {self : ℕ} {action : Action} (hlegal : Legal self us cs action)
    (hl : Lists h.links us cs) (hflight : h.inFlight = none) (k : ℕ) :
    Repaired action.elem us cs (run (action.stores.take k) h) := by
  cases hlegal with
  | add_used hself he =>
    have hparts := not_or.mp (he ∘ List.mem_append.mpr)
    exact repaired_add hl hflight he hl.used (notMem_ring nofun hparts.1) (.inl rfl)
      (hl.added_used he) SameStacks.cons_used k
  | add_cache hself he =>
    have hparts := not_or.mp (he ∘ List.mem_append.mpr)
    have hused := ring_halfAdded_of_disjoint hl.cache hl.used hl.disjoint_symm
      (notMem_ring nofun hparts.1)
    exact repaired_add hl hflight he hl.cache (notMem_ring nofun hparts.2)
      (.inr ⟨rfl, hused.prev_next⟩) (hl.added_cache he) SameStacks.cons_cache k
  | del hself he => exact repaired_del hl hflight he k
  | account size =>
    match k with
    | 0 => exact .of_idle hflight hl (.refl _)
    | k + 1 =>
      rw [run_take_stores (Nat.le_add_left 1 k)]
      exact .of_idle hflight hl (.refl _)

end Repair

end AwaitGlibc.StackLists

import AwaitGlibc.StackListsFork

/-! `reclaim_stacks` on well-formed lists, the calls that work on the lists under the lock, and
the two together: a `fork` during any of these calls. -/
namespace AwaitGlibc.StackLists
open RingList

variable {blocks : Blocks} {us cs : List ℕ} {self : ℕ} {h : Heap}

variable {fuel : ℕ}

/-! ### The child on well-formed lists -/

/-- The walk over the used stacks ends and changes no list. -/
theorem markFree_eq (blocks : Blocks) (self : ℕ) {x : Cell}
    (hsegment : Segment h.links x (us.map .thread) .used) (hfuel : us.length < fuel) :
    ∃ h', markFree blocks self fuel (h.links.next x) h = some h' ∧ h'.links = h.links := by
  induction us generalizing fuel x h with
  | nil =>
    obtain ⟨fuel, rfl⟩ := Nat.exists_eq_succ_of_ne_zero (Nat.ne_zero_of_lt hfuel)
    rw [hsegment.1]
    exact ⟨h, rfl, rfl⟩
  | cons u us ih =>
    obtain ⟨fuel, rfl⟩ := Nat.exists_eq_succ_of_ne_zero (Nat.ne_zero_of_lt hfuel)
    have hfuel' : us.length < fuel := Nat.lt_of_succ_lt_succ hfuel
    rw [hsegment.1.1, markFree]
    split_ifs
    · exact ih (h := h.release blocks u) hsegment.2 hfuel'
    · exact ih hsegment.2 hfuel'

/-- The links when `list_splice` is done. -/
def spliced (L : Links Cell) (add head : Cell) : Links Cell where
  next := Function.update (Function.update L.next (L.prev add) (L.next head)) head (L.next add)
  prev := Function.update (Function.update L.prev (L.next add) head) (L.next head) (L.prev add)

theorem listSplice_links {add head : Cell} (hnext : h.links.next add ≠ add)
    (hprev : h.links.prev add ≠ add) (hhead : h.links.prev add ≠ head) :
    (listSplice add head h).links = spliced h.links add head := by
  rw [listSplice, if_pos hnext.symm]
  simp [run, Heap.setNext, Heap.setPrev, spliced, Function.update_of_ne hnext.symm,
    Function.update_of_ne hprev.symm, Function.update_of_ne hhead.symm]

theorem Lists.splice (hl : Lists h.links us cs) (hne : us ≠ []) :
    Ring (listSplice .used .cache h).links .cache ((us ++ cs).map .thread) := by
  have hcells : us.map Cell.thread ≠ [] := by simpa using hne
  have hfirst : h.links.next .used ∈ us.map .thread := by
    cases us with
    | nil => exact absurd rfl hne
    | cons u us => rw [hl.used.segment.1.1]; exact List.mem_cons_self
  have hlast : h.links.prev .used ∈ us.map .thread := by
    cases hl.used.segment.last with
    | inl hnil => exact absurd hnil.1 hcells
    | inr hfront =>
      obtain ⟨front, heq, -⟩ := hfront
      rw [heq]
      simp
  have hjoin : ∀ c ∈ us.map Cell.thread, c ≠ h.links.next .cache := fun c hc heq =>
    hl.disjoint c (List.mem_cons_of_mem _ hc) (heq ▸ hl.cache.next_mem)
  rw [listSplice_links (ne_of_mem_map hfirst).1 (ne_of_mem_map hlast).1 (ne_of_mem_map hlast).2,
    List.map_append]
  apply hl.used.splice hl.cache hcells hl.disjoint
  case hhead => simp [spliced]
  case hback => simp [spliced, hjoin _ hfirst]
  case hlast => simp [spliced, (ne_of_mem_map hlast).2]
  case hjoin => simp [spliced]
  case hnext =>
    intro a ha haprev
    rw [← List.map_append] at ha
    simp [spliced, haprev, (ne_of_mem_map ha).2]
  case hprev =>
    intro a _ hafirst hajoin
    simp [spliced, hafirst, hajoin]

/-- From well-formed lists on, the child keeps its own stack in use and caches the others. -/
theorem reclaim_of_repaired {h₀ : Heap} (hrepair : repair h₀ = some h) (hl : Lists h.links us cs)
    (hself : self ∈ us) (hstack : blocks.userStack self = false) (hfuel : us.length < fuel) :
    ∃ h', reclaimStacks blocks fuel self h₀ = some h' ∧
      Ring h'.links .used [.thread self] ∧
      Ring h'.links .cache (((us ++ cs).erase self).map .thread) := by
  obtain ⟨h₁, hmark, hlinks₁⟩ := markFree_eq blocks self hl.used.segment hfuel
  have hring := (show Lists h₁.links us cs from hlinks₁ ▸ hl).splice (List.ne_nil_of_mem hself)
  obtain ⟨h₂, hh₂⟩ : ∃ h₂, h₂ = listSplice .used .cache h₁ := ⟨_, rfl⟩
  rw [← hh₂] at hring
  have hmem : self ∈ us ++ cs := List.mem_append_left _ hself
  have hneighbours := hring.neighbours (mem_map_thread.mpr hmem)
  -- its own stack leaves the joined list
  obtain ⟨h₃, hh₃⟩ : ∃ h₃, h₃ = run (listDel (.thread self)) h₂ := ⟨_, rfl⟩
  have hring₃ : Ring h₃.links .cache (((us ++ cs).erase self).map .thread) := by
    rw [hh₃, listDel_links hneighbours.1.2]
    exact ring_erase hring hmem
  -- the heads of the other lists are not in it
  obtain ⟨h₄, hh₄⟩ : ∃ h₄, h₄ = initListHead .user (initListHead .used h₃) := ⟨_, rfl⟩
  have hused₄ : Ring h₄.links .used [] := by
    apply Ring.of_self
    · simp [hh₄, initListHead, Heap.setNext, Heap.setPrev]
    · simp [hh₄, initListHead, Heap.setNext, Heap.setPrev]
  have hheads : ∀ c ∈ Cell.cache :: ((us ++ cs).erase self).map .thread, c ≠ .used ∧ c ≠ .user := by
    intro c hc
    cases List.mem_cons.mp hc with
    | inl heq => rw [heq]; exact ⟨by simp, by simp⟩
    | inr hc =>
      obtain ⟨i, -, rfl⟩ := List.mem_map.mp hc
      exact ⟨by simp, by simp⟩
  have hcache₄ : Ring h₄.links .cache (((us ++ cs).erase self).map .thread) := by
    apply hring₃.congr
    intro c hc
    simp [hh₄, initListHead, Heap.setNext, Heap.setPrev, hheads c hc]
  have hgone : self ∉ (us ++ cs).erase self := hl.nodup.not_mem_erase
  refine ⟨run (listAdd (.thread self) .used) h₄, ?_, ?_, ?_⟩
  · rw [reclaimStacks, hrepair]
    change (markFree blocks self fuel (h.links.next .used) h >>= _) = _
    rw [hmark, hh₄, hh₃, hh₂]
    simp [hstack]
  · exact ring_added hused₄ (by simp)
  · apply ring_added_of_disjoint hused₄ hcache₄
    · intro c hc hc'
      exact (hheads c hc').1 (List.mem_singleton.mp hc)
    · exact notMem_ring (by simp) hgone

/-! ### The calls under the lock -/

/-- No operation is under way and the stack of the forking thread is in use. -/
structure Ready (forking : ℕ) (h : Heap) (us cs : List ℕ) : Prop where
  lists : Lists h.links us cs
  idle : h.inFlight = none
  running : forking ∈ us

variable {e : ℕ}

section
variable (hr : Ready self h us cs)
include hr

theorem Ready.ne_of_notMem (he : e ∉ us ++ cs) : e ≠ self :=
  fun heq => he (heq ▸ List.mem_append_left _ hr.running)

theorem Ready.ne_of_cached (he : e ∈ cs) : e ≠ self :=
  fun heq => List.disjoint_of_nodup_append hr.lists.nodup hr.running (heq ▸ he)

theorem Ready.add_used (he : e ∉ us ++ cs) :
    Ready self ((Action.add e .used).run h) (e :: us) cs where
  lists := hr.lists.added_used he
  idle := rfl
  running := List.mem_cons_of_mem _ hr.running

theorem Ready.add_cache (he : e ∉ us ++ cs) :
    Ready self ((Action.add e .cache).run h) us (e :: cs) where
  lists := hr.lists.added_cache he
  idle := rfl
  running := hr.running

theorem Ready.del (he : e ∈ cs) : Ready self ((Action.del e).run h) us (cs.erase e) where
  lists := by
    have hmem : e ∈ us ++ cs := List.mem_append_right _ he
    have hlinks : ((Action.del e).run h).links = removed h.links (.thread e) :=
      listDel_links (hr.lists.neighbours hmem).1
    have hus : us.erase e = us :=
      List.erase_of_not_mem fun he' => List.disjoint_of_nodup_append hr.lists.nodup he' he
    rw [hlinks, ← hus]
    exact hr.lists.removed hmem
  idle := rfl
  running := hr.running

theorem Ready.account (size : UInt64) : Ready self ((Action.account size).run h) us cs :=
  { hr with }

end

def LegalRun (self : ℕ) : Heap → List Action → Prop
  | _, [] => True
  | h, action :: actions =>
    (∃ us cs, Ready self h us cs ∧ Legal self us cs action) ∧ LegalRun self (action.run h) actions

def runActions (actions : List Action) (h : Heap) : Heap :=
  actions.foldl (fun h action => action.run h) h

theorem LegalRun.at_action {before after : List Action} {action : Action}
    (hrun : LegalRun self h (before ++ action :: after)) :
    ∃ us cs, Ready self (runActions before h) us cs ∧ Legal self us cs action := by
  induction before generalizing h with
  | nil => exact hrun.1
  | cons first before ih => exact ih hrun.2

theorem Ready.legalRun_del (hr : Ready self h us cs) (he : e ∈ cs) {rest : List Action}
    (hrest : LegalRun self ((Action.del e).run h) rest) : LegalRun self h (.del e :: rest) :=
  ⟨⟨us, cs, hr, .del (hr.ne_of_cached he) (List.mem_append_right _ he)⟩, hrest⟩

theorem Ready.legalRun_account (hr : Ready self h us cs) (size : UInt64) {rest : List Action}
    (hrest : LegalRun self ((Action.account size).run h) rest) :
    LegalRun self h (.account size :: rest) :=
  ⟨⟨us, cs, hr, .account size⟩, hrest⟩

theorem searchCache_mem (blocks : Blocks) (size : UInt64) {x : Cell} {rest : List ℕ}
    {result : Option ℕ} (hsegment : Segment h.links x (rest.map .thread) .cache)
    (hrest : ∀ i ∈ rest, i ∈ cs) (hresult : ∀ i ∈ result, i ∈ cs) (hfuel : rest.length < fuel) :
    ∃ found, searchCache blocks size h fuel (h.links.next x) result = some found ∧
      ∀ i ∈ found, i ∈ cs := by
  induction rest generalizing fuel x result with
  | nil =>
    obtain ⟨fuel, rfl⟩ := Nat.exists_eq_succ_of_ne_zero (Nat.ne_zero_of_lt hfuel)
    rw [hsegment.1]
    exact ⟨result, rfl, hresult⟩
  | cons curr rest ih =>
    obtain ⟨fuel, rfl⟩ := Nat.exists_eq_succ_of_ne_zero (Nat.ne_zero_of_lt hfuel)
    have hfuel' : rest.length < fuel := Nat.lt_of_succ_lt_succ hfuel
    have hcurr : ∀ i ∈ some curr, i ∈ cs := by simpa using hrest curr List.mem_cons_self
    have hrest' : ∀ i ∈ rest, i ∈ cs := fun i hi => hrest i (List.mem_cons_of_mem _ hi)
    rw [hsegment.1.1, searchCache]
    split_ifs
    · exact ⟨some curr, rfl, hcurr⟩
    · exact ih hsegment.2 hrest' hcurr hfuel'
    · exact ih hsegment.2 hrest' hresult hfuel'
    · exact ih hsegment.2 hrest' hresult hfuel'

theorem getCachedStack_legal (hr : Ready self h us cs) (size : UInt64) (hfuel : cs.length < fuel) :
    ∃ actions, getCachedStack blocks fuel size h = some actions ∧ LegalRun self h actions := by
  obtain ⟨found, hsearch, hfound⟩ := searchCache_mem blocks size
    hr.lists.cache.segment (fun i hi => hi) (nofun : ∀ i ∈ (none : Option ℕ), i ∈ cs) hfuel
  rw [getCachedStack, hsearch]
  cases found with
  | none => exact ⟨[], rfl, trivial⟩
  | some result =>
    have hmem : result ∈ cs := hfound result rfl
    by_cases hlarge : blocks.size result > 4 * size
    · exact ⟨[], if_pos hlarge, trivial⟩
    · have hdel := hr.del hmem
      have hgone : result ∉ us ++ cs.erase result := by
        have hcs : cs.Nodup := (List.nodup_append.mp hr.lists.nodup).2.1
        have hdisjoint := List.disjoint_of_nodup_append hr.lists.nodup
        rw [List.mem_append, not_or]
        exact ⟨fun hu => hdisjoint hu hmem, hcs.not_mem_erase⟩
      refine ⟨_, if_neg hlarge, hr.legalRun_del hmem ⟨⟨us, cs.erase result, hdel, ?_⟩, ?_⟩⟩
      · exact .add_used (hdel.ne_of_notMem hgone) hgone
      · exact (hdel.add_used hgone).legalRun_account _ trivial

def lastCell (rest : List ℕ) : Cell := (rest.map .thread).getLastD .cache

theorem prev_eq_lastCell {links : Links Cell} {c : Cell} {cs : List ℕ}
    (hsegment : Segment links .cache (cs.map .thread) c) : links.prev c = lastCell cs := by
  cases hsegment.last with
  | inl hnil => rw [hnil.2, lastCell, hnil.1, List.getLastD_nil]
  | inr hfront =>
    obtain ⟨front, heq, -⟩ := hfront
    rw [lastCell, heq, List.getLastD_concat]

theorem Ready.prev_eq {rest done : List ℕ} (hr : Ready self h us (rest ++ e :: done)) :
    h.links.prev (.thread e) = lastCell rest := by
  have hsegment := hr.lists.cache.segment
  rw [List.map_append, List.map_cons] at hsegment
  exact prev_eq_lastCell (segment_append.mp hsegment).1

theorem freeStacksFrom_legal (limit : UInt64) {rest done : List ℕ}
    (hr : Ready self h us (rest ++ done)) (hfuel : rest.length < fuel) :
    ∃ actions, freeStacksFrom blocks limit fuel h (lastCell rest)
        (h.links.prev (lastCell rest)) = some actions ∧ LegalRun self h actions := by
  induction rest using List.reverseRecOn generalizing h done fuel with
  | nil =>
    obtain ⟨fuel, rfl⟩ := Nat.exists_eq_succ_of_ne_zero (Nat.ne_zero_of_lt hfuel)
    exact ⟨[], rfl, trivial⟩
  | append_singleton rest curr ih =>
    obtain ⟨fuel, rfl⟩ := Nat.exists_eq_succ_of_ne_zero (Nat.ne_zero_of_lt hfuel)
    have hfuel' : rest.length < fuel := by
      rw [List.length_append, List.length_singleton] at hfuel
      omega
    have hentry : lastCell (rest ++ [curr]) = .thread curr := by simp [lastCell]
    rw [List.append_assoc, List.singleton_append] at hr
    have hmem : curr ∈ rest ++ curr :: done := by simp
    have hnot : curr ∉ rest := by
      have hcs : (rest ++ curr :: done).Nodup := (List.nodup_append.mp hr.lists.nodup).2.1
      exact fun hcurr => List.disjoint_of_nodup_append hcs hcurr List.mem_cons_self
    rw [hentry, hr.prev_eq, freeStacksFrom]
    by_cases htid : h.tid curr ≤ 0
    · have hnext := (hr.del hmem).account (h.actsize - blocks.size curr)
      rw [if_pos htid]
      by_cases hlimit : h.actsize - blocks.size curr ≤ limit
      · refine ⟨_, if_pos hlimit, hr.legalRun_del hmem ?_⟩
        exact (hr.del hmem).legalRun_account _ trivial
      · rw [List.erase_append_right _ hnot, List.erase_cons_head] at hnext
        obtain ⟨actions, hrun, hlegal⟩ := ih hnext hfuel'
        refine ⟨_, (if_neg hlimit).trans ?_,
          hr.legalRun_del hmem ((hr.del hmem).legalRun_account _ hlegal)⟩
        rw [hrun]
        rfl
    · rw [if_neg htid]
      exact ih hr hfuel'

theorem freeStacks_legal (blocks : Blocks) (limit : UInt64) (hr : Ready self h us cs)
    (hfuel : cs.length < fuel) :
    ∃ actions, freeStacks blocks fuel limit h = some actions ∧ LegalRun self h actions := by
  rw [freeStacks, prev_eq_lastCell hr.lists.cache.segment]
  have hall : Ready self h us (cs ++ []) := by rwa [List.append_nil]
  exact freeStacksFrom_legal limit hall hfuel

theorem queueStack_legal (maxsize : UInt64) (hr : Ready self h us cs) (he : e ∉ us ++ cs)
    (hfuel : cs.length + 1 < fuel) :
    ∃ actions, queueStack blocks fuel maxsize e h = some actions ∧ LegalRun self h actions := by
  have hadded := hr.add_cache he
  have haccount := hadded.account (h.actsize + blocks.size e)
  have hfirst : ∃ us cs, Ready self h us cs ∧ Legal self us cs (.add e .cache) :=
    ⟨us, cs, hr, .add_cache (hr.ne_of_notMem he) he⟩
  by_cases hlarge : h.actsize + blocks.size e > maxsize
  · obtain ⟨actions, hrun, hlegal⟩ := freeStacks_legal blocks maxsize haccount hfuel
    refine ⟨.add e .cache :: .account (h.actsize + blocks.size e) :: actions,
      (if_pos hlarge).trans ?_, hfirst, hadded.legalRun_account _ hlegal⟩
    rw [hrun]
    rfl
  · exact ⟨_, if_neg hlarge, hfirst, hadded.legalRun_account _ trivial⟩

/-! ### A fork during a call -/

/-- The calls that work on the lists while they hold the lock. -/
inductive Call
  | getCachedStack (size : UInt64)
  | queueStack (stack : ℕ) (maxsize : UInt64)
  | freeStacks (limit : UInt64)

def Call.actions (blocks : Blocks) (fuel : ℕ) (h : Heap) : Call → Option (List Action)
  | .getCachedStack size => StackLists.getCachedStack blocks fuel size h
  | .queueStack stack maxsize => StackLists.queueStack blocks fuel maxsize stack h
  | .freeStacks limit => StackLists.freeStacks blocks fuel limit h

/-- A stack is queued when it has left the list of used stacks. -/
def Call.Valid (us cs : List ℕ) : Call → Prop
  | .queueStack stack _ => stack ∉ us ++ cs
  | _ => True

theorem Call.actions_legal (blocks : Blocks) {call : Call} (hr : Ready self h us cs)
    (hvalid : call.Valid us cs) (hfuel : cs.length + 1 < fuel) :
    ∃ actions, call.actions blocks fuel h = some actions ∧ LegalRun self h actions := by
  cases call with
  | getCachedStack size => exact getCachedStack_legal hr size (Nat.lt_of_succ_lt hfuel)
  | queueStack stack maxsize => exact queueStack_legal maxsize hr hvalid hfuel
  | freeStacks limit => exact freeStacks_legal blocks limit hr (Nat.lt_of_succ_lt hfuel)

/-- A thread forks while another one is inside one of the calls, `k` stores into one of its
actions. Before that action the lists are well-formed and hold `us₁` and `cs₁`. In the child,
`reclaim_stacks` ends without a failed assertion, the list of used stacks holds the stack of the
forking thread, and the cache holds the other stacks, each once; only the element of the
interrupted action may be missing. -/
theorem reclaimStacks_after_fork (blocks : Blocks) (call : Call) (self : ℕ) (h : Heap)
    (us cs : List ℕ) (hr : Ready self h us cs) (hvalid : call.Valid us cs)
    (hstack : blocks.userStack self = false) (fuel : ℕ) (hfuel : cs.length + 1 < fuel) :
    ∃ actions, call.actions blocks fuel h = some actions ∧
      ∀ before action after, actions = before ++ action :: after →
        ∃ us₁ cs₁, Ready self (runActions before h) us₁ cs₁ ∧
          ∀ k fuel', us₁.length + 1 < fuel' →
            ∃ h', ∃ cs' : List ℕ, reclaimStacks blocks fuel' self
                (run (action.stores.take k) (runActions before h)) = some h' ∧
              Ring h'.links .used [.thread self] ∧ Ring h'.links .cache (cs'.map .thread) ∧
              self ∉ cs' ∧
              ∀ x, x ≠ self → action.elem ≠ some x → (x ∈ cs' ↔ x ∈ us₁ ++ cs₁) := by
  obtain ⟨actions, hactions, hlegal⟩ := call.actions_legal blocks hr hvalid hfuel
  refine ⟨actions, hactions, ?_⟩
  intro before action after heq
  rw [heq] at hlegal
  obtain ⟨us₁, cs₁, hr₁, haction⟩ := hlegal.at_action
  refine ⟨us₁, cs₁, hr₁, ?_⟩
  intro k fuel' hfuel'
  obtain ⟨h₂, us₂, cs₂, hrepair, hlists, hsame, -⟩ := haction.repaired hr₁.lists hr₁.idle k
  have hself : self ∈ us₂ := (hsame self haction.elem_ne).1.mpr hr₁.running
  have hlength := hsame.length_le hlists
  obtain ⟨h', hrun, hused, hcache⟩ := reclaim_of_repaired hrepair hlists hself hstack
    (Nat.lt_of_le_of_lt hlength hfuel')
  refine ⟨h', _, hrun, hused, hcache, hlists.nodup.not_mem_erase, ?_⟩
  intro x hx helem
  rw [List.mem_erase_of_ne hx, List.mem_append, List.mem_append, (hsame x helem).1,
    (hsame x helem).2]

/-- The stack of thread 1 is in use, that of thread 2 is cached. -/
def twoStacks : Heap where
  links :=
    { next := fun
        | .used => .thread 1
        | .thread 1 => .used
        | .cache => .thread 2
        | .thread 2 => .cache
        | c => c
      prev := fun
        | .used => .thread 1
        | .thread 1 => .used
        | .cache => .thread 2
        | .thread 2 => .cache
        | c => c }
  inFlight := none
  actsize := 4096
  tid := fun i => if i = 1 then 1 else 0
  specific := fun _ => ⟨false, [], []⟩

theorem twoStacks_ready : Ready 1 twoStacks [1] [2] where
  lists := ⟨⟨⟨⟨rfl, rfl⟩, rfl, rfl⟩, by simp⟩, ⟨⟨⟨rfl, rfl⟩, rfl, rfl⟩, by simp⟩, by simp⟩
  idle := rfl
  running := List.mem_singleton.mpr rfl

/-- Thread 1 forks while another thread takes the cached stack. -/
theorem reclaimStacks_after_fork_cached :
    ∃ actions, (Call.getCachedStack 4096).actions ⟨fun _ => 4096, fun _ => false⟩ 3 twoStacks =
        some actions ∧
      ∀ before action after, actions = before ++ action :: after → ∀ k, ∃ fuel h',
        reclaimStacks ⟨fun _ => 4096, fun _ => false⟩ fuel 1
          (run (action.stores.take k) (runActions before twoStacks)) = some h' ∧
        Ring h'.links .used [.thread 1] := by
  obtain ⟨actions, hactions, hforks⟩ := reclaimStacks_after_fork
    ⟨fun _ => 4096, fun _ => false⟩ (.getCachedStack 4096) 1 twoStacks [1] [2] twoStacks_ready trivial
    rfl 3 (by decide)
  refine ⟨actions, hactions, ?_⟩
  intro before action after heq k
  obtain ⟨us₁, cs₁, -, hfork⟩ := hforks before action after heq
  obtain ⟨h', cs', hrun, hused, -⟩ := hfork k (us₁.length + 2) (Nat.lt_succ_self _)
  exact ⟨_, h', hrun, hused⟩

end AwaitGlibc.StackLists

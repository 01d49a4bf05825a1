import AwaitGlibc.TlsModuleRuns

/-!
# Thread vectors and `__tls_get_addr`

Every thread has a vector of entries, one for each module id, and a counter with the
generation the vector is up to date with. Loading and unloading objects does not touch
the vectors. A thread that accesses a module compares its counter with the generation
in the slot of the module and brings the vector up to that generation, no further.

The world below puts the slot list of the loader together with the vectors of the
threads, those of cached stacks included, the blocks that were allocated for dynamic
TLS and the static TLS areas. Every step is atomic. A vector entry is only read or
written within the recorded length of the vector, and freeing a block twice is a fault.
Of a block it is recorded for which thread and id it was allocated, from which object's
image it was initialised and in which generation that object was loaded; of a static
area, whose image was last copied to an offset. Allocations succeed.
-/
namespace AwaitGlibc.ThreadTls
open TlsSlots TlsModuleIds

def dtvSurplus : ℕ := 14

inductive Fault where
  | assertion
  | outside (len index : ℕ)
  | noSlot
  | noThread
  | freedTwice (block : ℕ)
  | loader (stop : CheckedArray.Stop)
deriving DecidableEq, Repr

/-- Where a block of thread-local storage lies: at an offset below the thread pointer, or
in memory that was allocated for it. -/
inductive Address (τ : Type) where
  | static (thread : τ) (offset : ℕ)
  | dynamic (block : ℕ)
deriving DecidableEq, Repr

/-- `pointer.val`: zero, `TLS_DTV_UNALLOCATED` or an address. -/
inductive Val (τ : Type) where
  | null
  | unallocated
  | addr (a : Address τ)
deriving DecidableEq, Repr

structure Entry (τ : Type) where
  val : Val τ
  toFree : Option ℕ
deriving DecidableEq, Repr

/-- A vector: `dtv[0].counter`, `dtv[-1].counter` and the entries. -/
structure Dtv (τ : Type) where
  counter : ℕ
  len : ℕ
  entries : ℕ → Entry τ

inductive Offset where
  | none
  | forcedDynamic
  | static (offset : ℕ)
deriving DecidableEq, Repr

structure Block (α τ : Type) where
  thread : τ
  modid : ℕ
  image : α
  gen : ℕ
deriving DecidableEq, Repr

structure Heap (α τ : Type) where
  blocks : List (Block α τ)
  freed : List ℕ
deriving DecidableEq, Repr

structure World (α τ : Type) where
  tls : State α
  offset : α → Offset
  active : τ → Option (Dtv τ)
  cached : τ → Option (Dtv τ)
  heap : Heap α τ
  /-- The object, and the generation of its loading, whose image is at an offset. -/
  image : τ → ℕ → Option (α × ℕ)

variable {α τ : Type}

def Entry.zero : Entry τ := ⟨.null, none⟩

namespace Dtv

def get (d : Dtv τ) (i : ℕ) : Except Fault (Entry τ) :=
  if i ≤ d.len then .ok (d.entries i) else .error (.outside d.len i)

def set (d : Dtv τ) (i : ℕ) (e : Entry τ) : Except Fault (Dtv τ) :=
  if i ≤ d.len then .ok { d with entries := Function.update d.entries i e }
  else .error (.outside d.len i)

/-- `_dl_resize_dtv`. -/
def resize (d : Dtv τ) (maxModid : ℕ) : Dtv τ :=
  { d with
    len := maxModid + dtvSurplus
    entries := fun i => if i ≤ d.len then d.entries i else Entry.zero }

def allocate (maxModid : ℕ) : Dtv τ := ⟨0, maxModid + dtvSurplus, fun _ => Entry.zero⟩

end Dtv

/-- `free`, which takes a null pointer for nothing. -/
def Heap.free (heap : Heap α τ) : Option ℕ → Except Fault (Heap α τ)
  | none => .ok heap
  | some b =>
    if b < heap.blocks.length ∧ b ∉ heap.freed then .ok { heap with freed := b :: heap.freed }
    else .error (.freedTwice b)

/-! ## The loops over the slot list -/

/-- The slots of one segment, from the one of `modid` on. -/
def walkSegment {σ : Type} (maxModid : ℕ) (visit : ℕ → Slot α → σ → Except Fault σ) :
    List (Slot α) → ℕ → σ → Except Fault σ
  | [], _, x => .ok x
  | slot :: slots, modid, x =>
    if maxModid < modid then .ok x
    else do
      let x ← visit modid slot x
      walkSegment maxModid visit slots (modid + 1) x

/-- The loop that `_dl_allocate_tls_init` and `_dl_update_slotinfo` have in common; `atEnd`
is what happens when the list ends below `maxModid`. The slot of id 0 is left out. -/
def walk {σ : Type} (maxModid : ℕ) (visit : ℕ → Slot α → σ → Except Fault σ)
    (atEnd : σ → Except Fault σ) : List (Segment α) → ℕ → σ → Except Fault σ
  | [], _, x => atEnd x
  | seg :: next, total, x => do
      let first := if total = 0 then 1 else 0
      let x ← walkSegment maxModid visit (seg.drop first) (total + first) x
      if maxModid < total + seg.length then .ok x
      else walk maxModid visit atEnd next (total + seg.length) x

def slotAt : List (Segment α) → ℕ → Except Fault (Slot α)
  | [], _ => .error .noSlot
  | seg :: next, idx =>
    match seg[idx]? with
    | some slot => .ok slot
    | none => slotAt next (idx - seg.length)

/-! ## Thread creation -/

structure Init (α τ : Type) where
  dtv : Dtv τ
  image : ℕ → Option (α × ℕ)
  maxgen : ℕ

/-- The body of the loop in `_dl_allocate_tls_init`. -/
def initEntry (w : World α τ) (t : τ) (modid : ℕ) (slot : Slot α) (x : Init α τ) :
    Except Fault (Init α τ) :=
  match slot.map with
  | none => .ok x
  | some l =>
    if w.tls.generation < slot.gen then .error .assertion
    else do
      let dtv ← x.dtv.set (w.tls.modid l) ⟨.unallocated, none⟩
      match w.offset l with
      | .static offset =>
        if w.tls.modid l = modid then do
          let dtv ← dtv.set (w.tls.modid l) ⟨.addr (.static t offset), none⟩
          .ok ⟨dtv, Function.update x.image offset (some (l, slot.gen)),
            max x.maxgen slot.gen⟩
        else .error .assertion
      | _ => .ok ⟨dtv, x.image, max x.maxgen slot.gen⟩

/-- `_dl_allocate_tls_init` for the thread `t` with the vector `d`. -/
def allocateTlsInit [DecidableEq τ] (w : World α τ) (t : τ) (d : Dtv τ) :
    Except Fault (World α τ) := do
  let d := if d.len < w.tls.maxDtvIdx then d.resize w.tls.maxDtvIdx else d
  let x ← walk w.tls.maxDtvIdx (initEntry w t) (fun _ => .error .assertion) w.tls.segments 0
    ⟨d, w.image t, 0⟩
  .ok { w with
    active := Function.update w.active t (some { x.dtv with counter := x.maxgen })
    image := Function.update w.image t x.image }

/-- The loop that frees what a vector still refers to. -/
def freeEntries (d : Dtv τ) (heap : Heap α τ) : Except Fault (Heap α τ) :=
  (List.range' 1 d.len).foldlM (fun heap i => do
    let e ← d.get i
    heap.free e.toFree) heap

/-! ## Access -/

structure Refresh (α τ : Type) where
  dtv : Dtv τ
  heap : Heap α τ
  theMap : Option α

/-- The end of the loop body in `_dl_update_slotinfo`. -/
def resetEntry (reqModid modid : ℕ) (slot : Slot α) (x : Refresh α τ) :
    Except Fault (Refresh α τ) := do
  let e ← x.dtv.get modid
  let heap ← x.heap.free e.toFree
  let dtv ← x.dtv.set modid ⟨.unallocated, none⟩
  .ok ⟨dtv, heap, if modid = reqModid then slot.map else x.theMap⟩

/-- The body of the loop in `_dl_update_slotinfo`. -/
def refreshEntry (maxModid newGen reqModid modid : ℕ) (slot : Slot α) (x : Refresh α τ) :
    Except Fault (Refresh α τ) :=
  if newGen < slot.gen then .ok x
  else if slot.gen ≤ x.dtv.counter then .ok x
  else if x.dtv.len < modid then
    if slot.map.isNone then .ok x
    else if modid ≤ (x.dtv.resize maxModid).len then
      resetEntry reqModid modid slot { x with dtv := x.dtv.resize maxModid }
    else .error .assertion
  else resetEntry reqModid modid slot x

def updateSlotinfo (s : State α) (d : Dtv τ) (heap : Heap α τ) (reqModid : ℕ) :
    Except Fault (Refresh α τ) := do
  let slot ← slotAt s.segments reqModid
  if d.counter < slot.gen then
    if s.maxDtvIdx < reqModid then .error .assertion
    else do
      let x ← walk s.maxDtvIdx (refreshEntry s.maxDtvIdx slot.gen reqModid) .ok s.segments 0
        ⟨d, heap, none⟩
      .ok { x with dtv := { x.dtv with counter := slot.gen } }
  else .ok ⟨d, heap, none⟩

section Access
variable [DecidableEq α] [DecidableEq τ]

def World.setThread (w : World α τ) (t : τ) (d : Dtv τ) (heap : Heap α τ) : World α τ :=
  { w with active := Function.update w.active t (some d), heap := heap }

/-- `allocate_and_init` and the entry that is made of it. -/
def allocateAndInit (w : World α τ) (t : τ) (x : Refresh α τ) (m : ℕ) (l : α) (gen : ℕ) :
    Except Fault (World α τ × Val τ) := do
  let b := x.heap.blocks.length
  let d ← x.dtv.set m ⟨.addr (.dynamic b), some b⟩
  .ok (w.setThread t d { x.heap with blocks := x.heap.blocks ++ [⟨t, m, l, gen⟩] },
    .addr (.dynamic b))

def tlsGetAddrTail (w : World α τ) (t : τ) (x : Refresh α τ) (m : ℕ) :
    Except Fault (World α τ × Val τ) := do
  let slot ← slotAt w.tls.segments m
  match x.theMap.or slot.map with
  | none => .error .noSlot
  | some l =>
    match w.offset l with
    | .forcedDynamic => allocateAndInit w t x m l slot.gen
    | .none =>
      allocateAndInit { w with offset := Function.update w.offset l .forcedDynamic } t x m l
        slot.gen
    | .static offset => do
        let d ← x.dtv.set m ⟨.addr (.static t offset), none⟩
        .ok (w.setThread t d x.heap, .addr (.static t offset))

/-- The end of `__tls_get_addr` and of `update_get_addr`. -/
def entryAddr (w : World α τ) (t : τ) (x : Refresh α τ) (m : ℕ) :
    Except Fault (World α τ × Val τ) := do
  let e ← x.dtv.get m
  if e.val = .unallocated then tlsGetAddrTail w t x m
  else .ok (w.setThread t x.dtv x.heap, e.val)

/-- `__tls_get_addr` by the thread `t`, with `update_get_addr`. The offset into the block is
left to the caller. -/
def tlsGetAddr (w : World α τ) (t : τ) (m : ℕ) : Except Fault (World α τ × Val τ) :=
  match w.active t with
  | none => .error .noThread
  | some d =>
    if d.counter ≠ w.tls.generation then do
      let x ← updateSlotinfo w.tls d w.heap m
      entryAddr w t x m
    else entryAddr w t ⟨d, w.heap, none⟩ m

/-! ## Steps -/

inductive Op (α τ : Type) where
  /-- `dlopen` and `dlclose`. -/
  | call (c : Call α)
  /-- `_dl_try_allocate_static_tls` with `_dl_init_static_tls`. -/
  | allocateStatic (l : α) (offset : ℕ)
  /-- `_dl_update_slotinfo` called by the loader in the thread `t`. -/
  | update (t : τ) (m : ℕ)
  | create (t : τ)
  | createCached (t old : τ)
  | exit (t : τ)
  /-- `_dl_deallocate_tls` for a stack that leaves the cache. -/
  | deallocate (t : τ)
  | access (t : τ) (m : ℕ)

def Call.mapped : Call α → List α
  | .dlopen loads _ => loads
  | .dlopenFails loads _ _ _ => loads
  | .dlclose _ => []

def exec (w : World α τ) : Op α τ → Except Fault (World α τ)
  | .call c =>
    match step w.tls c with
    | .error stop => .error (.loader stop)
    | .ok s => .ok { w with
        tls := s
        offset := fun l => if l ∈ Call.mapped c then .none else w.offset l }
  | .allocateStatic l offset => do
      let slot ← slotAt w.tls.segments (w.tls.modid l)
      .ok { w with
        offset := Function.update w.offset l (.static offset)
        image := fun t => if (w.active t).isSome
          then Function.update (w.image t) offset (some (l, slot.gen)) else w.image t }
  | .update t m =>
    match w.active t with
    | none => .error .noThread
    | some d => do
        let x ← updateSlotinfo w.tls d w.heap m
        .ok (w.setThread t x.dtv x.heap)
  | .create t => allocateTlsInit w t (Dtv.allocate w.tls.maxDtvIdx)
  | .createCached t old =>
    match w.cached old with
    | none => .error .noThread
    | some d => do
        let heap ← freeEntries d w.heap
        let w := { w with cached := Function.update w.cached old none, heap := heap }
        allocateTlsInit w t ⟨0, d.len, fun _ => Entry.zero⟩
  | .exit t => .ok { w with
      active := Function.update w.active t none
      cached := Function.update w.cached t (w.active t) }
  | .deallocate t =>
    match w.cached t with
    | none => .error .noThread
    | some d => do
        let heap ← freeEntries d w.heap
        .ok { w with cached := Function.update w.cached t none, heap := heap }
  | .access t m => do
      let (w, _) ← tlsGetAddr w t m
      .ok w

end Access
end AwaitGlibc.ThreadTls

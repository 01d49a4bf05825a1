import Mathlib.Algebra.Order.Ring.Nat
import AwaitGlibc.CheckedArray
import AwaitGlibc.SelectionSort
import AwaitGlibc.VersionedRead

/-!
# The address-to-object table of `dl-find_object`

The objects a process opened while running are kept in two copies of a chain of
sorted arrays. Each segment of a chain holds higher addresses than the one before
it; the low bit of a version number says which of the two chains is in use. An
update merges the newly opened objects with those in use into the other chain,
backwards and in place, and then advances the number.

Memory is seen at the level of single loads and stores. A lookup is a tree of
loads; an update is the list of its stores in program order. A segment is
addressed by a pointer, which is the number of segments from it to the end of its
chain, so that a segment put in front leaves the others where they are; zero is
`NULL`, and the `previous` segment, which is constant, is at the pointer below.
-/
namespace AwaitGlibc.FindObject
open CheckedArray VersionedRead

inductive SegmentType where
  | load
  | ehFrame
  | other
deriving DecidableEq, Repr

structure Phdr where
  pType : SegmentType
  pVaddr : ℕ
  pMemsz : ℕ
deriving DecidableEq, Repr

inductive LinkType where
  | executable
  | library
  | loaded
deriving DecidableEq, Repr

/-- A link map, known by its own address, which is not `NULL`. -/
structure LinkMap where
  address : ℕ
  address_pos : 0 < address
  lAddr : ℕ
  lMapStart : ℕ
  lMapEnd : ℕ
  lPhdr : List Phdr
  lContiguous : Bool
  lType : LinkType
  lNodeleteActive : Bool
  lNs : ℕ
  lReal : ℕ
  lFindObjectProcessed : Bool
deriving DecidableEq, Repr

def LinkMap.isReal (l : LinkMap) : Bool := l.address == l.lReal

/-- `struct dl_find_object_internal`. -/
structure Entry where
  mapStart : ℕ
  mapEnd : ℕ
  map : ℕ
  ehFrame : ℕ
deriving DecidableEq, Repr

inductive Field where
  | mapStart
  | mapEnd
  | map
  | ehFrame
deriving DecidableEq, Repr

def Entry.get (e : Entry) : Field → ℕ
  | .mapStart => e.mapStart
  | .mapEnd => e.mapEnd
  | .map => e.map
  | .ehFrame => e.ehFrame

def Entry.set (e : Entry) : Field → ℕ → Entry
  | .mapStart, v => { e with mapStart := v }
  | .mapEnd, v => { e with mapEnd := v }
  | .map, v => { e with map := v }
  | .ehFrame, v => { e with ehFrame := v }

def Entry.Contains (e : Entry) (pc : ℕ) : Prop := e.mapStart ≤ pc ∧ pc < e.mapEnd

instance (e : Entry) (pc : ℕ) : Decidable (e.Contains pc) :=
  inferInstanceAs (Decidable (_ ∧ _))

def wrap (n : ℕ) : ℕ := n % 2 ^ 64

def dlFindObjectFromMap (l : LinkMap) : Entry where
  mapStart := l.lMapStart
  mapEnd := l.lMapEnd
  map := l.address
  ehFrame := match l.lPhdr.find? (·.pType == .ehFrame) with
    | some ph => wrap (ph.pVaddr + l.lAddr)
    | none => 0

/-! ## Looking an address up -/

section Lookup
variable {A : Type}

/-- The search for a lower bound in an array sorted by `mapStart`; `object` gives
the address of a field of an element. -/
def lowerBound (object : ℤ → Field → A) (pc : ℕ) : ℕ → ℕ → ℕ → Loads A ℕ ℕ
  | 0, first, _ => pure first
  | fuel + 1, first, size =>
    if size = 0 then pure first
    else do
      let half := size / 2
      let start ← Loads.fetch (object (first + half : ℕ) .mapStart)
      if start < pc then lowerBound object pc fuel (first + half + 1) (size - (half + 1))
      else lowerBound object pc fuel first half

/-- The element behind the lower bound, which is outside the array when the lower
bound is its first element. -/
def previousContains (object : ℤ → Field → A) (pc first : ℕ) : Loads A ℕ (Option ℤ) := do
  let mapEnd ← Loads.fetch (object ((first : ℤ) - 1) .mapEnd)
  return if pc < mapEnd then some ((first : ℤ) - 1) else none

def dlfoLookup (object : ℤ → Field → A) (pc size : ℕ) : Loads A ℕ (Option ℤ) := do
  let first ← lowerBound object pc size 0 size
  if first = size then previousContains object pc first
  else do
    let start ← Loads.fetch (object first .mapStart)
    if pc = start then do
      let mapEnd ← Loads.fetch (object first .mapEnd)
      -- a zero-length mapping is left by `dlclose`
      return if pc < mapEnd then some (first : ℤ) else none
    else previousContains object pc first

def dlFindObjectInternalCopy (object : Field → A) : Loads A ℕ Entry := do
  let mapStart ← Loads.fetch (object .mapStart)
  let mapEnd ← Loads.fetch (object .mapEnd)
  let map ← Loads.fetch (object .map)
  let ehFrame ← Loads.fetch (object .ehFrame)
  return ⟨mapStart, mapEnd, map, ehFrame⟩

end Lookup

/-! ## The two chains of segments -/

/-- `struct dlfo_mappings_segment`; `objects` are all the elements allocated. -/
structure Segment where
  size : ℕ
  objects : List Entry
deriving DecidableEq, Repr

def Segment.allocated (seg : Segment) : ℕ := seg.objects.length

/-- The segment a pointer into a chain points at. The newest segment comes
first. -/
def segmentAt : List Segment → ℕ → Option Segment
  | [], _ => none
  | seg :: previous, p => if p = previous.length + 1 then some seg else segmentAt previous p

def modifySegment (f : Segment → Segment) : List Segment → ℕ → List Segment
  | [], _ => []
  | seg :: previous, p =>
    if p = previous.length + 1 then f seg :: previous
    else seg :: modifySegment f previous p

/-- `_dlfo_loaded_mappings` and `_dlfo_loaded_mappings_version`. The version is the
number of updates; the counter holds it modulo `2 ^ 64`. -/
structure Mappings where
  chain0 : List Segment
  chain1 : List Segment
  version : ℕ
deriving DecidableEq, Repr

/-- The element of `_dlfo_loaded_mappings` that a version selects. -/
def activeIdx (version : ℕ) : Bool := version % 2 = 1

def Mappings.chain (m : Mappings) : Bool → List Segment
  | false => m.chain0
  | true => m.chain1

def Mappings.setChain (m : Mappings) (chain : List Segment) : Bool → Mappings
  | false => { m with chain0 := chain }
  | true => { m with chain1 := chain }

def Mappings.active (m : Mappings) : List Segment := m.chain (activeIdx m.version)

inductive Addr where
  | head (copy : Bool)
  | size (copy : Bool) (segment : ℕ)
  | object (copy : Bool) (segment : ℕ) (index : ℤ) (field : Field)
deriving DecidableEq, Repr

def Addr.copy : Addr → Bool
  | head copy => copy
  | size copy _ => copy
  | object copy _ _ _ => copy

def Segment.load (seg : Segment) (index : ℤ) (f : Field) : Option ℕ :=
  if index < 0 then none else (seg.objects[index.toNat]?).map (·.get f)

def Mappings.load (m : Mappings) : Addr → Option ℕ
  | .head copy => some (m.chain copy).length
  | .size copy p => (segmentAt (m.chain copy) p).map (·.size)
  | .object copy p index f => (segmentAt (m.chain copy) p).bind (·.load index f)

/-- The walk over the segments from pointer `p` on, which `_dl_find_object` and
`_dl_find_object_dlclose` share: the segment and the index of the element that
contains `pc`. -/
def locateObject (copy : Bool) (pc : ℕ) : ℕ → Loads Addr ℕ (Option (ℕ × ℤ))
  | 0 => pure none
  | p + 1 => do
      let segSize ← Loads.fetch (.size copy (p + 1))
      if segSize = 0 then pure none
      else do
        let base ← Loads.fetch (.object copy (p + 1) 0 .mapStart)
        if base ≤ pc then do
          let obj ← dlfoLookup (.object copy (p + 1)) pc segSize
          return obj.map fun i => (p + 1, i)
        else locateObject copy pc p

def locateActive (pc version : ℕ) : Loads Addr ℕ (Option (ℕ × ℤ)) := do
  let head ← Loads.fetch (.head (activeIdx version))
  locateObject (activeIdx version) pc head

/-- One attempt of the transaction in `_dl_find_object`, for a given version;
`none` is the answer `-1`. -/
def findLoaded (pc version : ℕ) : Loads Addr ℕ (Option Entry) := do
  match ← locateActive pc version with
  | some (p, i) => some <$> dlFindObjectInternalCopy (.object (activeIdx version) p i)
  | none => pure none

def Mappings.find (m : Mappings) (pc : ℕ) : Option (Option Entry) :=
  (findLoaded pc m.version).run m.load

/-! ## Stores -/

inductive Store where
  | head (copy : Bool) (seg : Segment)
  | size (copy : Bool) (segment : ℕ) (n : ℕ)
  | object (copy : Bool) (segment index : ℕ) (field : Field) (v : ℕ)
  | version
deriving DecidableEq, Repr

def Segment.setSize (n : ℕ) (seg : Segment) : Segment := { seg with size := n }

def Segment.setField (i : ℕ) (f : Field) (v : ℕ) (seg : Segment) : Segment :=
  { seg with objects := seg.objects.modify i (·.set f v) }

def Mappings.apply (m : Mappings) : Store → Except Stop Mappings
  | .head copy seg => .ok (m.setChain (seg :: m.chain copy) copy)
  | .size copy p n =>
    match segmentAt (m.chain copy) p with
    | some _ => .ok (m.setChain (modifySegment (Segment.setSize n) (m.chain copy) p) copy)
    | none => .error (.fault .nullPointer)
  | .object copy p i f v =>
    match segmentAt (m.chain copy) p with
    | some seg =>
      if i < seg.allocated then
        .ok (m.setChain (modifySegment (Segment.setField i f v) (m.chain copy) p) copy)
      else .error (.fault (.storeOutside seg.allocated i))
    | none => .error (.fault .nullPointer)
  | .version => .ok { m with version := m.version + 1 }

def Mappings.applyAll (m : Mappings) : List Store → Except Stop Mappings
  | [] => .ok m
  | w :: ws => do
      let m ← m.apply w
      m.applyAll ws

/-- The stores of `_dl_find_object_from_map` and of
`_dl_find_object_internal_copy` into an element. -/
def entryStores (copy : Bool) (p i : ℕ) (e : Entry) : List Store :=
  [.object copy p i .mapStart e.mapStart, .object copy p i .mapEnd e.mapEnd,
    .object copy p i .map e.map, .object copy p i .ehFrame e.ehFrame]

/-! ## Adding objects -/

def dlfoMappingsSegmentCountUsed : List Segment → ℕ
  | [] => 0
  | seg :: previous =>
    if seg.size = 0 then 0
    else (seg.objects.take seg.size).countP (·.map ≠ 0) + dlfoMappingsSegmentCountUsed previous

def dlfoMappingsSegmentCountAllocated (chain : List Segment) : ℕ :=
  (chain.map Segment.allocated).sum

/-- What `malloc` returns for a segment: nothing, or an address and whatever the
memory there happens to hold. -/
abbrev Malloc := Option (ℕ × (ℕ → Entry))

def dlfoMappingsInitialSegmentSize : ℕ := 63

def cacheLineSizeEstimate : ℕ := 128

/-- `sizeof (struct dlfo_mappings_segment)`, which has a flexible array at its
end, and the size of one element of the array. -/
def segmentHeaderSize : ℕ := 32

def elementSize : ℕ := 32

/-- Exponential sizing policy. -/
def minimumGrowth : List Segment → ℕ
  | [] => dlfoMappingsInitialSegmentSize
  | seg :: _ => 2 * seg.allocated

/-- The number of elements between two cache line boundaries in memory of `size`
bytes at `ptr`. -/
def alignedCapacity (ptr size : ℕ) : ℕ :=
  let stop := (ptr + size) / cacheLineSizeEstimate * cacheLineSizeEstimate
  let start := (ptr + cacheLineSizeEstimate - 1) / cacheLineSizeEstimate * cacheLineSizeEstimate
  (stop - start - segmentHeaderSize) / elementSize

def dlfoMappingsSegmentAllocate (size : ℕ) (previous : List Segment) (malloc : Malloc) :
    Except Stop (Option Segment) :=
  let size := if size < minimumGrowth previous then minimumGrowth previous else size
  let toAllocate := segmentHeaderSize + size * elementSize + 2 * cacheLineSizeEstimate
  match malloc with
  | none => .ok none
  | some (ptr, garbage) =>
    let allocated := alignedCapacity ptr toAllocate
    if size ≤ allocated then .ok (some ⟨0, (List.range allocated).map garbage⟩)
    else .error .assertion

/-- The size given to a segment that is about to be filled. -/
def dlfoUpdateInitSeg (seg : Segment) (remainingToAdd : ℕ) : ℕ :=
  if remainingToAdd < seg.allocated then remainingToAdd else seg.allocated

/-- Where the merge reads: `current` is the chain in use from `current_seg` on,
`NULL` being the empty one, and `loaded` is the part of the array below
`loaded_index1`, its last element first. -/
structure Source where
  current : List Segment
  currentIndex1 : ℕ
  loaded : List LinkMap

/-- Switch to the previous segment when the present one is used up. -/
def Source.switch (s : Source) : Source :=
  if s.currentIndex1 = 0 then
    match s.current with
    | _ :: seg :: older =>
      if seg.size = 0 then { s with current := [] }
      else { s with current := seg :: older, currentIndex1 := seg.size }
    | _ => { s with current := [] }
  else s

/-- The element before the index, `none` when `current_seg` is `NULL`. -/
def Source.currentObject (s : Source) : Except Stop (Option Entry) :=
  match s.current with
  | [] => .ok none
  | seg :: _ =>
    match s.currentIndex1 with
    | 0 => .error (.fault (.loadOutside seg.allocated 0))
    | i + 1 =>
      match seg.objects[i]? with
      | some e => .ok (some e)
      | none => .error (.fault (.loadOutside seg.allocated i))

def Source.consumeCurrent (s : Source) : Source := { s with currentIndex1 := s.currentIndex1 - 1 }

def Source.consumeLoaded (s : Source) : Source := { s with loaded := s.loaded.tail }

/-- Where the merge writes: the chain from `target_seg` on, the index in that
segment and the number of elements still to come. -/
structure Target where
  chain : List Segment
  index1 : ℕ
  remainingToAdd : ℕ

/-- Make room for another mapping: if the segment is full, switch and set the size
of the next one. -/
def Target.makeRoom (copy : Bool) (t : Target) : Except Stop (List Store × Target) :=
  if t.remainingToAdd = 0 then .error .assertion
  else if t.index1 = 0 then
    match t.chain with
    | _ :: seg :: older =>
      let n := dlfoUpdateInitSeg seg t.remainingToAdd
      .ok ([.size copy (older.length + 1) n], { t with chain := seg :: older, index1 := n })
    | _ => .error (.fault .nullPointer)
  else .ok ([], t)

/-- Write `e` below the index and consume the space. -/
def Target.place (copy : Bool) (e : Entry) (t : Target) : Except Stop (List Store × Target) := do
  let (ws, t) ← t.makeRoom copy
  match t.index1 with
  | 0 => .error (.fault (.storeOutside 0 0))
  | i + 1 =>
    return (ws ++ entryStores copy t.chain.length i e,
      { t with index1 := i, remainingToAdd := t.remainingToAdd - 1 })

inductive Choice where
  | finish
  | skipClosed
  | takeCurrent (e : Entry)
  | takeLoaded (l : LinkMap)

def choose : Option Entry → List LinkMap → Choice
  | none, [] => .finish
  | none, l :: _ => .takeLoaded l
  | some e, loaded =>
    if e.map = 0 then .skipClosed
    else
      match loaded with
      | [] => .takeCurrent e
      | l :: _ => if l.lMapStart < e.mapStart then .takeCurrent e else .takeLoaded l

/-- The merge, in decreasing order of addresses: its stores and the target after
it. -/
def mergeLoop (copy : Bool) : ℕ → Source → Target → Except Stop (List Store × Target)
  | 0, _, _ => .error (.fault .outOfFuel)
  | fuel + 1, s, t => do
      let s := s.switch
      match choose (← s.currentObject) s.loaded with
      | .finish => return ([], t)
      | .skipClosed => mergeLoop copy fuel s.consumeCurrent t
      | .takeCurrent e => do
          let (ws, t) ← t.place copy e
          let (rest, t) ← mergeLoop copy fuel s.consumeCurrent t
          return (ws ++ rest, t)
      | .takeLoaded l => do
          let (ws, t) ← t.place copy (dlFindObjectFromMap l)
          let (rest, t) ← mergeLoop copy fuel s.consumeLoaded t
          return (ws ++ rest, t)

/-- Iterations the merge can make: one for each element of either source and one
to leave. -/
def mergeFuel (current : List Segment) (loaded : List LinkMap) : ℕ :=
  (current.map Segment.size).sum + loaded.length + 1

def Source.start (current : List Segment) (loaded : List LinkMap) : Source where
  current := current
  currentIndex1 := match current with
    | [] => 0
    | seg :: _ => seg.size
  loaded := loaded.reverse

/-- Prevent searching further into unused segments. -/
def clearPrevious (copy : Bool) : List Segment → List Store
  | _ :: _ :: older => [.size copy (older.length + 1) 0]
  | _ => []

/-- The body of an update once the target chain has room: every store of it, the
advance of the version last. -/
def updateStores (copy : Bool) (current target : List Segment) (loaded : List LinkMap)
    (remainingToAdd : ℕ) : Except Stop (List Store) :=
  match target with
  | [] => .error (.fault .nullPointer)
  | seg :: _ => do
      let n := dlfoUpdateInitSeg seg remainingToAdd
      let (ws, t) ← mergeLoop copy (mergeFuel current loaded) (Source.start current loaded)
        ⟨target, n, remainingToAdd⟩
      if t.remainingToAdd ≠ 0 then .error .assertion
      else if t.index1 ≠ 0 then .error .assertion
      else
        return .size copy target.length n :: (ws ++ (clearPrevious copy t.chain ++ [.version]))

/-- The stores of an update, or `none` when there is no memory for it. -/
def dlFindObjectUpdate1 (m : Mappings) (loaded : List LinkMap) (malloc : Malloc) :
    Except Stop (Option (List Store)) := do
  let active := activeIdx m.version
  let current := m.active
  let target := m.chain !active
  let remainingToAdd := dlfoMappingsSegmentCountUsed current + loaded.length
  let newAllocated := dlfoMappingsSegmentCountAllocated target
  if newAllocated < remainingToAdd then
    match ← dlfoMappingsSegmentAllocate (remainingToAdd - newAllocated) target malloc with
    | none => return none
    | some seg => do
        let ws ← updateStores (!active) current (seg :: target) loaded remainingToAdd
        return some (.head (!active) seg :: ws)
  else do
    let ws ← updateStores (!active) current target loaded remainingToAdd
    return some ws

def LinkMap.isNew (l : LinkMap) : Bool := l.isReal && !l.lFindObjectProcessed

/-- The stores of `_dl_find_object_update` for the link maps from the new one on.
`arrayFits` says whether there was memory for the array that is sorted; `none`
when the update returns false. -/
def dlFindObjectUpdate (m : Mappings) (newMap : List LinkMap) (arrayFits : Bool)
    (malloc : Malloc) : Except Stop (Option (List Store)) :=
  if arrayFits then
    let mapArray := newMap.filter LinkMap.isNew
    if mapArray.length = 0 then .ok (some [])
    else dlFindObjectUpdate1 m (SelectionSort.sort LinkMap.lMapStart mapArray) malloc
  else .ok none

/-! ## Removing an object -/

/-- The stores of `_dl_find_object_dlclose`, which marks the element as closed
without a change of version. -/
def dlFindObjectDlclose (m : Mappings) (map : LinkMap) : Except Stop (List Store) :=
  let copy := activeIdx m.version
  match (locateActive map.lMapStart m.version).run m.load with
  | none => .error (.fault (.loadOutside 0 0))
  | some none => .ok []
  | some (some (p, i)) =>
    match m.load (.object copy p i .mapStart) with
    | none => .error (.fault (.loadOutside 0 0))
    | some start => .ok [.object copy p i.toNat .mapEnd start, .object copy p i.toNat .map 0]

/-! ## Runs -/

/-- What a process does to the table after the start: opening objects, with what
the two allocations of the update give, and closing one. -/
inductive Op where
  | dlopen (newMap : List LinkMap) (arrayFits : Bool) (malloc : Malloc)
  | dlclose (map : LinkMap)

def Mappings.step (m : Mappings) : Op → Except Stop (Bool × Mappings)
  | .dlopen newMap arrayFits malloc => do
      match ← dlFindObjectUpdate m newMap arrayFits malloc with
      | none => return (false, m)
      | some ws => return (true, ← m.applyAll ws)
  | .dlclose map => do
      let ws ← dlFindObjectDlclose m map
      return (true, ← m.applyAll ws)

end AwaitGlibc.FindObject

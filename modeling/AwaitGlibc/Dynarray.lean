import AwaitGlibc.CheckedArray
import AwaitGlibc.SizeT
import Mathlib

/-!
# Dynamic arrays

One inclusion of `malloc/dynarray-skeleton.c` with the three functions it shares
with every other inclusion, `__libc_dynarray_emplace_enlarge`,
`__libc_dynarray_resize` and `__libc_dynarray_finalize`. Sizes are `size_t` with
its wrapping arithmetic. The storage of an array is the scratch space inside the
object or an allocated block; every access to it is checked against the cells
the storage has, and a block is freed at most once.

An allocation is granted or refused from outside, call by call; a request of
more than `PTRDIFF_MAX` bytes is refused always, as `checked_request2size` does.
-/
namespace AwaitGlibc.Dynarray
open CheckedArray (Block)

/-- `PTRDIFF_MAX`: no object is larger. -/
def ptrdiffMax : ℕ := 2 ^ 63 - 1

/-- The macros an inclusion of the skeleton defines. -/
structure Config (α : Type) where
  /-- `sizeof (DYNARRAY_ELEMENT)` -/
  elementSize : UInt64
  /-- `DYNARRAY_INITIAL_SIZE` -/
  initialSize : UInt64
  /-- What `DYNARRAY_ELEMENT_INIT` stores, if it is defined. -/
  elementInit : Option α
  /-- Whether `DYNARRAY_ELEMENT_FREE` is defined. -/
  elementFree : Bool
  /-- The element all of whose bytes are zero. -/
  zero : α
  elementSize_pos : 0 < elementSize.toNat
  scratch_le : initialSize.toNat * elementSize.toNat ≤ ptrdiffMax

/-- What ends a run outside the meaning of the language. -/
inductive Fault where
  | nullPointer
  | outside
  | dangling
  | invalidFree
deriving DecidableEq, Repr

inductive Pointer where
  | null
  | scratch
  | heap (id : ℕ)
deriving DecidableEq, Repr

/-- The object with the memory its pointers reach. An element nothing has
written is `none`. `freed` lists the elements `DYNARRAY_ELEMENT_FREE` was
called with. -/
structure State (α : Type) where
  used : UInt64
  allocated : UInt64
  array : Pointer
  scratch : Block α
  heap : ℕ → Option (Block α)
  next : ℕ
  freed : List (Option α)

def errorMarker : UInt64 := -1

variable {α : Type} (c : Config α)

/-! ### Memory -/

namespace State

def deref (s : State α) : Pointer → Except Fault (Block α)
  | .null => .error .nullPointer
  | .scratch => .ok s.scratch
  | .heap id =>
    match s.heap id with
    | some b => .ok b
    | none => .error .dangling

def put (s : State α) (b : Block α) : Pointer → State α
  | .null => s
  | .scratch => { s with scratch := b }
  | .heap id => { s with heap := Function.update s.heap id (some b) }

def load (s : State α) (p : Pointer) (i n : ℕ) : Except Fault (List (Option α)) :=
  if n = 0 then .ok []
  else do
    let b ← s.deref p
    if i + n ≤ b.size then .ok ((b.cells.drop i).take n) else .error .outside

def store (s : State α) (p : Pointer) (i : ℕ) (as : List (Option α)) : Except Fault (State α) :=
  if as = [] then .ok s
  else do
    let b ← s.deref p
    if i + as.length ≤ b.size then
      .ok (s.put ⟨b.cells.take i ++ as ++ b.cells.drop (i + as.length)⟩ p)
    else .error .outside

def freeBlock (s : State α) : Pointer → Except Fault (State α)
  | .null => .ok s
  | .scratch => .error .invalidFree
  | .heap id =>
    match s.heap id with
    | some _ => .ok { s with heap := Function.update s.heap id none }
    | none => .error .dangling

def newBlock (s : State α) (b : Block α) : State α :=
  { s with heap := Function.update s.heap s.next (some b), next := s.next + 1 }

end State

/-- Whether `malloc` and `realloc` give `bytes` bytes. -/
def granted (grant : Bool) (bytes : UInt64) : Bool :=
  grant && bytes.toNat ≤ ptrdiffMax

def Config.cellsOf (bytes : UInt64) : ℕ := bytes.toNat / c.elementSize.toNat

def malloc (grant : Bool) (bytes : UInt64) (s : State α) : Pointer × State α :=
  if granted grant bytes then (.heap s.next, s.newBlock (.alloc (c.cellsOf bytes)))
  else (.null, s)

def memcpy (dst src : Pointer) (bytes : UInt64) (s : State α) : Except Fault (State α) := do
  let as ← s.load src 0 (c.cellsOf bytes)
  s.store dst 0 as

/-- `realloc (p, bytes)` for a `p` that is not null. A block that moves or grows
in place is a new block; the old pointer is then invalid either way. -/
def realloc (grant : Bool) (p : Pointer) (bytes : UInt64) (s : State α) :
    Except Fault (Pointer × State α) := do
  if bytes = 0 then
    let s ← s.freeBlock p
    .ok (.null, s)
  else if granted grant bytes then
    let b ← s.deref p
    let s ← s.freeBlock p
    .ok (.heap s.next, s.newBlock (b.realloc (c.cellsOf bytes)))
  else .ok (.null, s)

/-- `INT_MULTIPLY_WRAPV`: the product, unless it wraps. -/
def multiplyWrapv (a b : UInt64) : Option UInt64 :=
  if a.toNat * b.toNat < 2 ^ 64 then some (a * b) else none

/-! ### The shared functions -/

def Config.scratch : Pointer :=
  if c.initialSize = 0 then .null else .scratch

/-- A new array of `bytes` bytes with the elements of the old one. -/
def newArrayBytes (grant : Bool) (bytes : UInt64) (s : State α) :
    Except Fault (Pointer × State α) :=
  if s.array = c.scratch then
    -- The previous array was not heap-allocated.
    let r := malloc c grant bytes s
    if r.1 ≠ .null ∧ s.array ≠ .null then do
      let t ← memcpy c r.1 s.array (s.used * c.elementSize) r.2
      .ok (r.1, t)
    else .ok r
  else realloc c grant s.array bytes s

/-- A new array of `n` elements, null if its size in bytes wraps or is refused.
`__libc_dynarray_emplace_enlarge` and `__libc_dynarray_resize` have this part in
common. -/
def newArray (grant : Bool) (n : UInt64) (s : State α) : Except Fault (Pointer × State α) :=
  match multiplyWrapv n c.elementSize with
  | none => .ok (.null, s)
  | some bytes => newArrayBytes c grant bytes s

/-- The size to which a full array grows; `none` if it wraps. -/
def newAllocated (allocated : UInt64) : Option UInt64 :=
  if allocated = 0 then
    some (if c.elementSize < 4 then 16 else if c.elementSize < 8 then 8 else 4)
  else
    let n := allocated + allocated / 2 + 1
    if n ≤ allocated then none else some n

def emplaceEnlarge (grant : Bool) (s : State α) : Except Fault (Bool × State α) :=
  match newAllocated c s.allocated with
  | none => .ok (false, s)
  | some n => do
    let (p, s) ← newArray c grant n s
    if p = .null then .ok (false, s)
    else .ok (true, { s with array := p, allocated := n })

def libcResize (grant : Bool) (size : UInt64) (s : State α) : Except Fault (Bool × State α) :=
  if size ≤ s.allocated then .ok (true, { s with used := size })
  else do
    let (p, s) ← newArray c grant size s
    if p = .null then .ok (false, s)
    else .ok (true, { s with array := p, allocated := size, used := size })

def resizeClear (grant : Bool) (size : UInt64) (s : State α) : Except Fault (Bool × State α) := do
  let oldSize := s.used
  let (ok, s) ← libcResize c grant size s
  if ok then
    let s ← s.store s.array (c.cellsOf (oldSize * c.elementSize))
      (List.replicate (c.cellsOf ((size - oldSize) * c.elementSize)) (some c.zero))
    .ok (true, s)
  else .ok (false, s)

/-- `free__array__`, also part of `__libc_dynarray_finalize`. -/
def freeArray (s : State α) : Except Fault (State α) :=
  if s.array ≠ c.scratch then s.freeBlock s.array else .ok s

def copyElements (dst : Pointer) (bytes : UInt64) (s : State α) : Except Fault (State α) :=
  if s.array ≠ .null then memcpy c dst s.array bytes s else .ok s

/-- `__libc_dynarray_finalize`; the array and the length of the result, or
`none` for a failure. -/
def libcFinalize (grant : Bool) (s : State α) :
    Except Fault (Option (Pointer × UInt64) × State α) :=
  if s.allocated = errorMarker then .ok (none, s)
  else if s.used = 0 then do
    let s ← freeArray c s
    .ok (some (.null, 0), s)
  else
    let size := s.used * c.elementSize
    let r := malloc c grant size s
    if r.1 ≠ .null then do
      let t ← copyElements c r.1 size r.2
      let t ← freeArray c t
      .ok (some (r.1, s.used), t)
    else .ok (none, s)

/-! ### The skeleton -/

/-- `free__elements__` on the `n` elements from `array + i` on. -/
def freeElements (i n : ℕ) (s : State α) : Except Fault (State α) :=
  if c.elementFree then do
    let as ← s.load s.array i n
    .ok { s with freed := s.freed ++ as }
  else .ok s

def init (s : State α) : State α :=
  { s with used := 0, allocated := c.initialSize, array := c.scratch }

def free (s : State α) : Except Fault (State α) := do
  let s ← freeElements c 0 s.used.toNat s
  let s ← freeArray c s
  .ok (init c s)

def hasFailed (s : State α) : Bool := s.allocated = errorMarker

def markFailed (s : State α) : Except Fault (State α) := do
  let s ← freeElements c 0 s.used.toNat s
  let s ← freeArray c s
  .ok { s with array := c.scratch, used := 0, allocated := errorMarker }

def append (item : Option α) (s : State α) : Except Fault (State α) := do
  let s ← s.store s.array s.used.toNat [item]
  .ok { s with used := s.used + 1 }

def addSlow (grant : Bool) (item : α) (s : State α) : Except Fault (State α) := do
  let (ok, s) ← emplaceEnlarge c grant s
  if ok then append (some item) s else markFailed c s

def add (grant : Bool) (item : α) (s : State α) : Except Fault (State α) :=
  if hasFailed s then .ok s
  else if s.used = s.allocated then addSlow c grant item s
  else append (some item) s

/-- What the skeleton stores in a new element: what `DYNARRAY_ELEMENT_INIT`
stores, zero bytes if elements are freed, and otherwise nothing. -/
def Config.initial : Option α :=
  match c.elementInit with
  | some a => some a
  | none => if c.elementFree then some c.zero else none

def initElement (s : State α) : Except Fault (State α) :=
  match c.initial with
  | some a => s.store s.array s.used.toNat [some a]
  | none => .ok s

/-- `emplace__tail__`; the index of the new element. -/
def emplaceTail (s : State α) : Except Fault (Option UInt64 × State α) := do
  let t ← initElement c s
  .ok (some s.used, { t with used := s.used + 1 })

def emplaceSlow (grant : Bool) (s : State α) : Except Fault (Option UInt64 × State α) := do
  let (ok, s) ← emplaceEnlarge c grant s
  if ok then emplaceTail c s
  else
    let s ← markFailed c s
    .ok (none, s)

def emplace (grant : Bool) (s : State α) : Except Fault (Option UInt64 × State α) :=
  if hasFailed s then .ok (none, s)
  else if s.used = s.allocated then emplaceSlow c grant s
  else emplaceTail c s

/-- The call by which `resize` enlarges: the new elements are initialized, or
cleared if they can be freed, or left as they are. -/
def enlarge (grant : Bool) (size : UInt64) (s : State α) : Except Fault (Bool × State α) :=
  match c.elementInit with
  | some a => do
    let oldSize := s.used
    let (ok, s) ← libcResize c grant size s
    if ok then
      let s ← s.store s.array oldSize.toNat
        (List.replicate (size.toNat - oldSize.toNat) (some a))
      .ok (true, s)
    else .ok (false, s)
  | none => if c.elementFree then resizeClear c grant size s else libcResize c grant size s

def resize (grant : Bool) (size : UInt64) (s : State α) : Except Fault (Bool × State α) :=
  if s.used < size then do
    let (ok, s) ← enlarge c grant size s
    if ok then .ok (true, s)
    else
      let s ← markFailed c s
      .ok (false, s)
  else do
    let s ← freeElements c size.toNat (s.used - size).toNat s
    .ok (true, { s with used := size })

def removeLast (s : State α) : Except Fault (State α) :=
  if 0 < s.used then do
    let newLength := s.used - 1
    let s ← freeElements c newLength.toNat 1 s
    .ok { s with used := newLength }
  else .ok s

def clear (s : State α) : Except Fault (State α) := do
  let s ← freeElements c 0 s.used.toNat s
  .ok { s with used := 0 }

def finalize (grant : Bool) (s : State α) :
    Except Fault (Option (Pointer × UInt64) × State α) := do
  let (r, s) ← libcFinalize c grant s
  match r with
  | some result => .ok (some result, init c s)
  | none =>
    let s ← free c s
    .ok (none, s)

/-! ### Runs -/

/-- A call on the array. After `emplace` the caller may store an element through
the pointer it got. -/
inductive Op (α : Type) where
  | add (item : α)
  | emplace (item : Option α)
  | resize (size : UInt64)
  | removeLast
  | clear
  | finalize
  | free
  | markFailed
deriving DecidableEq, Repr

/-- What the caller sees of a call: whether it got a place or the size asked
for, and the elements it reads from a final array. -/
inductive Outcome (α : Type) where
  | done
  | placed (ok : Bool)
  | resized (ok : Bool)
  | final (elements : Option (List (Option α)))
deriving DecidableEq, Repr

def callEmplace (grant : Bool) (item : Option α) (s : State α) :
    Except Fault (Outcome α × State α) := do
  let (place, s) ← emplace c grant s
  match place, item with
  | some i, some a =>
    let s ← s.store s.array i.toNat [some a]
    .ok (.placed true, s)
  | some _, none => .ok (.placed true, s)
  | none, _ => .ok (.placed false, s)

def callFinalize (grant : Bool) (s : State α) : Except Fault (Outcome α × State α) := do
  let (r, s) ← finalize c grant s
  match r with
  | some (p, n) =>
    let as ← s.load p 0 n.toNat
    .ok (.final (some as), s)
  | none => .ok (.final none, s)

def step (grant : Bool) (s : State α) : Op α → Except Fault (Outcome α × State α)
  | .add item => (add c grant item s).map (.done, ·)
  | .emplace item => callEmplace c grant item s
  | .resize size => (resize c grant size s).map fun r => (.resized r.1, r.2)
  | .removeLast => (removeLast c s).map (.done, ·)
  | .clear => (clear c s).map (.done, ·)
  | .finalize => callFinalize c grant s
  | .free => (free c s).map (.done, ·)
  | .markFailed => (markFailed c s).map (.done, ·)

def start : State α :=
  init c ⟨0, 0, .null, .alloc c.initialSize.toNat, fun _ => none, 0, []⟩

end AwaitGlibc.Dynarray

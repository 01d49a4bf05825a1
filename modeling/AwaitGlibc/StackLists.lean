import AwaitGlibc.RingList

/-! The lists of thread stacks: `dl_stack_used`, `dl_stack_cache` and `dl_stack_user`. The
operations of one thread are sequences of single stores, so that a `fork` in another thread
can fall between any two of them; `reclaim_stacks` runs in the child as a whole. -/
namespace AwaitGlibc.StackLists
open RingList

/-- The `list_t` cells: three list heads, and one in each `struct pthread`. -/
inductive Cell
  | used | cache | user
  | thread (id : ℕ)
deriving DecidableEq, Repr

/-- What `struct pthread` says about a stack for good. -/
structure Blocks where
  size : ℕ → UInt64
  userStack : ℕ → Bool

/-- The thread-specific data of a thread: the first block and the pointers to the others. -/
structure Specific where
  used : Bool
  first : List ℕ
  others : List (Option (List ℕ))
deriving DecidableEq, Repr

/-- The memory of the process as far as the lists and their repair use it. -/
structure Heap where
  links : Links Cell
  /-- `dl_in_flight_stack`: an element, and whether it is being added. -/
  inFlight : Option (Cell × Bool)
  actsize : UInt64
  tid : ℕ → ℤ
  specific : ℕ → Specific

/-- One store of the program, computed from the memory as it is. -/
abbrev Store := Heap → Heap

def Heap.setNext (h : Heap) (c v : Cell) : Heap :=
  { h with links := { h.links with next := Function.update h.links.next c v } }

def Heap.setPrev (h : Heap) (c v : Cell) : Heap :=
  { h with links := { h.links with prev := Function.update h.links.prev c v } }

def run (stores : List Store) (h : Heap) : Heap := stores.foldl (fun h store => store h) h

/-! ### `list.h` -/

def listAdd (newp head : Cell) : List Store :=
  [fun h => h.setNext newp (h.links.next head),
   fun h => h.setPrev newp head,
   fun h => h.setPrev (h.links.next head) newp,
   fun h => h.setNext head newp]

def listDel (elem : Cell) : List Store :=
  [fun h => h.setPrev (h.links.next elem) (h.links.prev elem),
   fun h => h.setNext (h.links.prev elem) (h.links.next elem)]

def listSplice (add head : Cell) (h : Heap) : Heap :=
  if add ≠ h.links.next add then
    run [fun h => h.setPrev (h.links.next add) head,
         fun h => h.setNext (h.links.prev add) (h.links.next head),
         fun h => h.setPrev (h.links.next head) (h.links.prev add),
         fun h => h.setNext head (h.links.next add)] h
  else h

def initListHead (c : Cell) (h : Heap) : Heap := (h.setPrev c c).setNext c c

/-! ### `nptl-stack.c` and `allocatestack.c` -/

/-- What a thread does to the lists while it holds `dl_stack_cache_lock`. -/
inductive Action
  /-- `__nptl_stack_list_add`. -/
  | add (elem : ℕ) (list : Cell)
  /-- `__nptl_stack_list_del`. -/
  | del (elem : ℕ)
  /-- A new value of `dl_stack_cache_actsize`. -/
  | account (size : UInt64)
deriving DecidableEq

def setInFlight (v : Option (Cell × Bool)) : Store := fun h => { h with inFlight := v }

def Action.stores : Action → List Store
  | .add elem list =>
    setInFlight (some (.thread elem, true)) :: (listAdd (.thread elem) list ++ [setInFlight none])
  | .del elem =>
    setInFlight (some (.thread elem, false)) :: (listDel (.thread elem) ++ [setInFlight none])
  | .account size => [fun h => { h with actsize := size }]

def Action.run (action : Action) (h : Heap) : Heap := StackLists.run action.stores h

section Calls

variable (blocks : Blocks)

/-- The search of `get_cached_stack`; `none` when `fuel` passes did not end it. -/
def searchCache (size : UInt64) (h : Heap) : ℕ → Cell → Option ℕ → Option (Option ℕ)
  | 0, _, _ => none
  | _ + 1, .cache, result => some result
  | fuel + 1, .thread curr, result =>
    if h.tid curr ≤ 0 ∧ blocks.size curr ≥ size then
      if blocks.size curr = size then some (some curr)
      else if result.all fun result => blocks.size result > blocks.size curr then
        searchCache size h fuel (h.links.next (.thread curr)) (some curr)
      else searchCache size h fuel (h.links.next (.thread curr)) result
    else searchCache size h fuel (h.links.next (.thread curr)) result
  | fuel + 1, entry, result => searchCache size h fuel (h.links.next entry) result

def getCachedStack (fuel : ℕ) (size : UInt64) (h : Heap) : Option (List Action) := do
  match ← searchCache blocks size h fuel (h.links.next .cache) none with
  | none => return []
  | some result =>
    if blocks.size result > 4 * size then return []
    else return [.del result, .add result .used, .account (h.actsize - blocks.size result)]

/-- The loop of `__nptl_free_stacks` from the end of the list. -/
def freeStacksFrom (limit : UInt64) : ℕ → Heap → Cell → Cell → Option (List Action)
  | 0, _, _, _ => none
  | _ + 1, _, .cache, _ => some []
  | fuel + 1, h, .thread curr, prev =>
    if h.tid curr ≤ 0 then do
      let account := Action.account (h.actsize - blocks.size curr)
      let h := account.run ((Action.del curr).run h)
      if h.actsize ≤ limit then return [.del curr, account]
      else
        let rest ← freeStacksFrom limit fuel h prev (h.links.prev prev)
        return .del curr :: account :: rest
    else freeStacksFrom limit fuel h prev (h.links.prev prev)
  | fuel + 1, h, _, prev => freeStacksFrom limit fuel h prev (h.links.prev prev)

def freeStacks (fuel : ℕ) (limit : UInt64) (h : Heap) : Option (List Action) :=
  freeStacksFrom blocks limit fuel h (h.links.prev .cache) (h.links.prev (h.links.prev .cache))

def queueStack (fuel : ℕ) (maxsize : UInt64) (stack : ℕ) (h : Heap) : Option (List Action) := do
  let account := Action.account (h.actsize + blocks.size stack)
  let h := account.run ((Action.add stack .cache).run h)
  if h.actsize > maxsize then
    let rest ← freeStacks blocks fuel maxsize h
    return .add stack .cache :: account :: rest
  else return [.add stack .cache, account]

/-! ### `reclaim_stacks` -/

/-- The repair of an operation that was interrupted; `none` when the assertion fails. -/
def repair (h : Heap) : Option Heap :=
  match h.inFlight with
  | none => some h
  | some (elem, true) => do
    let l : Option Cell :=
      if h.links.prev (h.links.next .used) ≠ .used then some .used
      else if h.links.prev (h.links.next .cache) ≠ .cache then some .cache
      else none
    let h ← match l with
      | none => some h
      | some l =>
        if h.links.prev (h.links.next l) = elem then
          some (((h.setNext elem (h.links.next l)).setPrev elem l).setNext l elem)
        else none
    return { h with inFlight := none }
  | some (elem, false) => some { run (listDel elem) h with inFlight := none }

def Specific.clear (specific : Specific) : Specific :=
  if specific.used then
    { used := specific.others.any Option.isSome
      first := specific.first.map fun _ => 0
      others := specific.others.map (Option.map (List.map fun _ => 0)) }
  else specific

/-- A stack that nothing runs on any more. -/
def Heap.release (h : Heap) (curp : ℕ) : Heap :=
  { h with
    tid := Function.update h.tid curp 0
    actsize := h.actsize + blocks.size curp
    specific := Function.update h.specific curp (h.specific curp).clear }

/-- The loop over `dl_stack_used`; `none` when `fuel` passes did not end it. -/
def markFree (self : ℕ) : ℕ → Cell → Heap → Option Heap
  | 0, _, _ => none
  | _ + 1, .used, h => some h
  | fuel + 1, .thread curp, h =>
    if curp ≠ self then markFree self fuel (h.links.next (.thread curp)) (h.release blocks curp)
    else markFree self fuel (h.links.next (.thread curp)) h
  | fuel + 1, runp, h => markFree self fuel (h.links.next runp) h

def reclaimStacks (fuel self : ℕ) (h : Heap) : Option Heap := do
  let h ← repair h
  let h ← markFree blocks self fuel (h.links.next .used) h
  let h := listSplice .used .cache h
  let h := run (listDel (.thread self)) h
  let h := initListHead .user (initListHead .used h)
  if blocks.userStack self then return run (listAdd (.thread self) .user) h
  else return run (listAdd (.thread self) .used) h

end Calls

end AwaitGlibc.StackLists

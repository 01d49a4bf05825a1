import AwaitGlibc.ByteLayout
import AwaitGlibc.ByteMemory
import AwaitGlibc.StatefulMerge

/-! `msort_with_tmp` and the merge sort path of `__qsort_r`, over a flat memory in
which only the array and the temporary buffer may be touched.

The comparison function gets the bytes of the two elements and a state of its own. The
sequence of calls is fixed by the answers, so a comparison that looks at its pointers,
counts its calls or answers at random is such a function too. -/
namespace AwaitGlibc.Msort
open ByteMemory StatefulMerge

/-- `sizeof (void *)`, `sizeof (uint64_t)` and `sizeof (unsigned long)`. -/
def wordSize : ℕ := 8

/-- The values of `p->var`. -/
inductive Var
  | word32 | word64 | words | pointers | bytes
deriving DecidableEq, Repr

/-- `struct msort_param`; `object` is the size of what the comparison reads. -/
structure Param (σ : Type) where
  s : ℕ
  var : Var
  cmp : Compare Bytes σ
  t : ℕ
  object : ℕ

section Sorting

variable {σ : Type} (areas : List Area)

/-- `while (tmpl < (unsigned long *) tmp) *tmpl++ = *bl++;` with `left` bytes to go. -/
def copyWords (m : Memory) (tmpl bl left : ℕ) : Except Fault Memory :=
  if _h : left = 0 then .ok m
  else do
    let m ← memcpy areas m tmpl bl wordSize
    copyWords m (tmpl + wordSize) (bl + wordSize) (left - wordSize)
termination_by left
decreasing_by
  unfold wordSize
  omega

def Param.stride (p : Param σ) : ℕ :=
  match p.var with
  | .word32 => 4
  | .word64 => 8
  | .pointers => wordSize
  | .words | .bytes => p.s

def Param.copy (p : Param σ) (m : Memory) (tmp src : ℕ) : Except Fault Memory :=
  match p.var with
  | .word32 => memcpy areas m tmp src 4
  | .word64 => memcpy areas m tmp src 8
  | .pointers => memcpy areas m tmp src wordSize
  | .words => copyWords areas m tmp src p.s
  | .bytes => memcpy areas m tmp src p.s

/-- What the comparison sees of the element at an address. -/
def Param.view (p : Param σ) (m : Memory) (b : ℕ) : Except Fault Bytes :=
  match p.var with
  | .pointers => do
    let pointer ← load areas m b wordSize
    load areas m (ByteLayout.decode pointer) p.object
  | _ => load areas m b p.object

/-- The state behind the merging loop. -/
structure Merged (σ : Type) where
  m : Memory
  st : σ
  b1 : ℕ
  n1 : ℕ
  n2 : ℕ
  tmp : ℕ

/-- `while (n1 > 0 && n2 > 0)`. -/
def Param.merge (p : Param σ) (m : Memory) (st : σ) (b1 : ℕ) : ℕ → ℕ → ℕ → ℕ →
    Except Fault (Merged σ)
  | n1 + 1, b2, n2 + 1, tmp => do
    let x ← p.view areas m b1
    let y ← p.view areas m b2
    let answer := p.cmp x y st
    if answer.1 ≤ 0 then
      let m ← p.copy areas m tmp b1
      p.merge m answer.2 (b1 + p.stride) n1 b2 (n2 + 1) (tmp + p.stride)
    else
      let m ← p.copy areas m tmp b2
      p.merge m answer.2 b1 (n1 + 1) (b2 + p.stride) n2 (tmp + p.stride)
  | n1, _, n2, tmp => .ok ⟨m, st, b1, n1, n2, tmp⟩
termination_by n1 _ n2 _ => n1 + n2

/-- `if (n1 > 0) memcpy (tmp, b1, n1 * s);` -/
def Merged.copyRest (merged : Merged σ) (s : ℕ) : Except Fault Memory :=
  if merged.n1 > 0 then memcpy areas merged.m merged.tmp merged.b1 (merged.n1 * s)
  else .ok merged.m

/-- The merge of the `n1` elements at `b` with the `n2` behind them, from `char *tmp = p->t` on. -/
def Param.mergeBack (p : Param σ) (m : Memory) (b n n1 n2 : ℕ) (st : σ) :
    Except Fault (Memory × σ) := do
  let merged ← p.merge areas m st b n1 (b + n1 * p.s) n2 p.t
  let m ← merged.copyRest areas p.s
  let m ← memcpy areas m b p.t ((n - merged.n2) * p.s)
  return (m, merged.st)

def msortWithTmp (p : Param σ) (m : Memory) (b n : ℕ) (st : σ) : Except Fault (Memory × σ) :=
  if _h : n ≤ 1 then .ok (m, st)
  else do
    let n1 := n / 2
    let n2 := n - n1
    let (m, st) ← msortWithTmp p m b n1 st
    let (m, st) ← msortWithTmp p m (b + n1 * p.s) n2 st
    p.mergeBack areas m b n n1 n2 st
termination_by n

/-! ### The indirect sort -/

/-- `*t++ = ip; ip += s;` for the `n` pointers. -/
def fillPointers (s : ℕ) (m : Memory) (t ip : ℕ) : ℕ → Except Fault Memory
  | 0 => .ok m
  | n + 1 => do
    let m ← store areas m t (ByteLayout.encode wordSize ip)
    fillPointers s m (t + wordSize) (ip + s) n

def readPointer (m : Memory) (tp i : ℕ) : Except Fault ℕ := do
  let pointer ← load areas m (tp + i * wordSize) wordSize
  return ByteLayout.decode pointer

def writePointer (m : Memory) (tp i value : ℕ) : Except Fault Memory :=
  store areas m (tp + i * wordSize) (ByteLayout.encode wordSize value)

/-- The `do … while (kp != ip)` loop along one cycle; `none` when `fuel` passes did not end it. -/
def followCycle (b s tp ip : ℕ) : ℕ → Memory → ℕ → ℕ → ℕ → Except Fault (Option (Memory × ℕ × ℕ))
  | 0, _, _, _, _ => .ok none
  | fuel + 1, m, j, jp, kp => do
    let k := (kp - b) / s
    let m ← writePointer areas m tp j jp
    let m ← memcpy areas m jp kp s
    let next ← readPointer areas m tp k
    if next = ip then return some (m, k, kp)
    else followCycle b s tp ip fuel m k kp next

/-- The `for` loop over the entries from `i` on, with `left` of them to go. -/
def permute (b s tp storage n : ℕ) : ℕ → ℕ → Memory → Except Fault (Option Memory)
  | 0, _, m => .ok (some m)
  | left + 1, i, m => do
    let ip := b + i * s
    let kp ← readPointer areas m tp i
    if kp = ip then permute b s tp storage n left (i + 1) m
    else
      let m ← memcpy areas m storage ip s
      match ← followCycle areas b s tp ip n m i ip kp with
      | none => return none
      | some (m, j, jp) =>
        let m ← writePointer areas m tp j jp
        let m ← memcpy areas m jp storage s
        permute b s tp storage n left (i + 1) m

/-! ### The choice of a variant -/

/-- How an array is sorted: its elements are moved, or pointers to them. -/
inductive Plan
  | direct (var : Var)
  | indirect
deriving DecidableEq, Repr

/-- The choice of `__qsort_r` for an array at `b` with elements of size `s`. -/
def choosePlan (b s : ℕ) : Plan :=
  if s > 32 then .indirect
  else if s % 4 = 0 ∧ b % 4 = 0 then
    if s = 4 then .direct .word32
    else if s = 8 ∧ b % 8 = 0 then .direct .word64
    else if s % 8 = 0 ∧ b % 8 = 0 then .direct .words
    else .direct .bytes
  else .direct .bytes

/-- The bytes that a plan uses of the temporary buffer. -/
def Plan.buffer (n s : ℕ) : Plan → ℕ
  | .direct _ => n * s
  | .indirect => 2 * n * wordSize + s

def Plan.run (plan : Plan) (cmp : Compare Bytes σ) (b n s t : ℕ) (m : Memory) (st : σ) :
    Except Fault (Option (Memory × σ)) :=
  match plan with
  | .direct var => do
    let sorted ← msortWithTmp areas ⟨s, var, cmp, t, s⟩ m b n st
    return some sorted
  | .indirect => do
    let tp := t + n * wordSize
    let storage := tp + n * wordSize
    let m ← fillPointers areas s m tp b n
    let (m, st) ← msortWithTmp areas ⟨wordSize, .pointers, cmp, t, s⟩ m tp n st
    match ← permute areas b s tp storage n n 0 m with
    | none => return none
    | some m => return some (m, st)

end Sorting

/-- The `size` that `__qsort_r` computes for the temporary buffer, a `size_t`. -/
def bufferSize (n s : ℕ) : ℕ :=
  if s > 32 then (2 * n * wordSize + s) % 2 ^ 64 else n * s % 2 ^ 64

/-- `__qsort_r` where the buffer, from the stack or from `malloc`, is at `t`. The array and the
`bufferSize n s` bytes of the buffer are all it may touch. -/
def qsortR {σ : Type} (cmp : Compare Bytes σ) (b n s t : ℕ) (m : Memory) (st : σ) :
    Except Fault (Option (Memory × σ)) :=
  (choosePlan b s).run [⟨b, n * s⟩, ⟨t, bufferSize n s⟩] cmp b n s t m st

end AwaitGlibc.Msort

import Mathlib

/-!
# Packing and unpacking domain names

`resolv/ns_name_pack.c` and `resolv/ns_name_unpack.c`. A pointer into the message
is its offset from the start of the message. The message is the list of its
octets, and a name is packed at its end; what has been written of it so far can be
read, too. The table of pointers is an array whose first entry is the start of the
message, with `none` for `NULL`. A read or a write outside the name, the message
or the table stops the run with a fault.
-/
namespace AwaitGlibc.NsName

inductive Fault where
  | nameBounds
  | messageBounds
  | tableBounds
  | destinationBounds
  | nullPointer
  | outOfFuel
deriving DecidableEq, Repr

def cmprsflgs : UInt8 := 0xc0

def maxcdname : ℕ := 255

/-- Offsets from here on do not fit into a compression pointer. -/
def offsetLimit : ℕ := 0x4000

def readName (src : List UInt8) (i : ℕ) : Except Fault UInt8 :=
  match src[i]? with
  | none => .error .nameBounds
  | some c => .ok c

def readMessage (msg : List UInt8) (i : ℕ) : Except Fault UInt8 :=
  match msg[i]? with
  | none => .error .messageBounds
  | some c => .ok c

def target (n lo : UInt8) : ℕ := (n &&& 0x3f).toNat * 256 + lo.toNat

def mklower (ch : UInt8) : UInt8 := if 0x41 ≤ ch ∧ ch ≤ 0x5a then ch - 0x41 + 0x61 else ch

/-! ### Search -/

/-- `for (; n > 0; n--) if (mklower (*dn++) != mklower (*cp++))` -/
def sameLabel (src msg : List UInt8) : ℕ → ℕ → ℕ → Except Fault Bool
  | 0, _, _ => .ok true
  | n + 1, dn, cp => do
    let a ← readName src dn
    let b ← readMessage msg cp
    if mklower a ≠ mklower b then .ok false else sameLabel src msg n (dn + 1) (cp + 1)

inductive Comparison where
  | found
  | next
  | illegal
deriving DecidableEq, Repr

/-- `while ((n = *cp++) != 0)` -/
def compareName (src msg : List UInt8) : ℕ → ℕ → ℕ → Except Fault Comparison
  | 0, _, _ => .error .outOfFuel
  | fuel + 1, dn, cp => do
    let n ← readMessage msg cp
    if n = 0 then .ok .next
    else if n &&& cmprsflgs = 0 then
      let d ← readName src dn
      if n ≠ d then .ok .next
      else
        let same ← sameLabel src msg n.toNat (dn + 1) (cp + 1)
        if same = false then .ok .next
        else
          let a ← readName src (dn + 1 + n.toNat)
          let b ← readMessage msg (cp + 1 + n.toNat)
          if a = 0 ∧ b = 0 then .ok .found
          else if a ≠ 0 then compareName src msg fuel (dn + 1 + n.toNat) (cp + 1 + n.toNat)
          else .ok .next
    else if n &&& cmprsflgs = cmprsflgs then
      let lo ← readMessage msg (cp + 1)
      compareName src msg fuel dn (target n lo)
    else .ok .illegal

/-- What the search over the suffixes of one stored name ends with: the offset, or
that the whole search is over, or that the next stored name is to be tried. -/
inductive Search where
  | offset (sp : ℕ)
  | failed
  | exhausted
deriving DecidableEq, Repr

/-- `while (*sp != 0 && (*sp & NS_CMPRSFLGS) == 0 && (sp - msg) < 0x4000)` -/
def searchSuffixes (src msg : List UInt8) (dn : ℕ) : ℕ → ℕ → Except Fault Search
  | 0, _ => .error .outOfFuel
  | fuel + 1, sp => do
    let n ← readMessage msg sp
    if n ≠ 0 ∧ n &&& cmprsflgs = 0 ∧ sp < offsetLimit then
      let r ← compareName src msg (msg.length + 1) dn sp
      match r with
      | .found => .ok (.offset sp)
      | .illegal => .ok .failed
      | .next => searchSuffixes src msg dn fuel (sp + n.toNat + 1)
    else .ok .exhausted

/-- `for (cpp = dnptrs; cpp < lastdnptr; cpp++)` over so many entries. -/
def searchTable (src msg : List UInt8) (dn : ℕ) (dnptrs : List (Option ℕ)) :
    ℕ → ℕ → Except Fault (Option ℕ)
  | 0, _ => .ok none
  | left + 1, cpp =>
    match dnptrs[cpp]? with
    | none => .error .tableBounds
    | some none => .error .nullPointer
    | some (some sp) => do
      let r ← searchSuffixes src msg dn (msg.length + 1) sp
      match r with
      | .offset l => .ok (some l)
      | .failed => .ok none
      | .exhausted => searchTable src msg dn dnptrs left (cpp + 1)

/-- `dn_find` over the entries from the second one up to `lpp`. -/
def dnFind (src msg : List UInt8) (dn : ℕ) (dnptrs : List (Option ℕ)) (lpp : ℕ) :
    Except Fault (Option ℕ) :=
  searchTable src msg dn dnptrs (lpp - 1) 1

/-! ### Packing -/

/-- `for (cpp = dnptrs; *cpp != NULL; cpp++)` -/
def endOfList (dnptrs : List (Option ℕ)) : ℕ → ℕ → Except Fault ℕ
  | 0, _ => .error .outOfFuel
  | fuel + 1, cpp =>
    match dnptrs[cpp]? with
    | none => .error .tableBounds
    | some none => .ok cpp
    | some (some _) => endOfList dnptrs fuel (cpp + 1)

/-- "Make sure the domain we are about to add is legal." -/
def isLegal (src : List UInt8) : ℕ → ℕ → ℕ → Except Fault Bool
  | 0, _, _ => .error .outOfFuel
  | fuel + 1, srcp, l => do
    let n ← readName src srcp
    if 64 ≤ n then .ok false
    else if maxcdname < l + (n.toNat + 1) then .ok false
    else if n = 0 then .ok true
    else isLegal src fuel (srcp + (n.toNat + 1)) (l + (n.toNat + 1))

/-- `*cpp = p` -/
def setEntry (dnptrs : List (Option ℕ)) (cpp : ℕ) (p : Option ℕ) :
    Except Fault (List (Option ℕ)) :=
  if cpp < dnptrs.length then .ok (dnptrs.set cpp p) else .error .tableBounds

/-- What `ns_name_pack` returns, what it has written at `dst` and the table. -/
structure Packed where
  result : ℤ
  out : List UInt8
  dnptrs : List (Option ℕ)
deriving DecidableEq, Repr

/-- What stays the same in the loop: the name, the message before it, the room at
its end, `lpp` if there is a message to search, and `lastdnptr`. -/
structure Job where
  src : List UInt8
  msg : List UInt8
  dstsiz : ℤ
  lpp : Option ℕ
  lastdnptr : Option ℕ

/-- What changes in the loop: the table, `cpp` and `first`. -/
structure Entries where
  dnptrs : List (Option ℕ)
  cpp : ℕ
  first : Bool
deriving DecidableEq, Repr

def Job.cleanup (j : Job) (out : List UInt8) (dnptrs : List (Option ℕ)) : Except Fault Packed :=
  match j.lpp with
  | none => .ok ⟨-1, out, dnptrs⟩
  | some lpp => do
    let dnptrs ← setEntry dnptrs lpp none
    .ok ⟨-1, out, dnptrs⟩

def Job.save (j : Job) (dstp : ℕ) (e : Entries) : Except Fault Entries :=
  match j.lastdnptr with
  | none => .ok e
  | some last =>
    if e.cpp + 1 < last ∧ dstp < offsetLimit ∧ e.first then do
      let dnptrs ← setEntry e.dnptrs e.cpp (some dstp)
      let dnptrs ← setEntry dnptrs (e.cpp + 1) none
      .ok ⟨dnptrs, e.cpp + 1, false⟩
    else .ok e

/-- "Look to see if we can use pointers": the offset found, or the entries after
the name is saved. -/
def Job.look (j : Job) (srcp : ℕ) (n : UInt8) (out : List UInt8) (e : Entries) :
    Except Fault (ℕ ⊕ Entries) :=
  match j.lpp with
  | none => .ok (.inr e)
  | some lpp =>
    if n = 0 then .ok (.inr e)
    else do
      let found ← dnFind j.src (j.msg ++ out) srcp e.dnptrs lpp
      match found with
      | some l => .ok (.inl l)
      | none => do
        let e ← j.save (j.msg.length + out.length) e
        .ok (.inr e)

/-- `memcpy (dstp, srcp, n + 1)`: what is read. -/
def copyLabel (src : List UInt8) (srcp n : ℕ) : Except Fault (List UInt8) :=
  if srcp + (n + 1) ≤ src.length then .ok ((src.drop srcp).take (n + 1)) else .error .nameBounds

def pointerTo (l : ℕ) : List UInt8 := [UInt8.ofNat (l / 256) ||| cmprsflgs, UInt8.ofNat (l % 256)]

/-- The loop that writes the labels; `out` is what stands between `dst` and
`dstp`. -/
def Job.packLoop (j : Job) : ℕ → ℕ → List UInt8 → Entries → Except Fault Packed
  | 0, _, _, _ => .error .outOfFuel
  | fuel + 1, srcp, out, e => do
    let n ← readName j.src srcp
    let r ← j.look srcp n out e
    match r with
    | .inl l =>
      if j.dstsiz - out.length ≤ 1 then j.cleanup out e.dnptrs
      else .ok ⟨out.length + 2, out ++ pointerTo l, e.dnptrs⟩
    | .inr e =>
      if 64 ≤ n then j.cleanup out e.dnptrs
      else if j.dstsiz - out.length < n.toNat + 1 then j.cleanup out e.dnptrs
      else
        let label ← copyLabel j.src srcp n.toNat
        if n ≠ 0 then j.packLoop fuel (srcp + (n.toNat + 1)) (out ++ label) e
        else if j.dstsiz < (out ++ label).length then j.cleanup (out ++ label) e.dnptrs
        else .ok ⟨(out ++ label).length, out ++ label, e.dnptrs⟩

/-- The end of the list to search, if `dnptrs` begins with a message. -/
def startOf (dnptrs : Option (List (Option ℕ))) : Except Fault (Option ℕ) :=
  match dnptrs with
  | none => .ok none
  | some t =>
    match t[0]? with
    | none => .error .tableBounds
    | some none => .ok none
    | some (some _) => do
      let lpp ← endOfList t (t.length + 1) 1
      .ok (some lpp)

/-- `ns_name_pack` at the end of the message. -/
def nsNamePack (src msg : List UInt8) (dstsiz : ℤ) (dnptrs : Option (List (Option ℕ)))
    (lastdnptr : Option ℕ) : Except Fault Packed := do
  let lpp ← startOf dnptrs
  let legal ← isLegal src (maxcdname + 1) 0 0
  if legal = false then .ok ⟨-1, [], dnptrs.getD []⟩
  else
    Job.packLoop ⟨src, msg, dstsiz, lpp, lastdnptr⟩ (maxcdname + 1) 0 []
      ⟨dnptrs.getD [], lpp.getD 0, true⟩

/-! ### Unpacking -/

/-- What changes in the loop of `ns_name_unpack`: `len`, `checked`, `srcp` and what
stands between `dst` and `dstp`. -/
structure Unpacking where
  len : ℤ
  checked : ℕ
  srcp : ℕ
  out : List UInt8
deriving DecidableEq, Repr

/-- `while ((n = *srcp++) != 0)`; the name and the octets consumed, or `none` for
`-1`. The message ends at `eom`. -/
def unpackLoop (msg : List UInt8) (src dstsiz : ℕ) :
    ℕ → Unpacking → Except Fault (Option (List UInt8 × ℤ))
  | 0, _ => .error .outOfFuel
  | fuel + 1, u => do
    let n ← readMessage msg u.srcp
    let srcp := u.srcp + 1
    if n = 0 then
      if dstsiz ≤ u.out.length then .error .destinationBounds
      else .ok (some (u.out ++ [0], if u.len < 0 then (srcp : ℤ) - src else u.len))
    else if n &&& cmprsflgs = 0 then
      if 64 ≤ n then .ok none
      else if dstsiz - u.out.length ≤ n.toNat + 1 ∨ msg.length - srcp ≤ n.toNat then .ok none
      else
        unpackLoop msg src dstsiz fuel ⟨u.len, u.checked + (n.toNat + 1), srcp + n.toNat,
          u.out ++ n :: (msg.drop srcp).take n.toNat⟩
    else if n &&& cmprsflgs = cmprsflgs then
      if msg.length ≤ srcp then .ok none
      else do
        let lo ← readMessage msg srcp
        if msg.length ≤ target n lo then .ok none
        else if msg.length ≤ u.checked + 2 then .ok none
        else
          unpackLoop msg src dstsiz fuel ⟨if u.len < 0 then (srcp : ℤ) - src + 1 else u.len,
            u.checked + 2, target n lo, u.out⟩
    else .ok none

/-- `ns_name_unpack` with `eom` at the end of the message. -/
def nsNameUnpack (msg : List UInt8) (src dstsiz : ℕ) : Except Fault (Option (List UInt8 × ℤ)) :=
  if msg.length ≤ src then .ok none
  else unpackLoop msg src dstsiz (msg.length + 1) ⟨-1, 0, src, []⟩

end AwaitGlibc.NsName

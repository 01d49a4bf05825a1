import AwaitGlibc.GconvLoop

/-!
# The conversions between UTF-8 and INTERNAL

The bodies of `utf8_internal_loop` and `internal_utf8_loop` of
`iconv/gconv_simple.c`. A byte is read through the input that is left, and a read
at or past `inend` is a fault.
-/
namespace AwaitGlibc.Gconv

/-- `inptr[i]` -/
def readAt (rest : List UInt8) (i : ℕ) : Except Fault UInt8 :=
  match rest[i]? with
  | some b => .ok b
  | none => .error .readPastEnd

def isTrail (b : UInt8) : Bool := b &&& 0xc0 = 0x80

/-! ### From UTF-8 -/

/-- The number of bytes the first byte announces and the bits it has of the
character; `none` if no character starts with it. -/
def leadByte (ch : UInt32) : Option (ℕ × UInt32) :=
  if 0xc2 ≤ ch ∧ ch < 0xe0 then some (2, ch &&& 0x1f)
  else if ch &&& 0xf0 = 0xe0 then some (3, ch &&& 0x0f)
  else if ch &&& 0xf8 = 0xf0 then some (4, ch &&& 0x07)
  else if ch &&& 0xfc = 0xf8 then some (5, ch &&& 0x03)
  else if ch &&& 0xfe = 0xfc then some (6, ch &&& 0x01)
  else none

/-- The search for the end of an ill-formed character, `i` bytes of which have
been passed. -/
def illFormed (rest : List UInt8) : ℕ → ℕ → Except Fault ℕ
  | 0, _ => .error .outOfFuel
  | fuel + 1, i =>
    if i < rest.length then do
      let b ← readAt rest i
      if isTrail b ∧ i < 5 then illFormed rest fuel (i + 1) else .ok i
    else .ok i

/-- `for (i = 1; inptr + i < inend; ++i)`: the first byte that is no trail byte. -/
def firstNoTrail (rest : List UInt8) : ℕ → ℕ → Except Fault ℕ
  | 0, _ => .error .outOfFuel
  | fuel + 1, i =>
    if i < rest.length then do
      let b ← readAt rest i
      if isTrail b then firstNoTrail rest fuel (i + 1) else .ok i
    else .ok i

/-- Reads the trail bytes that remain: how many bytes have been read when the
loop ends, and the character. -/
def readTrail (rest : List UInt8) : ℕ → ℕ → UInt32 → Except Fault (ℕ × UInt32)
  | 0, i, ch => .ok (i, ch)
  | left + 1, i, ch => do
    let b ← readAt rest i
    if isTrail b then readTrail rest left (i + 1) (ch <<< 6 ||| (b.toUInt32 &&& 0x3f))
    else .ok (i, ch)

/-- Whether the character could have been represented with fewer bytes, or is a
surrogate. -/
def rejected (cnt : ℕ) (ch : UInt32) : Bool :=
  2 < cnt ∧ ch >>> (5 * cnt - 4).toUInt32 = 0 ∨ 0xd800 ≤ ch ∧ ch ≤ 0xdfff

/-- A character of `cnt` bytes whose first byte has been read. -/
def multiByte (ignoreErrors : Bool) (rest : List UInt8) (cnt : ℕ) (ch : UInt32) :
    Except Fault (Body UInt32) :=
  if rest.length < cnt then do
    let i ← firstNoTrail rest (rest.length + 1) 1
    if i = rest.length then .ok (.stop .incompleteInput) else .ok (fromLoopError ignoreErrors i)
  else do
    let (i, ch) ← readTrail rest (cnt - 1) 1 ch
    if i < cnt ∨ rejected cnt ch then .ok (fromLoopError ignoreErrors i)
    else .ok (.next cnt [ch])

def utf8InternalBody (ignoreErrors : Bool) (rest : List UInt8) (_room : ℕ) :
    Except Fault (Body UInt32) := do
  let b ← readAt rest 0
  if b < 0x80 then .ok (.next 1 [b.toUInt32])
  else
    match leadByte b.toUInt32 with
    | none => do
      let i ← illFormed rest 5 1
      .ok (fromLoopError ignoreErrors i)
    | some (cnt, ch) => multiByte ignoreErrors rest cnt ch

def oneUnit : Sizes := ⟨1, 1, Nat.one_pos, Nat.one_pos⟩

def utf8InternalLoop (ignoreErrors : Bool) (input : List UInt8) (room : ℕ) :
    Except Fault (Loop UInt32) :=
  loopfct oneUnit (utf8InternalBody ignoreErrors) input room

/-! ### To UTF-8 -/

/-- `for (step = 2; step < 6; ++step)`, with the values of `step` that are left. -/
def findStep (wc : UInt32) : ℕ → ℕ → ℕ
  | 0, step => step
  | left + 1, step =>
    if wc &&& (~~~(0 : UInt32) <<< (5 * step + 1).toUInt32) = 0 then step
    else findStep wc left (step + 1)

/-- `(unsigned char) (~0xff >> step)` -/
def leadMark (step : ℕ) : UInt8 := UInt8.ofInt ((-256 : ℤ) >>> step)

/-- The loop that stores the trail bytes from the last one on; the bits that are
left and the bytes. -/
def writeTrail : ℕ → UInt32 → List UInt8 → UInt32 × List UInt8
  | 0, wc, bytes => (wc, bytes)
  | n + 1, wc, bytes => writeTrail n (wc >>> 6) ((0x80 ||| (wc &&& 0x3f)).toUInt8 :: bytes)

/-- The bytes of a character that takes `step` of them. -/
def writeChar (wc : UInt32) (step : ℕ) : List UInt8 :=
  let (wc, bytes) := writeTrail (step - 1) wc []
  (leadMark step ||| wc.toUInt8) :: bytes

def internalUtf8Body (errors : ToErrors UInt32 UInt8) (rest : List UInt32) (room : ℕ) :
    Except Fault (Body UInt8) :=
  match rest with
  | [] => .error .readPastEnd
  | wc :: _ =>
    if wc < 0x80 then .ok (.next 1 [wc.toUInt8])
    else if wc ≤ 0x7fffffff ∧ (wc < 0xd800 ∨ 0xdfff < wc) then
      let step := findStep wc 4 2
      if room < step then .ok (.stop .fullOutput) else .ok (.next 1 (writeChar wc step))
    else .ok (toLoopError errors 1 rest room)

def internalUtf8Loop (errors : ToErrors UInt32 UInt8) (input : List UInt32) (room : ℕ) :
    Except Fault (Loop UInt8) :=
  loopfct oneUnit (internalUtf8Body errors) input room

end AwaitGlibc.Gconv

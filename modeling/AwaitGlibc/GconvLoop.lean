import AwaitGlibc.CheckedArray
import Mathlib

/-!
# The conversion loop

`iconv/loop.c`: the loop around the body of a conversion. The input is the list
of units between `inptr` and `inend`; the output is the list of units written,
with `room` for as many as there are between `outptr` and `outend`. A unit is a
byte or, in the INTERNAL format, a word of four bytes. A body that moves `inptr`
past `inend` or writes past `outend` stops the run with a fault.
-/
namespace AwaitGlibc.Gconv

/-- The results of `iconv/gconv.h` that conversions use. -/
inductive Status where
  | ok
  | emptyInput
  | fullOutput
  | illegalInput
  | incompleteInput
deriving DecidableEq, Repr

inductive Fault where
  | readPastEnd
  | movePastEnd
  | writePastEnd
  | assertion
  | outOfFuel
deriving DecidableEq, Repr

/-- How a body ends: at its end, after `n` units of input and with the output it
wrote; by `break` with a result; or by `continue` from an error handler, with the
result it has set. -/
inductive Body (ο : Type) where
  | next (n : ℕ) (out : List ο)
  | stop (result : Status)
  | ignored (n : ℕ)
  | translated (result : Status) (n : ℕ) (out : List ο)
deriving DecidableEq, Repr

/-- What the loop leaves: how far it has moved `inptr`, what it has written, how
many characters it has skipped and its result. -/
@[ext]
structure Loop (ο : Type) where
  consumed : ℕ
  out : List ο
  irreversible : ℕ
  result : Status
deriving DecidableEq, Repr

/-- The sizes a conversion defines: `MIN_NEEDED_INPUT` and `MIN_NEEDED_OUTPUT`, in
units. -/
structure Sizes where
  minInput : ℕ
  minOutput : ℕ
  minInput_pos : 0 < minInput
  minOutput_pos : 0 < minOutput

variable {ι ο : Type}

/-- One pass after the other, with the pointers moved by `n` and past `out`. -/
def Loop.after (n : ℕ) (out : List ο) (skipped : ℕ) (r : Loop ο) : Loop ο :=
  ⟨n + r.consumed, out ++ r.out, skipped + r.irreversible, r.result⟩

/-- `inptr += n` and the output written, both within their buffers. -/
def advance (rest : List ι) (room n : ℕ) (out : List ο) : Except Fault (List ι × ℕ) :=
  if rest.length < n then .error .movePastEnd
  else if room < out.length then .error .writePastEnd
  else .ok (rest.drop n, room - out.length)

/-- What follows the body of one pass; `again` is the rest of the loop. -/
def follow (again : List ι → ℕ → Status → Except Fault (Loop ο)) (rest : List ι) (room : ℕ)
    (result : Status) : Body ο → Except Fault (Loop ο)
  | .stop st => .ok ⟨0, [], 0, st⟩
  | .next n out => do
    let p ← advance rest room n out
    let r ← again p.1 p.2 result
    .ok (r.after n out 0)
  | .ignored n => do
    let p ← advance rest room n ([] : List ο)
    let r ← again p.1 p.2 .illegalInput
    .ok (r.after n [] 1)
  | .translated st n out => do
    let p ← advance rest room n out
    let r ← again p.1 p.2 st
    .ok (r.after n out 0)

/-- `while (inptr != inend)` -/
def loopFrom (z : Sizes) (body : List ι → ℕ → Except Fault (Body ο)) :
    ℕ → List ι → ℕ → Status → Except Fault (Loop ο)
  | 0, _, _, _ => .error .outOfFuel
  | fuel + 1, rest, room, result =>
    if rest.length = 0 then .ok ⟨0, [], 0, result⟩
    else if rest.length < z.minInput then .ok ⟨0, [], 0, .incompleteInput⟩
    else if room < z.minOutput then .ok ⟨0, [], 0, .fullOutput⟩
    else do
      let b ← body rest room
      follow (loopFrom z body fuel) rest room result b

/-- `LOOPFCT`; each pass takes at least one unit, so that this many passes are
enough. -/
def loopfct (z : Sizes) (body : List ι → ℕ → Except Fault (Body ο)) (input : List ι) (room : ℕ) :
    Except Fault (Loop ο) :=
  loopFrom z body (input.length + 1) input room .emptyInput

/-- `STANDARD_FROM_LOOP_ERR_HANDLER` -/
def fromLoopError (ignoreErrors : Bool) (n : ℕ) : Body ο :=
  if ignoreErrors then .ignored n else .stop .illegalInput

/-- What a conversion to a character set consults for a character it cannot
represent: whether `irreversible` is null, the transliteration if the flag asks
for one, and whether errors are ignored. -/
structure ToErrors (ι ο : Type) where
  irreversibleNull : Bool
  transliterate : Option (List ι → ℕ → Status × ℕ × List ο)
  ignoreErrors : Bool

/-- What `STANDARD_TO_LOOP_ERR_HANDLER` does without a transliteration. -/
def ToErrors.skip (e : ToErrors ι ο) (n : ℕ) : Body ο :=
  if e.ignoreErrors then .ignored n else .stop .illegalInput

/-- `STANDARD_TO_LOOP_ERR_HANDLER` -/
def toLoopError (e : ToErrors ι ο) (n : ℕ) (rest : List ι) (room : ℕ) : Body ο :=
  if e.irreversibleNull then .stop .illegalInput
  else
    match e.transliterate with
    | none => e.skip n
    | some f =>
      match f rest room with
      | (.illegalInput, _, _) => e.skip n
      | (.fullOutput, _, _) => .stop .fullOutput
      | (st, n, out) => .translated st n out

/-! ### Bodies that stay inside their buffers -/

/-- What a body may do with `rest` and `room`: it takes at least one unit and at
most what there is, and writes no more than there is room for. -/
inductive Within (rest : List ι) (room : ℕ) : Body ο → Prop where
  | next {n : ℕ} {out : List ο} (hpos : 0 < n) (hle : n ≤ rest.length) (hroom : out.length ≤ room) :
      Within rest room (.next n out)
  | stop (result : Status) : Within rest room (.stop result)
  | ignored {n : ℕ} (hpos : 0 < n) (hle : n ≤ rest.length) : Within rest room (.ignored n)

/-- A body that returns and stays within its buffers on every call the loop
makes. -/
def Sound (z : Sizes) (body : List ι → ℕ → Except Fault (Body ο)) : Prop :=
  ∀ rest room, z.minInput ≤ rest.length → z.minOutput ≤ room →
    ∃ b, body rest room = .ok b ∧ Within rest room b

variable {z : Sizes} {body : List ι → ℕ → Except Fault (Body ο)}

theorem advance_ok {rest : List ι} {room n : ℕ} {out : List ο} (h : n ≤ rest.length)
    (h' : out.length ≤ room) : advance rest room n out = .ok (rest.drop n, room - out.length) := by
  rw [advance, if_neg (by omega), if_neg (by omega)]

structure Loop.Inside (rest : List ι) (room : ℕ) (r : Loop ο) : Prop where
  consumed : r.consumed ≤ rest.length
  out : r.out.length ≤ room

theorem Loop.Inside.after {rest : List ι} {room n k : ℕ} {out : List ο} {r : Loop ο}
    (h : r.Inside (rest.drop n) (room - out.length)) (hn : n ≤ rest.length)
    (hout : out.length ≤ room) : (r.after n out k).Inside rest room := by
  obtain ⟨hc, ho⟩ := h
  rw [List.length_drop] at hc
  constructor
  · simp only [Loop.after]
    omega
  · simp only [Loop.after, List.length_append]
    omega

section Passes
variable {fuel n room : ℕ} {rest : List ι} {out : List ο} {result st : Status} {r : Loop ο}

theorem loopFrom_nil (fuel room : ℕ) (result : Status) :
    loopFrom z body (fuel + 1) [] room result = .ok ⟨0, [], 0, result⟩ :=
  if_pos rfl

theorem loopFrom_full (hlen : z.minInput ≤ rest.length) (hroom : room < z.minOutput) :
    loopFrom z body (fuel + 1) rest room result = .ok ⟨0, [], 0, .fullOutput⟩ := by
  have hpos := z.minInput_pos
  rw [loopFrom, if_neg (by omega), if_neg (by omega), if_pos hroom]

section
variable (hlen : z.minInput ≤ rest.length) (hroom : z.minOutput ≤ room)
include hlen hroom

theorem loopFrom_enter {b : Body ο} (hb : body rest room = .ok b) :
    loopFrom z body (fuel + 1) rest room result =
      follow (loopFrom z body fuel) rest room result b := by
  have hpos := z.minInput_pos
  rw [loopFrom, if_neg (by omega), if_neg (by omega), if_neg (by omega), hb]
  rfl

theorem loopFrom_stop (hb : body rest room = .ok (.stop st)) :
    loopFrom z body (fuel + 1) rest room result = .ok ⟨0, [], 0, st⟩ :=
  loopFrom_enter hlen hroom hb

theorem loopFrom_next
    (hb : body rest room = .ok (.next n out)) (hn : n ≤ rest.length) (hout : out.length ≤ room)
    (hr : loopFrom z body fuel (rest.drop n) (room - out.length) result = .ok r) :
    loopFrom z body (fuel + 1) rest room result = .ok (r.after n out 0) := by
  rw [loopFrom_enter hlen hroom hb, follow, advance_ok hn hout, ok_bind, hr]
  rfl

theorem loopFrom_ignored (hb : body rest room = .ok (.ignored n)) (hn : n ≤ rest.length)
    (hr : loopFrom z body fuel (rest.drop n) room .illegalInput = .ok r) :
    loopFrom z body (fuel + 1) rest room result = .ok (r.after n [] 1) := by
  have hmove : advance rest room n ([] : List ο) = .ok (rest.drop n, room) :=
    advance_ok hn (Nat.zero_le room)
  rw [loopFrom_enter hlen hroom hb, follow, hmove, ok_bind, hr]
  rfl

end

end Passes

theorem loopFrom_inside (hb : Sound z body) (fuel : ℕ) (rest : List ι) (room : ℕ)
    (result : Status) (hfuel : rest.length < fuel) :
    ∃ r, loopFrom z body fuel rest room result = .ok r ∧ r.Inside rest room := by
  induction fuel generalizing rest room result with
  | zero => exact absurd hfuel (Nat.not_lt_zero _)
  | succ fuel ih =>
    have stopped : ∀ st : Status, Loop.Inside rest room (⟨0, [], 0, st⟩ : Loop ο) := fun _ =>
      ⟨Nat.zero_le _, Nat.zero_le _⟩
    by_cases hlen : z.minInput ≤ rest.length ∧ z.minOutput ≤ room
    · obtain ⟨hlen, hroom⟩ := hlen
      obtain ⟨b, hrun, hw⟩ := hb rest room hlen hroom
      cases hw with
      | stop st => exact ⟨_, loopFrom_stop hlen hroom hrun, stopped _⟩
      | @next n out hpos hle hout =>
        obtain ⟨r, hr, hinside⟩ := ih (rest.drop n) (room - out.length) result
          (by rw [List.length_drop]; omega)
        exact ⟨_, loopFrom_next hlen hroom hrun hle hout hr, hinside.after hle hout⟩
      | @ignored n hpos hle =>
        obtain ⟨r, hr, hinside⟩ := ih (rest.drop n) room .illegalInput
          (by rw [List.length_drop]; omega)
        exact ⟨_, loopFrom_ignored hlen hroom hrun hle hr,
          hinside.after hle (Nat.zero_le _)⟩
    · unfold loopFrom
      split_ifs
      · exact ⟨_, rfl, stopped _⟩
      · exact ⟨_, rfl, stopped _⟩
      · exact ⟨_, rfl, stopped _⟩
      · omega

end AwaitGlibc.Gconv

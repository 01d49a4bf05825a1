import AwaitGlibc.GconvLoop

/-!
# The stores of the ISO-2022-CN-EXT encoder

`to_iso2022cn_ext_loop`, with the selected set and the announcements in the bits of
`set` and `ann`. The loop goes on while one byte of output is left, and the body
tests for more before most of its stores. It does not before it designates the set of
`SS2` or `SS3`, and the four bytes of that sequence are the only stores that can pass
the end of the buffer.
-/
namespace AwaitGlibc.Iso2022CnExt
open Gconv (Status)

/-- `ucs4_to_gb2312` and its like; `cns11643` gives the plane first. -/
structure Tables where
  (gb2312 isoir165 cns11643l1 cns11643l2 : UInt32 → Option (UInt8 × UInt8))
  cns11643 : UInt32 → Option (UInt8 × UInt8 × UInt8)

structure Encoder where
  (set ann : UInt32)
  input : List UInt32
  /-- What has been stored below `outptr`. -/
  out : List UInt8
  /-- The place of `outend`. -/
  outend : ℕ

namespace Encoder

def Room (n : ℕ) (e : Encoder) : Prop := e.out.length + n ≤ e.outend

instance (n : ℕ) (e : Encoder) : Decidable (e.Room n) := inferInstanceAs (Decidable (_ ≤ _))

def next (e : Encoder) : Encoder := { e with input := e.input.tail }

end Encoder

/-- How the body leaves the loop: by a store past the end, or by `break`. -/
inductive Exit where
  | pastEnd
  | stop (result : Status) (e : Encoder)

abbrev Pass := Except Exit Encoder

def need (n : ℕ) (e : Encoder) : Pass :=
  if e.Room n then .ok e else .error (.stop .fullOutput e)

def put (bytes : List UInt8) (e : Encoder) : Pass :=
  if e.Room bytes.length then .ok { e with out := e.out ++ bytes } else .error .pastEnd

def asciiSet : UInt32 := 0
def gb2312Set : UInt32 := 1
def cns11643Set1 : UInt32 := 3
def isoIr165Set : UInt32 := 4
def soMask : UInt32 := 7
def cns11643Set2 : UInt32 := 0x18
def ss2Mask : UInt32 := 0x18
def ss3Mask : UInt32 := 0xe0
def soAnn : UInt32 := 0x700
def ss2Ann : UInt32 := 0x1800
def ss3Ann : UInt32 := 0xe000

section
variable (t : Tables) (ch : UInt32)

/-- The set of `SO` tried first. Its second test compares announcements with a set,
as the source does. -/
def firstSet (e : Encoder) : UInt32 :=
  if e.set = gb2312Set ∨ e.ann &&& soAnn ≠ cns11643Set1 <<< 8 ∧
      e.ann &&& soAnn ≠ isoIr165Set <<< 8 then gb2312Set
  else if e.set = isoIr165Set ∨ e.ann &&& soAnn = isoIr165Set then isoIr165Set
  else cns11643Set1

def soCode (used : UInt32) : Option (UInt8 × UInt8) :=
  if used = gb2312Set then t.gb2312 ch
  else if used = isoIr165Set then t.isoir165 ch
  else t.cns11643l1 ch

/-- The code and the set `used`, or none for an error. -/
def findSet (e : Encoder) : Option ((UInt8 × UInt8) × UInt32) :=
  let inSo (used : UInt32) := (soCode t ch used).map (·, used)
  let change (used : UInt32) := if firstSet e ≠ used then inSo used else none
  inSo (firstSet e) <|> (t.cns11643l2 ch).map (·, cns11643Set2) <|>
    change gb2312Set <|> change isoIr165Set <|> change cns11643Set1 <|>
    (t.cns11643 ch).bind fun (plane, buf) =>
      if 3 ≤ plane ∧ plane ≤ 7 then some (buf, plane.toUInt32 <<< 5) else none

end

/-- `used` is of the kind of `mask`, and not the set announced for it. -/
def Unannounced (used mask kind : UInt32) (e : Encoder) : Prop :=
  used &&& mask ≠ 0 ∧ e.ann &&& kind ≠ used <<< 8

instance (used mask kind : UInt32) (e : Encoder) : Decidable (Unannounced used mask kind e) :=
  inferInstanceAs (Decidable (_ ∧ _))

/-- The sequence `ESC $` with two bytes of a table, and its note in `ann`. -/
def announce (used kind : UInt32) (table : String) (i : UInt32) (e : Encoder) : Pass := do
  let escseq (k : ℕ) := (table.toList.getD (2 * i.toNat + k) '\x00').toNat.toUInt8
  let e ← put [0x1b, 0x24, escseq 0, escseq 1] e
  return { e with ann := e.ann &&& ~~~kind ||| used <<< 8 }

def designate (used : UInt32) (e : Encoder) : Pass :=
  if Unannounced used soMask soAnn e then
    need 4 e >>= announce used soAnn ")A\x00\x00)G)E" (used - 1)
  else if Unannounced used ss2Mask ss2Ann e then announce used ss2Ann "*H" 0 e
  else if Unannounced used ss3Mask ss3Ann e then
    announce used ss3Ann "+I+J+K+L+M" (used >>> 5 - 3) e
  else .ok e

def shift (used : UInt32) (e : Encoder) : Pass :=
  if used = cns11643Set2 then need 2 e >>= put [0x1b, 0x4e]
  else if 0x60 ≤ used ∧ used ≤ 0xe0 then need 2 e >>= put [0x1b, 0x4f]
  else if e.set = asciiSet then need 1 e >>= put [0x0e]
  else .ok e

def encode (buf : UInt8 × UInt8) (used : UInt32) (e : Encoder) : Pass := do
  let e ← (if e.set ≠ used then designate used e >>= shift used else .ok e : Pass)
  let e ← need 2 e >>= put [buf.1, buf.2]
  return { e with set := used }

def ascii (ch : UInt32) (e : Encoder) : Pass := do
  let e ← (if e.set ≠ asciiSet then
    put [0x0f] e >>= fun e => need 1 { e with set := asciiSet } else .ok e : Pass)
  let e ← put [ch.toUInt8] e
  return if ch = 10 then { e with ann := 0 } else e

/-- What the error handler consults. The stores of a transliteration are not the
loop's own, and it may leave any state. -/
structure Errors where
  irreversibleNull : Bool
  transliterate : Option (Encoder → Status × Encoder)
  ignoreErrors : Bool

/-- `UNICODE_TAG_HANDLER` and `STANDARD_TO_LOOP_ERR_HANDLER` -/
def Errors.handle (err : Errors) (ch : UInt32) (result : Status) (e : Encoder) :
    Except Exit (Status × Encoder) :=
  if ch >>> 7 = 0x1c00 then .ok (result, e.next)
  else if err.irreversibleNull then .error (.stop .illegalInput e)
  else
    match (err.transliterate.getD (.illegalInput, ·)) e with
    | (.illegalInput, e) =>
      if err.ignoreErrors then .ok (.illegalInput, e.next) else .error (.stop .illegalInput e)
    | (.fullOutput, e) => .error (.stop .fullOutput e)
    | (result, e) => .ok (result, e)

variable (t : Tables) (err : Errors)

def body (ch : UInt32) (result : Status) (e : Encoder) : Except Exit (Status × Encoder) :=
  if ch < 0x80 then do return (result, (← ascii ch e).next)
  else match findSet t ch e with
    | some (buf, used) => do return (result, (← encode buf used e).next)
    | none => err.handle ch result e

/-- The first `n` passes of `to_iso2022cn_ext_loop`. -/
def toLoop : ℕ → Status → Encoder → Except Exit (Status × Encoder)
  | 0, result, e => .ok (result, e)
  | n + 1, result, e =>
    match e.input with
    | [] => .error (.stop result e)
    | ch :: _ =>
      if e.Room 1 then do
        let (result, e) ← body t err ch result e
        toLoop n result e
      else .error (.stop .fullOutput e)

/-- The sets of `SS2` and `SS3` are designated without a test for room. -/
def DesignatesUntested (used : UInt32) (e : Encoder) : Prop :=
  e.set ≠ used ∧ ¬ Unannounced used soMask soAnn e ∧
    (Unannounced used ss2Mask ss2Ann e ∨ Unannounced used ss3Mask ss3Ann e)

/-- Such a designation for `ch` finds four bytes. -/
def Designable (ch : UInt32) (e : Encoder) : Prop :=
  0x80 ≤ ch → ∀ buf used, findSet t ch e = some (buf, used) →
    DesignatesUntested used e → e.Room 4

/-- Each of the first `n` passes of the loop finds room for its designation. -/
def AllDesignable : ℕ → Status → Encoder → Prop
  | 0, _, _ => True
  | n + 1, result, e => ∀ ch ∈ e.input.head?, e.Room 1 →
    Designable t ch e ∧
      ∀ result' e', body t err ch result e = .ok (result', e') → AllDesignable n result' e'

/-- No store passes the end, and what goes on satisfies `P`. -/
def Ends {α : Type} (P : α → Prop) : Except Exit α → Prop
  | .ok a => P a
  | .error .pastEnd => False
  | .error (.stop _ _) => True

abbrev Inside {α : Type} : Except Exit α → Prop := Ends fun _ => True

theorem Ends.bind {α β : Type} {P : α → Prop} {Q : β → Prop} {x : Except Exit α}
    {f : α → Except Exit β} (h : Ends P x) (hf : ∀ a, P a → Ends Q (f a)) :
    Ends Q (x >>= f) := by
  match x, h with
  | .ok a, h => exact hf a h
  | .error (.stop _ _), _ => trivial

section
variable {e : Encoder} {n : ℕ} {used ch : UInt32}

theorem ends_need (e : Encoder) (n : ℕ) : Ends (Encoder.Room n) (need n e) := by
  unfold need
  split
  · assumption
  · trivial

theorem ends_put {bytes : List UInt8} (h : e.Room bytes.length) : Inside (put bytes e) := by
  rw [put, if_pos h]
  trivial

theorem ends_need_put {bytes : List UInt8} (h : bytes.length = n) :
    Inside (need n e >>= put bytes) :=
  (ends_need e n).bind fun _ hroom => ends_put (h ▸ hroom)

theorem ends_announce {kind : UInt32} {table : String} {i : UInt32} (h : e.Room 4) :
    Inside (announce used kind table i e) :=
  Ends.bind (ends_put (by exact h)) fun _ h => h

theorem ends_designate (hset : e.set ≠ used) (hroom : DesignatesUntested used e → e.Room 4) :
    Inside (designate used e) := by
  unfold designate
  split_ifs with hso hss2 hss3
  · exact (ends_need e 4).bind fun _ => ends_announce
  · exact ends_announce (hroom ⟨hset, hso, .inl hss2⟩)
  · exact ends_announce (hroom ⟨hset, hso, .inr hss3⟩)
  · trivial

theorem ends_shift (e : Encoder) : Inside (shift used e) := by
  unfold shift
  split_ifs
  · exact ends_need_put rfl
  · exact ends_need_put rfl
  · exact ends_need_put rfl
  · trivial

theorem ends_encode {buf : UInt8 × UInt8} (hroom : DesignatesUntested used e → e.Room 4) :
    Inside (encode buf used e) := by
  refine Ends.bind (P := fun _ => True) ?_ fun e _ => ?_
  split_ifs with hset
  · exact (ends_designate hset hroom).bind fun e _ => ends_shift e
  · trivial
  · exact Ends.bind (ends_need_put rfl) fun _ h => h

/-- The loop leaves room for one byte, and `SI` takes it. -/
theorem ends_ascii (h : e.Room 1) : Inside (ascii ch e) := by
  refine Ends.bind (P := Encoder.Room 1) ?_ fun e h =>
    Ends.bind (ends_put (by exact h)) fun _ h => h
  split_ifs
  · exact Ends.bind (ends_put (by exact h)) fun e _ => ends_need _ 1
  · exact h

theorem ends_body (h : e.Room 1) (hd : Designable t ch e) (result : Status) :
    Inside (body t err ch result e) := by
  unfold body
  split
  · exact (ends_ascii h).bind fun _ h => h
  next hch =>
    split
    next buf used hfind =>
      exact (ends_encode (hd (UInt32.not_lt.1 hch) _ _ hfind)).bind fun _ h => h
    · unfold Errors.handle
      repeat' split
      all_goals trivial

theorem body_pastEnd (hd : ¬ Designable t ch e) (result : Status) :
    body t err ch result e = .error .pastEnd := by
  simp only [Designable, not_forall] at hd
  obtain ⟨hch, buf, used, hfind, ⟨hset, hso, hss⟩, hroom⟩ := hd
  have hannounce (kind : UInt32) (table : String) (i : UInt32) :
      announce used kind table i e = .error .pastEnd := by
    rw [announce, put, if_neg (by exact hroom)]
    rfl
  have hdes : designate used e = .error .pastEnd := by
    rw [designate, if_neg hso]
    split_ifs with hss2 hss3
    · exact hannounce ..
    · exact hannounce ..
    · exact absurd hss (not_or.2 ⟨hss2, hss3⟩)
  rw [body, if_neg (UInt32.not_lt.2 hch), hfind]
  dsimp only
  rw [encode, if_pos hset, hdes]
  rfl

end

/-- A run stores below `outend` exactly if each designation of a set of `SS2` or `SS3`
finds its four bytes. -/
theorem toLoop_inside_iff (n : ℕ) (result : Status) (e : Encoder) :
    toLoop t err n result e ≠ .error .pastEnd ↔ AllDesignable t err n result e := by
  induction n generalizing result e with
  | zero => exact iff_of_true nofun trivial
  | succ n ih =>
    rw [toLoop, AllDesignable]
    cases e.input with
    | nil => exact iff_of_true nofun nofun
    | cons ch rest =>
      simp only [List.head?_cons, Option.mem_some_iff, forall_eq']
      split
      next hroom =>
        rw [forall_prop_of_true hroom]
        by_cases hd : Designable t ch e
        · have hends := ends_body t err hroom hd result
          rw [and_iff_right hd]
          generalize body t err ch result e = b at hends
          match b, hends with
          | .ok (result', e'), _ => simpa [ok_bind] using ih result' e'
          | .error (.stop _ _), _ => exact iff_of_true nofun nofun
        · rw [body_pastEnd t err hd result]
          exact iff_of_false (· rfl) (hd ·.1)
      next hroom => exact iff_of_true nofun fun h => absurd h hroom

/-- A character of the second plane, and one byte of room. -/
theorem toLoop_passes_end :
    toLoop ⟨fun _ => none, fun _ => none, fun _ => none, fun _ => some (0x21, 0x21), fun _ => none⟩
      ⟨false, none, false⟩ 1 .emptyInput ⟨asciiSet, 0, [0x4e42], [], 1⟩ = .error .pastEnd :=
  rfl

end AwaitGlibc.Iso2022CnExt

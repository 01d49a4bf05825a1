import AwaitGlibc.DlStrtoul

/-!
# The bounds of numeric tunables

`do_tunable_update_val` intersects the bounds it is given with those in force, drops
both when nothing is left, and stores value and bounds together or not at all. All
numbers are 64-bit words; the type of the tunable says whether they are compared as
signed or as unsigned ones.
-/
namespace AwaitGlibc.TunableBounds
open CText DlStrtoul

/-- The numeric ones of `tunable_type_code_t`. -/
inductive TypeCode where
  | int32
  | uint64
  | sizeT
deriving DecidableEq, Repr

abbrev Num := BitVec 64

structure Tunable where
  typeCode : TypeCode
  min : Num
  max : Num
  val : Num
  initialized : Bool
deriving DecidableEq, Repr

def unsignedTunableType : TypeCode → Bool
  | .int32 => false
  | .uint64 | .sizeT => true

def tunableValLt (lhs rhs : Num) (unsignedCmp : Bool) : Bool :=
  if unsignedCmp then lhs.ult rhs else lhs.slt rhs

def tunableValGt (lhs rhs : Num) (unsignedCmp : Bool) : Bool :=
  if unsignedCmp then rhs.ult lhs else rhs.slt lhs

def Tunable.bounds (cur : Tunable) (minp maxp : Option Num) : Num × Num :=
  let unsignedCmp := unsignedTunableType cur.typeCode
  let min := minp.getD cur.min
  let max := maxp.getD cur.max
  let min := if tunableValLt min cur.min unsignedCmp then cur.min else min
  let max := if tunableValGt max cur.max unsignedCmp then cur.max else max
  if tunableValGt min max unsignedCmp then (cur.min, cur.max) else (min, max)

def doTunableUpdateVal (cur : Tunable) (val : Num) (minp maxp : Option Num) : Tunable :=
  let unsignedCmp := unsignedTunableType cur.typeCode
  let b := cur.bounds minp maxp
  if tunableValLt val b.1 unsignedCmp || tunableValLt b.2 val unsignedCmp then cur
  else { cur with val := val, min := b.1, max := b.2, initialized := true }

def tunableInitialize (cur : Tunable) (strval : Text) : Tunable :=
  doTunableUpdateVal cur (.ofNat 64 (dlStrtoul strval).1) none none

inductive Operation where
  | fromText (strval : Text)
  | setVal (val : Num) (minp maxp : Option Num)

def Operation.run (cur : Tunable) : Operation → Tunable
  | .fromText strval => tunableInitialize cur strval
  | .setVal val minp maxp => doTunableUpdateVal cur val minp maxp

def run (cur : Tunable) (ops : List Operation) : Tunable := ops.foldl Operation.run cur

def Tunable.rank (t : Tunable) (x : Num) : ℤ :=
  if unsignedTunableType t.typeCode then x.toNat else x.toInt

structure Tunable.Ordered (t : Tunable) : Prop where
  min_le : t.rank t.min ≤ t.rank t.val
  le_max : t.rank t.val ≤ t.rank t.max

structure Narrowed (t t' : Tunable) : Prop where
  typeCode : t'.typeCode = t.typeCode
  min_le : t.rank t.min ≤ t.rank t'.min
  le_max : t.rank t'.max ≤ t.rank t.max

def Operation.Rejected (t : Tunable) : Operation → Prop
  | .fromText strval =>
    ¬ (t.rank t.min ≤ t.rank (.ofNat 64 (dlStrtoul strval).1) ∧
      t.rank (.ofNat 64 (dlStrtoul strval).1) ≤ t.rank t.max)
  | .setVal val minp maxp =>
    ¬ (t.rank (t.bounds minp maxp).1 ≤ t.rank val ∧ t.rank val ≤ t.rank (t.bounds minp maxp).2)

section Step
variable {t t' t'' : Tunable} {x y : Num}

theorem tunableValLt_iff :
    tunableValLt x y (unsignedTunableType t.typeCode) = true ↔ t.rank x < t.rank y := by
  unfold tunableValLt Tunable.rank
  cases unsignedTunableType t.typeCode <;> simp [BitVec.slt, BitVec.ult]

theorem tunableValGt_iff :
    tunableValGt x y (unsignedTunableType t.typeCode) = true ↔ t.rank y < t.rank x := by
  unfold tunableValGt Tunable.rank
  cases unsignedTunableType t.typeCode <;> simp [BitVec.slt, BitVec.ult]

theorem rank_congr (h : t'.typeCode = t.typeCode) (x : Num) : t'.rank x = t.rank x := by
  rw [Tunable.rank, h, Tunable.rank]

/-- Whatever is asked for, the bounds in force can only become narrower. -/
theorem bounds_inside (t : Tunable) (minp maxp : Option Num) :
    t.rank t.min ≤ t.rank (t.bounds minp maxp).1 ∧ t.rank (t.bounds minp maxp).2 ≤ t.rank t.max := by
  simp only [Tunable.bounds, tunableValLt_iff, tunableValGt_iff]
  split_ifs <;> constructor <;> simp only <;> omega

theorem bounds_none (t : Tunable) : t.bounds none none = (t.min, t.max) := by
  simp [Tunable.bounds, tunableValLt_iff, tunableValGt_iff]

theorem doTunableUpdateVal_cases (t : Tunable) (val : Num) (minp maxp : Option Num) :
    (¬ (t.rank (t.bounds minp maxp).1 ≤ t.rank val ∧ t.rank val ≤ t.rank (t.bounds minp maxp).2) ∧
      doTunableUpdateVal t val minp maxp = t) ∨
    (t.rank (t.bounds minp maxp).1 ≤ t.rank val ∧ t.rank val ≤ t.rank (t.bounds minp maxp).2) ∧
      doTunableUpdateVal t val minp maxp =
        { t with val, min := (t.bounds minp maxp).1, max := (t.bounds minp maxp).2,
                 initialized := true } := by
  unfold doTunableUpdateVal
  simp only [Bool.or_eq_true, tunableValLt_iff]
  split_ifs with h
  · exact .inl ⟨by omega, rfl⟩
  · exact .inr ⟨by omega, rfl⟩

theorem doTunableUpdateVal_step (h : t.Ordered) (val : Num) (minp maxp : Option Num) :
    (doTunableUpdateVal t val minp maxp).Ordered ∧ Narrowed t (doTunableUpdateVal t val minp maxp) := by
  obtain ⟨-, hrun⟩ | ⟨hin, hrun⟩ := doTunableUpdateVal_cases t val minp maxp
  · rw [hrun]
    exact ⟨h, rfl, le_rfl, le_rfl⟩
  · obtain ⟨hmin, hmax⟩ := bounds_inside t minp maxp
    rw [hrun]
    exact ⟨⟨hin.1, hin.2⟩, rfl, hmin, hmax⟩

theorem Operation.run_step (h : t.Ordered) (op : Operation) :
    (op.run t).Ordered ∧ Narrowed t (op.run t) := by
  cases op with
  | fromText strval => exact doTunableUpdateVal_step h _ none none
  | setVal val minp maxp => exact doTunableUpdateVal_step h val minp maxp

theorem Operation.run_of_rejected {op : Operation} (hr : op.Rejected t) :
    op.run t = t := by
  cases op with
  | fromText strval =>
    obtain ⟨-, hrun⟩ | ⟨hin, -⟩ :=
      doTunableUpdateVal_cases t (.ofNat 64 (dlStrtoul strval).1) none none
    · exact hrun
    · rw [bounds_none] at hin
      exact absurd hin hr
  | setVal val minp maxp =>
    obtain ⟨-, hrun⟩ | ⟨hin, -⟩ := doTunableUpdateVal_cases t val minp maxp
    · exact hrun
    · exact absurd hin hr

theorem Narrowed.trans (h : Narrowed t t') (h' : Narrowed t' t'') : Narrowed t t'' := by
  have hmin := h'.min_le
  have hmax := h'.le_max
  simp only [rank_congr h.typeCode] at hmin hmax
  exact ⟨h'.typeCode.trans h.typeCode, h.min_le.trans hmin, hmax.trans h.le_max⟩

theorem run_ordered (h : t.Ordered) (ops : List Operation) :
    (run t ops).Ordered ∧ Narrowed t (run t ops) := by
  induction ops generalizing t with
  | nil => exact ⟨h, rfl, le_rfl, le_rfl⟩
  | cons op ops ih =>
    obtain ⟨hstep, hnarrow⟩ := op.run_step h
    obtain ⟨hrun, hnarrow'⟩ := ih hstep
    exact ⟨hrun, hnarrow.trans hnarrow'⟩

end Step

/-- Along every sequence of operations the value stays within the bounds, the bounds
only become narrower, and a rejected operation changes nothing. -/
theorem bounds_kept (t : Tunable) (h : t.Ordered) (ops : List Operation) :
    (run t ops).Ordered ∧
      (∀ before after, ops = before ++ after → Narrowed (run t before) (run t ops)) ∧
      ∀ before op after, ops = before ++ op :: after → op.Rejected (run t before) →
        run t (before ++ [op]) = run t before := by
  refine ⟨(run_ordered h ops).1, ?_, ?_⟩
  · rintro before after rfl
    have happend : run t (before ++ after) = run (run t before) after := List.foldl_append
    rw [happend]
    exact (run_ordered (run_ordered h before).1 after).2
  · rintro before op after rfl hr
    rw [run, List.foldl_append]
    exact Operation.run_of_rejected hr

/-- A signed tunable in -1..10: the word of -5 is rejected, 7 with the bounds 2..20 is
accepted and leaves 2..10. -/
theorem bounds_kept_int32 :
    run ⟨.int32, .ofInt 64 (-1), 10, 3, false⟩ [.setVal (.ofInt 64 (-5)) none none,
      .setVal 7 (some 2) (some 20)] = ⟨.int32, 2, 10, 7, true⟩ ∧
    (run ⟨.int32, .ofInt 64 (-1), 10, 3, false⟩ [.setVal (.ofInt 64 (-5)) none none,
      .setVal 7 (some 2) (some 20)]).Ordered :=
  ⟨by decide, (bounds_kept _ ⟨by decide, by decide⟩ _).1⟩

end AwaitGlibc.TunableBounds

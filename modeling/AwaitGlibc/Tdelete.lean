import AwaitGlibc.CheckedArray
import Mathlib.Algebra.Group.Int.Defs

/-! Deletion from the red-black tree of `tsearch.c` and the stack of parents that it keeps.
`nodestack` starts with 40 slots. The search and the walk to the successor enlarge it when it is
full, but the push of the rebalancing loop does not look at its size.

A pointer to a node stands in one place only. So the tree is a value, and the places on the stack
are the parents of the place at hand, each with what it has on the other side. -/
namespace AwaitGlibc.Tdelete
open CheckedArray (ok_of_bind)

inductive Tree (K : Type)
  | nil
  | node (red : Bool) (left : Tree K) (key : K) (right : Tree K)

inductive Side
  | left | right

def Side.other : Side → Side
  | .left => .right
  | .right => .left

inductive Fault
  /-- A null pointer is dereferenced. -/
  | access
  /-- A store into `nodestack` beyond its end. -/
  | overrun
deriving DecidableEq

variable {K : Type}

namespace Tree

def isNil : Tree K → Bool
  | nil => true
  | node .. => false

/-- `p != NULL && RED (p)`. -/
def isRed : Tree K → Bool
  | nil => false
  | node red .. => red

/-- `if (p != NULL) SETBLACK (p)`. -/
def blacken : Tree K → Tree K
  | nil => nil
  | node _ l key r => node false l key r

/-- `LEFT (p)` and `RIGHT (p)`. -/
def child : Tree K → Side → Tree K
  | nil, _ => nil
  | node _ l _ _, .left => l
  | node _ _ _ r, .right => r

/-- A node with `near` on the side `d`. The two symmetric halves of the source differ in it. -/
def join (d : Side) (red : Bool) (key : K) (near far : Tree K) : Tree K :=
  match d with
  | .left => node red near key far
  | .right => node red far key near

end Tree

/-- A parent: the side on which the place at hand is, and the tree on the other one. -/
structure Frame (K : Type) where
  side : Side
  red : Bool
  key : K
  other : Tree K

/-- The whole tree, with `t` at the place at hand. -/
def fill (frames : List (Frame K)) (t : Tree K) : Tree K :=
  frames.foldl (fun t p => .join p.side p.red p.key t p.other) t

/-- `nodestack`, the top first, and `stacksize`. -/
structure Stack (K : Type) where
  frames : List (Frame K)
  size : ℕ

def Stack.brother (st : Stack K) : Tree K := st.frames.head?.elim .nil (·.other)

/-- `nodestack[sp++] = …`. -/
def Stack.push (st : Stack K) (p : Frame K) : Except Fault (Stack K) :=
  if st.frames.length < st.size then .ok { st with frames := p :: st.frames } else .error .overrun

/-- The same behind the test `sp == stacksize`. -/
def Stack.pushGrowing (st : Stack K) (p : Frame K) : Except Fault (Stack K) :=
  if st.frames.length = st.size then { st with size := st.size + 20 }.push p else st.push p

structure Place (K : Type) where
  red : Bool
  left : Tree K
  key : K
  right : Tree K
  stack : Stack K

/-- The search; `none` if there is no node with the key. -/
def locate (compar : K → K → ℤ) (key : K) : Tree K → Stack K → Except Fault (Option (Place K))
  | .nil, _ => .ok none
  | .node red l k r, st =>
    if compar key k = 0 then .ok (some ⟨red, l, k, r, st⟩)
    else if compar key k < 0 then do
      let st ← st.pushGrowing ⟨.left, red, k, r⟩
      locate compar key l st
    else do
      let st ← st.pushGrowing ⟨.right, red, k, l⟩
      locate compar key r st

/-- The walk to the successor, with the frame of the parent. -/
def successor : Tree K → Frame K → Stack K → Except Fault (Place K)
  | .nil, _, _ => .error .access
  | .node red l k r, parent, st => do
    let st ← st.pushGrowing parent
    if l.isNil then return ⟨red, l, k, r, st⟩ else successor l ⟨.left, red, k, r⟩ st

/-- The node that is unchained when the one at `p` is to be deleted. -/
def unchained (p : Place K) : Except Fault (Place K) :=
  if p.left.isNil ∨ p.right.isNil then .ok p
  else successor p.right ⟨.right, p.red, p.key, p.left⟩ p.stack

/-- The node with the key and the node that is unchained. -/
def target (compar : K → K → ℤ) (key : K) (t : Tree K) :
    Except Fault (Option (Place K × Place K)) := do
  match ← locate compar key t ⟨[], 40⟩ with
  | none => return none
  | some p =>
    let u ← unchained p
    return some (p, u)

/-- The successor of the unchained node, which takes its place. -/
def Place.remaining (u : Place K) : Tree K := if u.left.isNil then u.right else u.left

/-- `if (unchained != root) root->key = unchained->key`. -/
def moveKey (p u : Place K) : Stack K :=
  if u.stack.frames.length = p.stack.frames.length then u.stack
  else { u.stack with
    frames := u.stack.frames.modify (u.stack.frames.length - 1 - p.stack.frames.length)
      fun f => { f with key := u.key } }

/-- The part of the loop body in which the brother `q` is black; `inl` if the loop goes on with
`r = p`, and `inr` for the tree when it is done. -/
def settle (p : Frame K) (r : Tree K) : Except Fault (Tree K ⊕ Tree K) :=
  match p.other with
  | .nil => .error .access
  | .node red l key l' =>
    let near := Tree.child (.node red l key l') p.side
    let far := Tree.child (.node red l key l') p.side.other
    if near.isRed = false ∧ far.isRed = false then
      .ok (.inl (.join p.side p.red p.key r (.join p.side true key near far)))
    else if far.isRed = false then
      match near with
      | .nil => .error .access
      | .node _ _ key₂ _ =>
        .ok (.inr (.join p.side p.red key₂ (.join p.side false p.key r (near.child p.side))
          (.join p.side red key (near.child p.side.other) far)))
    else .ok (.inr (.join p.side p.red key (.join p.side false p.key r near) far.blacken))

/-- The loop body up to `--sp`: the parents left on the stack. A red brother is rotated to the top
first, and then its place is the next parent. -/
def body (p : Frame K) (rest : List (Frame K)) (size : ℕ) (r : Tree K) :
    Except Fault (List (Frame K) × (Tree K ⊕ Tree K)) :=
  match p.other with
  | .nil => .error .access
  | .node true l key l' => do
    let q := Tree.node true l key l'
    let brother : Frame K := ⟨p.side, false, key, q.child p.side.other⟩
    let p := ⟨p.side, true, p.key, q.child p.side⟩
    let st ← Stack.push ⟨brother :: rest, size⟩ p
    let t ← settle p r
    return (st.frames.tail, t)
  | .node false _ _ _ => do
    let t ← settle p r
    return (rest, t)

theorem settle_color {p : Frame K} {r t : Tree K} (h : settle p r = .ok (.inl t)) :
    t.isRed = p.red := by
  unfold settle at h
  split at h
  · cases h
  · dsimp only at h
    split_ifs at h
    · cases h
      cases p.side <;> rfl
    · split at h <;> cases h
    · cases h

theorem Stack.push_eq {st st' : Stack K} {p : Frame K} (h : st.push p = .ok st') :
    st' = { st with frames := p :: st.frames } := by
  unfold Stack.push at h
  split_ifs at h
  cases h
  rfl

/-- When the loop goes on, a parent has been taken off, or `r` is red now. -/
theorem body_decreases {p : Frame K} {rest frames : List (Frame K)} {size : ℕ} {r t : Tree K}
    (h : body p rest size r = .ok (frames, .inl t)) :
    frames = rest ∨ p.other.isRed = true ∧ frames.length = rest.length + 1 ∧ t.isRed = true := by
  unfold body at h
  split at h
  case h_1 => cases h
  case h_2 hother =>
    obtain ⟨st, hpush, h⟩ := ok_of_bind h
    obtain ⟨t', ht', h⟩ := ok_of_bind h
    cases h
    rw [Stack.push_eq hpush, hother]
    exact .inr ⟨rfl, rfl, settle_color ht'⟩
  case h_3 =>
    obtain ⟨t', -, h⟩ := ok_of_bind h
    cases h
    exact .inl rfl

/-- The rebalancing loop, and `if (r != NULL) SETBLACK (r)`. -/
def rebalance (st : Stack K) (r : Tree K) : Except Fault (Tree K) :=
  match _hst : st.frames with
  | [] => .ok r.blacken
  | p :: rest =>
    if _hr : r.isRed then .ok (fill (p :: rest) r.blacken)
    else match _hbody : body p rest st.size r with
      | .error e => .error e
      | .ok (frames, .inr t) => .ok (fill frames t)
      | .ok (frames, .inl t) => rebalance ⟨frames, st.size⟩ t
termination_by 2 * st.frames.length + if r.isRed then 0 else 1
decreasing_by
  rw [_hst, if_neg _hr]
  obtain rfl | ⟨-, hlength, hred⟩ := body_decreases _hbody
  · simp only [List.length_cons]
    split <;> omega
  · simp [hlength, hred]

/-- `__tdelete`: the tree it leaves. -/
def tdelete (compar : K → K → ℤ) (key : K) (t : Tree K) : Except Fault (Tree K) := do
  match ← target compar key t with
  | none => return t
  | some (p, u) =>
    let st := moveKey p u
    if u.red then return fill st.frames u.remaining else rebalance st u.remaining

/-! ### The stack of parents -/

/-- A stack that has only been enlarged when it was full. -/
structure Stack.Fits (st : Stack K) : Prop where
  le : st.frames.length ≤ st.size
  grown : ∃ j, st.size = 40 + 20 * j ∧ (j = 0 ∨ st.size < st.frames.length + 20)

theorem Stack.Fits.full_iff {st : Stack K} (h : st.Fits) :
    st.frames.length = st.size ↔ 40 ≤ st.frames.length ∧ 20 ∣ st.frames.length := by
  obtain ⟨hle, j, hsize, hj⟩ := h
  omega

theorem Stack.Fits.pushGrowing {st : Stack K} (h : st.Fits) (p : Frame K) :
    ∃ st', st.pushGrowing p = .ok st' ∧ st'.Fits := by
  obtain ⟨hle, j, hsize, hj⟩ := h
  unfold Stack.pushGrowing Stack.push
  by_cases hfull : st.frames.length = st.size
  · refine ⟨⟨p :: st.frames, st.size + 20⟩, ?_, ?_, j + 1, ?_, ?_⟩
    · rw [if_pos hfull, if_pos (by simp only; omega)]
    all_goals simp only [List.length_cons]; omega
  · refine ⟨⟨p :: st.frames, st.size⟩, ?_, ?_, j, hsize, ?_⟩
    · rw [if_neg hfull, if_pos (Nat.lt_of_le_of_ne hle hfull)]
    all_goals simp only [List.length_cons]; omega

theorem Stack.Fits.start : (⟨[], 40⟩ : Stack K).Fits := ⟨Nat.zero_le 40, 0, rfl, .inl rfl⟩

variable (compar : K → K → ℤ) (key : K) {t : Tree K} {st : Stack K}

theorem locate_ok (h : st.Fits) :
    ∃ found, locate compar key t st = .ok found ∧ ∀ p ∈ found, p.stack.Fits := by
  induction t generalizing st with
  | nil => exact ⟨none, rfl, nofun⟩
  | node red l k r ihl ihr =>
    rw [locate]
    split_ifs
    · exact ⟨_, rfl, by simpa using h⟩
    · obtain ⟨st', hpush, hfits⟩ := h.pushGrowing ⟨.left, red, k, r⟩
      rw [hpush]
      exact ihl hfits
    · obtain ⟨st', hpush, hfits⟩ := h.pushGrowing ⟨.right, red, k, l⟩
      rw [hpush]
      exact ihr hfits

theorem successor_ok (ht : t.isNil = false) (parent : Frame K) (h : st.Fits) :
    ∃ u, successor t parent st = .ok u ∧ u.stack.Fits := by
  induction t generalizing parent st with
  | nil => cases ht
  | node red l k r ihl ihr =>
    obtain ⟨st', hpush, hfits⟩ := h.pushGrowing parent
    rw [successor, hpush]
    by_cases hl : l.isNil = true
    · exact ⟨_, if_pos hl, hfits⟩
    · obtain ⟨u, hu, hfits'⟩ := ihl (by simpa using hl) ⟨.left, red, k, r⟩ hfits
      exact ⟨u, (if_neg hl).trans hu, hfits'⟩

theorem target_ok (t : Tree K) :
    ∃ found, target compar key t = .ok found ∧ ∀ p u, found = some (p, u) → u.stack.Fits := by
  obtain ⟨found, hlocate, hfits⟩ := locate_ok compar key (t := t) Stack.Fits.start
  rw [target, hlocate]
  cases found with
  | none => exact ⟨none, rfl, nofun⟩
  | some p =>
    have hp : p.stack.Fits := hfits p rfl
    have hu : ∃ u, unchained p = .ok u ∧ u.stack.Fits := by
      unfold unchained
      split_ifs with hnil
      · exact ⟨p, rfl, hp⟩
      · exact successor_ok (by simpa using (not_or.mp hnil).2) _ hp
    obtain ⟨u, hrun, hfits⟩ := hu
    refine ⟨some (p, u), ?_, by rintro _ _ ⟨⟩; exact hfits⟩
    change (unchained p >>= _) = _
    rw [hrun]
    rfl

theorem moveKey_spec (p u : Place K) :
    (moveKey p u).size = u.stack.size ∧ (moveKey p u).frames.length = u.stack.frames.length ∧
      (moveKey p u).brother = u.stack.brother := by
  unfold moveKey
  split_ifs
  · exact ⟨rfl, rfl, rfl⟩
  · refine ⟨rfl, List.length_modify .., ?_⟩
    unfold Stack.brother
    generalize u.stack.frames.length - 1 - p.stack.frames.length = i
    cases u.stack.frames with
    | nil => cases i <;> rfl
    | cons parent rest => cases i <;> rfl

/-! ### Rebalancing -/

theorem settle_ne_overrun (p : Frame K) (r : Tree K) : settle p r ≠ .error .overrun := by
  unfold settle
  split
  · nofun
  · dsimp only
    split_ifs
    · nofun
    · split <;> nofun
    · nofun

variable {p : Frame K} {rest : List (Frame K)} {size : ℕ} {r : Tree K}

theorem body_overrun_iff :
    body p rest size r = .error .overrun ↔ p.other.isRed = true ∧ size ≤ rest.length + 1 := by
  have hsettle (p : Frame K) (frames : List (Frame K)) :
      (settle p r >>= fun t => pure (frames, t)) ≠ .error .overrun := by
    have hne := settle_ne_overrun p r
    cases hrun : settle p r with
    | error e => rintro ⟨⟩; exact hne hrun
    | ok t => nofun
  unfold body
  split
  case h_1 hother => simp [hother, Tree.isRed]
  case h_2 hother =>
    dsimp only [Stack.push]
    rw [hother]
    split_ifs with hroom
    · refine iff_of_false (hsettle _ _) fun h => ?_
      exact absurd hroom (Nat.not_lt.mpr h.2)
    · exact iff_of_true rfl ⟨rfl, Nat.not_lt.mp hroom⟩
  case h_3 hother =>
    rw [hother]
    exact iff_of_false (hsettle p rest) (by simp [Tree.isRed])

/-- Below its size the stack has room for the push in every round. -/
theorem rebalance_of_lt (h : st.frames.length < st.size) : rebalance st r ≠ .error .overrun := by
  fun_induction rebalance st r with
  | case1 => nofun
  | case2 => nofun
  | case3 st r p rest hst hr e hbody =>
    rw [hst, List.length_cons] at h
    rintro ⟨⟩
    exact absurd (body_overrun_iff.mp hbody).2 (Nat.not_le.mpr h)
  | case4 => nofun
  | case5 st r p rest hst hr frames t hbody ih =>
    rw [hst, List.length_cons] at h
    apply ih
    obtain rfl | ⟨-, hlength, -⟩ := body_decreases hbody
    · exact Nat.lt_of_succ_lt h
    · exact hlength ▸ h

/-- Only the first round can find the stack full. -/
theorem rebalance_overrun_iff (hle : st.frames.length ≤ st.size) :
    rebalance st r = .error .overrun ↔
      r.isRed = false ∧ st.brother.isRed = true ∧ st.frames.length = st.size := by
  obtain ⟨_ | ⟨p, rest⟩, size⟩ := st
  · exact iff_of_false (by simp [rebalance]) nofun
  have hbody : (p.other.isRed = true ∧ rest.length + 1 = size) ↔
      body p rest size r = .error .overrun := by
    rw [body_overrun_iff]
    exact and_congr_right fun _ => ⟨Eq.ge, Nat.le_antisymm hle⟩
  change _ ↔ _ ∧ p.other.isRed = true ∧ rest.length + 1 = size
  rw [hbody, rebalance]
  by_cases hr : r.isRed = true
  · simp [hr]
  simp only [hr, Bool.false_eq_true, dite_false, true_and]
  split
  case h_1 e hrun => simp [hrun]
  case h_2 hrun => simp [hrun]
  case h_3 frames t hrun =>
    rw [hrun] at hbody ⊢
    refine iff_of_false (rebalance_of_lt ?_) nofun
    obtain rfl | ⟨hred, hlength, -⟩ := body_decreases hrun
    · exact hle
    · refine Nat.lt_of_le_of_ne (hlength ▸ hle) fun hfull => ?_
      cases hbody.mp ⟨hred, hlength ▸ hfull⟩

/-- The node that is unchained is black, its successor is not red, its brother is red, and it has
40, 60, 80, … parents. -/
def Overruns (compar : K → K → ℤ) (key : K) (t : Tree K) : Prop :=
  ∃ found ∈ (target compar key t).toOption.join, found.2.red = false ∧
    found.2.remaining.isRed = false ∧ found.2.stack.brother.isRed = true ∧
    40 ≤ found.2.stack.frames.length ∧ 20 ∣ found.2.stack.frames.length

instance (t : Tree K) : Decidable (Overruns compar key t) :=
  inferInstanceAs (Decidable (∃ found ∈ _, _))

theorem tdelete_overrun_iff (t : Tree K) :
    tdelete compar key t = .error .overrun ↔ Overruns compar key t := by
  obtain ⟨found, hfound, hfits⟩ := target_ok compar key t
  rw [tdelete, Overruns, hfound]
  cases found with
  | none => exact iff_of_false nofun nofun
  | some found =>
    obtain ⟨p, u⟩ := found
    obtain ⟨hsize, hlength, hbrother⟩ := moveKey_spec p u
    have hu := hfits p u rfl
    have hle : (moveKey p u).frames.length ≤ (moveKey p u).size := by
      rw [hlength, hsize]
      exact hu.le
    change (if u.red = true then pure (fill (moveKey p u).frames u.remaining)
      else rebalance (moveKey p u) u.remaining) = .error .overrun ↔
        ∃ found ∈ some (p, u), found.2.red = false ∧ _
    simp only [Option.mem_some_iff, exists_eq_left']
    rw [← hu.full_iff, ← hbrother, ← hsize, ← hlength, ← rebalance_overrun_iff hle]
    cases u.red with
    | true => exact iff_of_false nofun nofun
    | false => simp

/-- Every store into `nodestack` has an index below its size, unless the node that is unchained is
black with a successor that is not red, has a red brother, and has 40, 60, 80, … parents. -/
theorem tdelete_inside_iff (compar : K → K → ℤ) (key : K) (t : Tree K) :
    tdelete compar key t ≠ .error .overrun ↔ ¬ Overruns compar key t :=
  (tdelete_overrun_iff compar key t).not

/-! ### A tree with a path of 41 nodes -/

/-- The red-black rules, for a tree with `n` black nodes on every path. -/
inductive Balanced : Tree K → ℕ → Prop
  | nil : Balanced .nil 0
  | red {l r : Tree K} {k : K} {n : ℕ} (hl : Balanced l n) (hr : Balanced r n)
      (hred : l.isRed = false ∧ r.isRed = false) : Balanced (.node true l k r) n
  | black {l r : Tree K} {k : K} {n : ℕ} (hl : Balanced l n) (hr : Balanced r n) :
      Balanced (.node false l k r) (n + 1)

def Between : Tree ℤ → ℤ → ℤ → Prop
  | .nil, lo, hi => lo < hi
  | .node _ l k r, lo, hi => Between l lo k ∧ Between r k hi

def perfect : ℕ → ℤ → Tree ℤ
  | 0, _ => .nil
  | n + 1, lo => .node false (perfect n lo) (lo + 2 ^ n) (perfect n (lo + 2 ^ n))

/-- The keys of `spine i` are below it. -/
def bound : ℕ → ℤ
  | 0 => 10
  | i + 1 => bound i + 2 ^ (i + 3) + 2 ^ (i + 3)

/-- The leftmost node is black with a red brother. Above its grandparent, red and black parents
alternate. -/
def spine : ℕ → Tree ℤ
  | 0 =>
    .node false (.node false (perfect 1 0) 2 (.node true (perfect 1 2) 4 (perfect 1 4))) 6
      (perfect 2 6)
  | i + 1 =>
    .node false (.node true (spine i) (bound i) (perfect (i + 3) (bound i)))
      (bound i + 2 ^ (i + 3)) (perfect (i + 3) (bound i + 2 ^ (i + 3)))

theorem perfect_spec (n : ℕ) (lo : ℤ) :
    Balanced (perfect n lo) n ∧ (perfect n lo).isRed = false ∧
      Between (perfect n lo) lo (lo + 2 ^ n) := by
  induction n generalizing lo with
  | zero => exact ⟨.nil, rfl, Int.lt_succ lo⟩
  | succ n ih =>
    have hsum : lo + 2 ^ (n + 1) = lo + 2 ^ n + 2 ^ n := by omega
    rw [hsum]
    exact ⟨.black (ih lo).1 (ih _).1, rfl, (ih lo).2.2, (ih _).2.2⟩

theorem spine_spec (i : ℕ) :
    Balanced (spine i) (i + 3) ∧ (spine i).isRed = false ∧ Between (spine i) 0 (bound i) := by
  induction i with
  | zero =>
    refine ⟨.black (.black (perfect_spec 1 0).1 ?_) (perfect_spec 2 6).1, rfl,
      ⟨(perfect_spec 1 0).2.2, (perfect_spec 1 2).2.2, (perfect_spec 1 4).2.2⟩,
      (perfect_spec 2 6).2.2⟩
    exact .red (perfect_spec 1 2).1 (perfect_spec 1 4).1 ⟨rfl, rfl⟩
  | succ i ih =>
    obtain ⟨hbalanced, hblack, hbetween⟩ := ih
    have hnear := perfect_spec (i + 3) (bound i)
    have hfar := perfect_spec (i + 3) (bound i + 2 ^ (i + 3))
    exact ⟨.black (.red hbalanced hnear.1 ⟨hblack, hnear.2.1⟩) hfar.1, rfl,
      ⟨hbetween, hnear.2.2⟩, hfar.2.2⟩

/-- Deleting the smallest of some eight million keys. -/
theorem tdelete_overruns :
    Balanced (spine 19) 22 ∧ Between (spine 19) 0 (bound 19) ∧
      tdelete (· - ·) 1 (spine 19) = .error .overrun := by
  obtain ⟨hbalanced, -, hbetween⟩ := spine_spec 19
  refine ⟨hbalanced, hbetween, (tdelete_overrun_iff (· - ·) 1 _).mpr ?_⟩
  decide +kernel

end AwaitGlibc.Tdelete

import Mathlib.Data.List.Perm.Subperm
import Mathlib.Logic.Relation
import Mathlib.Tactic.Common

/-!
# Depth-first traversal

A traversal of a graph given by lists of successors. A node is seen when the
traversal enters it and done when it leaves it; `done` lists the nodes in the
order in which they were left, the latest first. The nodes seen and not done are
those the traversal is inside of.

In a graph without cycles the order of leaving is a topological one: every node
has its successors behind it. An edge from a node to itself does not count, as a
traversal never enters a node twice.
-/
namespace AwaitGlibc.DepthFirst
variable {α : Type}

structure State (α : Type) where
  seen : List α
  done : List α

def State.empty : State α := ⟨[], []⟩

/-- Enter `v` unless it has been seen, then its successors, then leave it. The
fuel bounds the depth. -/
def visit [DecidableEq α] (succ : α → List α) : ℕ → α → State α → Option (State α)
  | 0, _, _ => none
  | fuel + 1, v, s =>
    if v ∈ s.seen then some s
    else do
      let s ← (succ v).foldlM (fun s w => visit succ fuel w s) ⟨v :: s.seen, s.done⟩
      return ⟨s.seen, v :: s.done⟩

def visitAll [DecidableEq α] (succ : α → List α) (fuel : ℕ) (vs : List α) (s : State α) : Option (State α) :=
  vs.foldlM (fun s w => visit succ fuel w s) s

/-- What a traversal adds: nodes that are now done, each seen for the first time. -/
def Extends (s s' : State α) : Prop :=
  ∃ new, s'.done = new ++ s.done ∧ s'.seen.Perm (new ++ s.seen) ∧
    (s.seen.Nodup → s'.seen.Nodup)

theorem Extends.refl (s : State α) : Extends s s := ⟨[], rfl, .refl _, id⟩

theorem Extends.trans {s₁ s₂ s₃ : State α} (h₁ : Extends s₁ s₂) (h₂ : Extends s₂ s₃) :
    Extends s₁ s₃ := by
  obtain ⟨a, hda, hsa, hna⟩ := h₁
  obtain ⟨b, hdb, hsb, hnb⟩ := h₂
  refine ⟨b ++ a, ?_, ?_, hnb ∘ hna⟩
  · rw [hdb, hda, List.append_assoc]
  · rw [List.append_assoc]
    exact hsb.trans (hsa.append_left b)

variable {s s' : State α}

theorem Extends.seen_subset (h : Extends s s') {x : α} (hx : x ∈ s.seen) : x ∈ s'.seen := by
  obtain ⟨new, -, hseen, -⟩ := h
  exact hseen.mem_iff.mpr (List.mem_append_right _ hx)

theorem Extends.length_le (h : Extends s s') : s.seen.length ≤ s'.seen.length := by
  obtain ⟨new, -, hseen, -⟩ := h
  rw [hseen.length_eq, List.length_append]
  exact Nat.le_add_left _ _

theorem Extends.length_sub (h : Extends s s') :
    s'.seen.length + s.done.length = s'.done.length + s.seen.length := by
  obtain ⟨new, hdone, hseen, -⟩ := h
  rw [hseen.length_eq, hdone, List.length_append, List.length_append]
  omega

theorem Extends.inside (h : Extends s s') {x : α} (hx : x ∈ s'.seen) (hnot : x ∉ s'.done) :
    x ∈ s.seen ∧ x ∉ s.done := by
  obtain ⟨new, hdone, hseen, -⟩ := h
  rw [hdone, List.mem_append, not_or] at hnot
  exact ⟨(List.mem_append.mp (hseen.mem_iff.mp hx)).resolve_left hnot.1, hnot.2⟩

section Steps
variable [DecidableEq α] {succ : α → List α}

theorem visitAll_append (fuel : ℕ) (vs ws : List α) (s : State α) :
    visitAll succ fuel (vs ++ ws) s = visitAll succ fuel vs s >>= visitAll succ fuel ws := by
  simp only [visitAll, List.foldlM_append]
  rfl

variable {fuel : ℕ} {v : α} {s s' : State α}

theorem visitAll_cons {vs : List α} (h : visitAll succ fuel (v :: vs) s = some s') :
    ∃ s₁, visit succ fuel v s = some s₁ ∧ visitAll succ fuel vs s₁ = some s' := by
  exact Option.bind_eq_some_iff.mp h

theorem visit_cases (h : visit succ (fuel + 1) v s = some s') :
    (v ∈ s.seen ∧ s' = s) ∨
      (v ∉ s.seen ∧ ∃ s₁, visitAll succ fuel (succ v) ⟨v :: s.seen, s.done⟩ = some s₁ ∧
        s' = ⟨s₁.seen, v :: s₁.done⟩) := by
  rw [visit] at h
  split_ifs at h with hv
  · exact .inl ⟨hv, (Option.some.inj h).symm⟩
  · obtain ⟨s₁, hs₁, heq⟩ := Option.bind_eq_some_iff.mp h
    exact .inr ⟨hv, s₁, hs₁, (Option.some.inj heq).symm⟩

/-- A property of single visits that composes holds of a row of visits. -/
theorem visitAll_extends
    (hvisit : ∀ v s s', visit succ fuel v s = some s' → Extends s s' ∧ v ∈ s'.seen) {vs : List α}
    (h : visitAll succ fuel vs s = some s') : Extends s s' ∧ ∀ v ∈ vs, v ∈ s'.seen := by
  induction vs generalizing s with
  | nil =>
    cases h
    exact ⟨.refl _, by simp⟩
  | cons v vs ih =>
    obtain ⟨s₁, hv, hrest⟩ := visitAll_cons h
    obtain ⟨hext₁, hmem⟩ := hvisit v s s₁ hv
    obtain ⟨hext₂, hall⟩ := ih hrest
    exact ⟨hext₁.trans hext₂, List.forall_mem_cons.mpr ⟨hext₂.seen_subset hmem, hall⟩⟩

theorem visit_extends (h : visit succ fuel v s = some s') : Extends s s' ∧ v ∈ s'.seen := by
  induction fuel generalizing v s s' with
  | zero => cases h
  | succ fuel ih =>
    obtain ⟨hv, rfl⟩ | ⟨hv, s₁, hrun, rfl⟩ := visit_cases h
    · exact ⟨.refl _, hv⟩
    · obtain ⟨⟨new, hdone, hseen, hnodup⟩, -⟩ := visitAll_extends (fun _ _ _ => ih) hrun
      refine ⟨⟨v :: new, ?_, ?_, fun hs => hnodup (List.nodup_cons.mpr ⟨hv, hs⟩)⟩, ?_⟩
      · simp [hdone]
      · exact hseen.trans List.perm_middle
      · exact hseen.mem_iff.mpr (List.mem_append_right _ List.mem_cons_self)

end Steps

/-! ## Every node is reached in the end -/

section Total
variable {succ : α → List α} {nodes : List α}

structure Inside (nodes : List α) (s : State α) : Prop where
  subset : s.seen ⊆ nodes
  nodup : s.seen.Nodup

theorem Inside.length_le {s : State α} (h : Inside nodes s) : s.seen.length ≤ nodes.length :=
  (List.subperm_of_subset h.nodup h.subset).length_le

theorem Inside.length_lt {s : State α} (h : Inside nodes s) {v : α} (hv : v ∈ nodes)
    (hnot : v ∉ s.seen) : s.seen.length < nodes.length := by
  have hsub : v :: s.seen ⊆ nodes := List.cons_subset.mpr ⟨hv, h.subset⟩
  exact (List.subperm_of_subset (List.nodup_cons.mpr ⟨hnot, h.nodup⟩) hsub).length_le

end Total

/-! ## The order of leaving -/

section Order
variable {succ : α → List α} {nodes : List α}

def Edge (nodes : List α) (succ : α → List α) (x y : α) : Prop :=
  x ∈ nodes ∧ y ∈ succ x ∧ y ≠ x

def Acyclic (nodes : List α) (succ : α → List α) : Prop :=
  ∀ x, ¬Relation.TransGen (Edge nodes succ) x x

/-- Every node has its successors behind it. -/
def Topological (succ : α → List α) : List α → Prop
  | [] => True
  | x :: rest => (∀ y ∈ succ x, y ≠ x → y ∈ rest) ∧ Topological succ rest

theorem Topological.behind {done : List α} (h : Topological succ done) {front back : List α}
    {x y : α} (hd : done = front ++ x :: back) (hy : y ∈ succ x) (hne : y ≠ x) : y ∈ back := by
  induction front generalizing done with
  | nil =>
    subst hd
    exact h.1 y hy hne
  | cons z front ih =>
    subst hd
    exact ih h.2 rfl

theorem Topological.congr {succ' : α → List α} {done : List α} (h : Topological succ done)
    (hsucc : ∀ x ∈ done, succ' x = succ x) : Topological succ' done := by
  induction done with
  | nil => trivial
  | cons x rest ih =>
    rw [List.forall_mem_cons] at hsucc
    refine ⟨?_, ih h.2 hsucc.2⟩
    rw [hsucc.1]
    exact h.1

theorem Acyclic.congr {succ' : α → List α} (h : Acyclic nodes succ)
    (hsucc : ∀ x ∈ nodes, succ' x = succ x) : Acyclic nodes succ' := by
  have hedge : Edge nodes succ' = Edge nodes succ := by
    funext x y
    by_cases hx : x ∈ nodes
    · simp [Edge, hsucc x hx]
    · simp [Edge, hx]
  rw [Acyclic, hedge]
  exact h

theorem Acyclic.of_perm {nodes' : List α} (h : Acyclic nodes succ) (hp : nodes.Perm nodes') :
    Acyclic nodes' succ := by
  have hedge : Edge nodes' succ = Edge nodes succ := by
    funext x y
    simp [Edge, hp.mem_iff]
  rw [Acyclic, hedge]
  exact h

/-- The nodes the traversal is inside of lead to `v`. -/
def LeadsTo (nodes : List α) (succ : α → List α) (s : State α) (v : α) : Prop :=
  ∀ x ∈ s.seen, x ∉ s.done → Relation.ReflTransGen (Edge nodes succ) x v

theorem LeadsTo.of_extends {s s' : State α} {v : α} (h : LeadsTo nodes succ s v)
    (he : Extends s s') : LeadsTo nodes succ s' v := by
  intro x hx hnot
  obtain ⟨hseen, hdone⟩ := he.inside hx hnot
  exact h x hseen hdone

theorem visit_topological [DecidableEq α] (hac : Acyclic nodes succ)
    (hclosed : ∀ v ∈ nodes, ∀ w ∈ succ v, w ∈ nodes) {fuel : ℕ} {v : α} {s s' : State α}
    (h : visit succ fuel v s = some s') (hv : v ∈ nodes)
    (hlead : v ∉ s.seen → LeadsTo nodes succ s v)
    (hs : Topological succ s.done) : Topological succ s'.done := by
  induction fuel generalizing v s s' with
  | zero => cases h
  | succ fuel ih =>
    obtain ⟨-, rfl⟩ | ⟨hseen, s₁, hrun, rfl⟩ := visit_cases h
    · exact hs
    · -- from inside `v`, the nodes on the way lead to every successor of `v`
      have hlead' : LeadsTo nodes succ ⟨v :: s.seen, s.done⟩ v := by
        intro x hx hnot
        obtain rfl | hx := List.mem_cons.mp hx
        · exact .refl
        · exact hlead hseen x hx hnot
      have hall (ws : List α) (hws : ∀ w ∈ ws, w ∈ succ v) (s₂ s₃ : State α)
          (hext : Extends ⟨v :: s.seen, s.done⟩ s₂) (htopo : Topological succ s₂.done)
          (hrun : visitAll succ fuel ws s₂ = some s₃) : Topological succ s₃.done := by
        induction ws generalizing s₂ with
        | nil =>
          cases hrun
          exact htopo
        | cons w ws ihws =>
          rw [List.forall_mem_cons] at hws
          obtain ⟨s₄, hw, hrest⟩ := visitAll_cons hrun
          refine ihws hws.2 s₄ (hext.trans (visit_extends hw).1) ?_ hrest
          refine ih hw (hclosed v hv w hws.1) (fun hnot => ?_) htopo
          have hne : w ≠ v := by
            rintro rfl
            exact hnot (hext.seen_subset List.mem_cons_self)
          intro x hx hdone
          exact (hlead'.of_extends hext x hx hdone).tail ⟨hv, hws.1, hne⟩
      obtain ⟨hext, hmem⟩ := visitAll_extends (fun _ _ _ => visit_extends) hrun
      refine ⟨fun y hy hne => ?_, hall _ (fun _ => id) _ _ (.refl _) hs hrun⟩
      -- a successor the traversal is still inside of would close a cycle
      by_contra hnot
      exact hac y (.tail' (hlead'.of_extends hext y (hmem y hy) hnot) ⟨hv, hy, hne⟩)

end Order

end AwaitGlibc.DepthFirst

import Mathlib

/-! Circular doubly linked lists. A ring is a segment of cells from its head back to its head;
inserting, removing and joining are changes of where a segment starts. -/
namespace AwaitGlibc.RingList

variable {A : Type}

structure Links (A : Type) where
  next : A → A
  prev : A → A

/-- The cells `cells` lie between `x` and `y`, linked in both directions. -/
def Segment (h : Links A) : A → List A → A → Prop
  | x, [], y => h.next x = y ∧ h.prev y = x
  | x, z :: zs, y => (h.next x = z ∧ h.prev z = x) ∧ Segment h z zs y

structure Ring (h : Links A) (head : A) (cells : List A) : Prop where
  segment : Segment h head cells head
  nodup : (head :: cells).Nodup

variable {h h' : Links A} {x y z head : A} {xs ys cells : List A}

theorem segment_append : Segment h x (xs ++ z :: ys) y ↔ Segment h x xs z ∧ Segment h z ys y := by
  induction xs generalizing x with
  | nil => rfl
  | cons w ws ih => rw [List.cons_append, Segment, Segment, ih, ← and_assoc]

section
variable (hs : Segment h x xs y)
include hs

theorem Segment.congr (hnext : ∀ a ∈ x :: xs, h'.next a = h.next a)
    (hprev : ∀ a ∈ xs ++ [y], h'.prev a = h.prev a) : Segment h' x xs y := by
  induction xs generalizing x with
  | nil =>
    rw [Segment, hnext x (by simp), hprev y (by simp)]
    exact hs
  | cons w ws ih =>
    rw [Segment, hnext x (by simp), hprev w (by simp)]
    refine ⟨hs.1, ih hs.2 ?_ ?_⟩
    · exact fun a ha => hnext a (List.mem_cons_of_mem _ ha)
    · exact fun a ha => hprev a (List.mem_cons_of_mem _ ha)

theorem Segment.restart {x' : A} (hfirst : h'.next x' = h.next x)
    (hback : h'.prev (h.next x) = x') (hnodup : (xs ++ [y]).Nodup)
    (hnext : ∀ a ∈ xs, h'.next a = h.next a)
    (hprev : ∀ a ∈ xs ++ [y], a ≠ h.next x → h'.prev a = h.prev a) : Segment h' x' xs y := by
  cases xs with
  | nil => exact ⟨hfirst.trans hs.1, hs.1 ▸ hback⟩
  | cons w ws =>
    obtain ⟨⟨hw, -⟩, hrest⟩ := hs
    refine ⟨⟨hfirst.trans hw, hw ▸ hback⟩, hrest.congr hnext ?_⟩
    intro a ha
    apply hprev a (List.mem_cons_of_mem _ ha)
    intro heq
    exact (List.nodup_cons.mp hnodup).1 (hw ▸ heq ▸ ha)

theorem Segment.last :
    (xs = [] ∧ h.prev y = x) ∨ ∃ front, xs = front ++ [h.prev y] ∧ Segment h x front (h.prev y) := by
  cases List.eq_nil_or_concat xs with
  | inl hnil =>
    subst hnil
    exact .inl ⟨rfl, hs.2⟩
  | inr hconcat =>
    obtain ⟨front, w, hxs⟩ := hconcat
    rw [List.concat_eq_append] at hxs
    subst hxs
    obtain ⟨hfront, -, hw⟩ := segment_append.mp hs
    subst hw
    exact .inr ⟨front, rfl, hfront⟩

theorem Segment.prev_mem : h.prev y ∈ x :: xs := by
  cases hs.last with
  | inl hnil => rw [hnil.2]; exact List.mem_cons_self
  | inr hfront =>
    obtain ⟨front, hxs, -⟩ := hfront
    rw [hxs]
    simp

theorem Segment.next_mem : h.next x ∈ xs ++ [y] := by
  cases xs with
  | nil => rw [hs.1]; simp
  | cons w ws => rw [hs.1.1]; simp

end

/-! ### Rings -/

section
variable (hr : Ring h head cells)
include hr

theorem Ring.congr (heq : ∀ a ∈ head :: cells, h'.next a = h.next a ∧ h'.prev a = h.prev a) :
    Ring h' head cells where
  segment := by
    apply hr.segment.congr
    · exact fun a ha => (heq a ha).1
    · intro a ha
      exact (heq a (by simpa [or_comm] using ha)).2
  nodup := hr.nodup

theorem Ring.next_mem : h.next head ∈ head :: cells := by
  simpa [or_comm] using hr.segment.next_mem

theorem Ring.prev_next : h.prev (h.next head) = head := by
  obtain ⟨hs, -⟩ := hr
  cases cells with
  | nil => rw [hs.1, hs.2]
  | cons w ws => rw [hs.1.1, hs.1.2]

theorem Ring.nodup_end : (cells ++ [head]).Nodup :=
  (List.perm_append_singleton head cells).nodup_iff.mpr hr.nodup

end

theorem Ring.of_self (hnext : h.next head = head) (hprev : h.prev head = head) : Ring h head [] :=
  ⟨⟨hnext, hprev⟩, List.nodup_singleton head⟩

theorem Ring.neighbours {elem : A} (hr : Ring h head cells)
    (hmem : elem ∈ cells) :
    (h.next elem ∈ head :: cells ∧ h.next elem ≠ elem) ∧
      h.prev elem ∈ head :: cells ∧ h.prev elem ≠ elem := by
  obtain ⟨xs, ys, rfl⟩ := List.append_of_mem hmem
  obtain ⟨hleft, hright⟩ := segment_append.mp hr.segment
  have hnext := hright.next_mem
  have hprev := hleft.prev_mem
  have hnodup := hr.nodup
  grind

theorem Ring.insert {e : A} (hr : Ring h head cells) (he : e ∉ head :: cells)
    (hhead : h'.next head = e) (hback : h'.prev e = head) (hfirst : h'.next e = h.next head)
    (hsecond : h'.prev (h.next head) = e) (hnext : ∀ a ∈ cells, h'.next a = h.next a)
    (hprev : ∀ a ∈ head :: cells, a ≠ h.next head → h'.prev a = h.prev a) :
    Ring h' head (e :: cells) := by
  constructor
  · refine ⟨⟨hhead, hback⟩, hr.segment.restart hfirst hsecond hr.nodup_end hnext ?_⟩
    exact fun a ha => hprev a (by simpa [or_comm] using ha)
  · have hswap : (e :: head :: cells).Nodup := List.nodup_cons.mpr ⟨he, hr.nodup⟩
    exact (List.Perm.swap head e cells).nodup_iff.mp hswap

theorem Ring.remove {e : A} (hr : Ring h head (xs ++ e :: ys))
    (hprev' : h'.prev (h.next e) = h.prev e) (hnext' : h'.next (h.prev e) = h.next e)
    (hnext : ∀ a ∈ head :: (xs ++ ys), a ≠ h.prev e → h'.next a = h.next a)
    (hprev : ∀ a ∈ head :: (xs ++ ys), a ≠ h.next e → h'.prev a = h.prev a) :
    Ring h' head (xs ++ ys) := by
  obtain ⟨hsegment, hnodup⟩ := hr
  obtain ⟨hleft, hright⟩ := segment_append.mp hsegment
  have hbefore := hleft.prev_mem
  have hafter := hright.next_mem
  -- the cells behind the removed one now start at the cell before it
  have hback : Segment h' (h.prev e) ys head := by
    apply hright.restart hnext' hprev'
    · grind
    · grind
    · intro a ha
      apply hprev a
      simp only [List.mem_append, List.mem_cons, List.not_mem_nil, or_false] at ha ⊢
      exact ha.elim (fun ha => .inr (.inr ha)) .inl
  constructor
  · cases hleft.last with
    | inl hnil =>
      rw [hnil.1, List.nil_append]
      rwa [hnil.2] at hback
    | inr hfront =>
      obtain ⟨front, hxs, hfront⟩ := hfront
      rw [hxs, List.append_assoc, List.singleton_append]
      refine segment_append.mpr ⟨hfront.congr ?_ ?_, hback⟩
      · intro a ha
        apply hnext a <;> grind
      · intro a ha
        apply hprev a <;> grind
  · grind

theorem Ring.splice {add : A} (hadd : Ring h add xs) (hr : Ring h head ys) (hne : xs ≠ [])
    (hdisjoint : ∀ a ∈ add :: xs, a ∉ head :: ys)
    (hhead : h'.next head = h.next add) (hback : h'.prev (h.next add) = head)
    (hlast : h'.next (h.prev add) = h.next head) (hjoin : h'.prev (h.next head) = h.prev add)
    (hnext : ∀ a ∈ xs ++ ys, a ≠ h.prev add → h'.next a = h.next a)
    (hprev : ∀ a ∈ head :: (xs ++ ys), a ≠ h.next add → a ≠ h.next head → h'.prev a = h.prev a) :
    Ring h' head (xs ++ ys) := by
  have hfirst := hadd.segment.next_mem
  have hfirst' := hr.next_mem
  obtain ⟨hsegment, hnodup⟩ := hadd
  obtain hnil | ⟨front, hxs, hfront⟩ := hsegment.last
  · exact absurd hnil.1 hne
  have hnodup' := hr.nodup
  constructor
  · rw [hxs, List.append_assoc, List.singleton_append]
    apply segment_append.mpr
    constructor
    · apply hfront.restart hhead hback <;> grind
    · apply hr.segment.restart hlast hjoin <;> grind
  · grind

end AwaitGlibc.RingList

import Mathlib
import AwaitGlibc.SortMaps

/-!
# Sorting link maps by moving them back

`_dl_sort_maps_original` looks at the map in position `i` and moves it behind the
last map that depends on it, until a map comes to that position on which no later
one depends. Counters of 16 bits say how often each map was looked at; a map
looked at more often than there are maps left is taken to be in a cycle and stays.
With 65535 maps left no counter can say so.
-/
namespace AwaitGlibc.SortMaps
open CheckedArray

variable {α : Type}

/-- The condition under which `thisp` is moved behind `map`. A relocation dependency
does not count against a static one the other way. -/
def Graph.needs [DecidableEq α] (g : Graph α) (forFini : Bool) (map thisp : α) : Bool :=
  decide (thisp ∈ (g.initfini map).getD []) ||
    (forFini && decide (thisp ∈ (g.reldeps map).getD [] ∧ map ∉ (g.initfini thisp).getD []))

namespace Original

/-- The maps before position `i`, and those from it on with their counters `seen`. -/
structure State (α : Type) where
  done : List α
  window : List (α × ℕ)

/-- `memset (&seen[i], 0, …)`. -/
def clear (window : List (α × ℕ)) : List (α × ℕ) := window.map fun e => (e.1, 0)

def step (needs : α → α → Bool) (unhandled : α → Bool) (s : State α) : State α :=
  match s.window with
  | [] => s
  | (thisp, seen) :: rest =>
    if unhandled thisp then ⟨s.done ++ [thisp], clear rest⟩
    else
      match rest.rdropWhile fun e => !needs e.1 thisp with
      | [] => ⟨s.done ++ [thisp], clear rest⟩
      | (next, count) :: front =>
        let back := rest.rtakeWhile fun e => !needs e.1 thisp
        let moved := front ++ (thisp, (seen + 1) % 65536) :: back
        -- The test reads `seen` before its entries are moved like those of `maps`.
        if rest.length + 1 < count then ⟨s.done ++ [next], clear moved⟩
        else ⟨s.done, (next, count) :: moved⟩

def start (maps : List α) : State α := ⟨[], maps.map fun map => (map, 0)⟩

/-- The loop, which ends when `i` reaches `nmaps`. -/
def loop (needs : α → α → Bool) (unhandled : α → Bool) : ℕ → State α → Except Fault (List α)
  | 0, _ => .error .outOfFuel
  | fuel + 1, s =>
    let s := step needs unhandled s
    if s.window.isEmpty then .ok s.done else loop needs unhandled fuel s

end Original

open Original in
/-- `_dl_sort_maps_original`: the array `maps` afterwards. `unhandled` tells of a map
with `l_real` another map or `l_idx == -1`. -/
def dlSortMapsOriginal [DecidableEq α] (g : Graph α) (unhandled : α → Bool) (fuel : ℕ)
    (maps : List α) (skip : ℕ) (forFini : Bool) : Except Fault (List α) :=
  if (maps.drop skip).length ≤ 1 then .ok maps
  else do
    let sorted ← loop (g.needs forFini) (fun map => forFini && unhandled map) fuel
      (start (maps.drop skip))
    return maps.take skip ++ sorted

namespace Original

/-! ### What a round does -/

variable {needs : α → α → Bool} {unhandled : α → Bool}

inductive Moves (needs : α → α → Bool) (unhandled : α → Bool) : State α → State α → Prop
  | take {done rest x c} (h : unhandled x = true ∨ ∀ e ∈ rest, needs e.1 x = false) :
      Moves needs unhandled ⟨done, (x, c) :: rest⟩ ⟨done ++ [x], clear rest⟩
  | cut {done x c c' y d front back} (hcount : front.length + back.length + 2 < d) :
      Moves needs unhandled ⟨done, (x, c) :: (y, d) :: (front ++ back)⟩
        ⟨done ++ [y], clear (front ++ (x, c') :: back)⟩
  | move {done x c y d front back} (hcount : d ≤ front.length + back.length + 2)
      (hfront : ∃ e ∈ (y, d) :: front, needs e.1 x = true) (hback : ∀ e ∈ back, needs e.1 x = false) :
      Moves needs unhandled ⟨done, (x, c) :: (y, d) :: (front ++ back)⟩
        ⟨done, (y, d) :: (front ++ (x, (c + 1) % 65536) :: back)⟩

variable {s s' : State α}

theorem step_moves (needs : α → α → Bool) (unhandled : α → Bool) (hs : s.window ≠ []) :
    Moves needs unhandled s (step needs unhandled s) := by
  obtain ⟨done, window⟩ := s
  cases window with
  | nil => exact absurd rfl hs
  | cons e rest =>
    obtain ⟨x, c⟩ := e
    simp only [step]
    split_ifs with hskip
    · exact .take (.inl hskip)
    · have hsplit := List.rdropWhile_append_rtakeWhile (p := fun e : α × ℕ => !needs e.1 x) (l := rest)
      have hback : ∀ e ∈ rest.rtakeWhile fun e => !needs e.1 x, needs e.1 x = false := by
        intro e he
        simpa using List.mem_rtakeWhile_imp he
      cases hfront : rest.rdropWhile fun e => !needs e.1 x with
      | nil =>
        rw [List.rdropWhile_eq_nil_iff] at hfront
        exact .take (.inr fun e he => by simpa using hfront e he)
      | cons next front =>
        obtain ⟨y, d⟩ := next
        have hne : rest.rdropWhile (fun e => !needs e.1 x) ≠ [] := by simp [hfront]
        have hlast := List.rdropWhile_last_not _ rest hne
        have hmem := List.getLast_mem hne
        generalize List.getLast _ hne = last at hlast hmem
        rw [hfront] at hsplit hmem
        generalize rest.rtakeWhile (fun e => !needs e.1 x) = back at *
        subst hsplit
        simp only [List.cons_append, List.length_cons, List.length_append]
        split_ifs with hcount
        · exact .cut (by omega)
        · exact .move (by omega) ⟨last, hmem, by simpa using hlast⟩ hback

def State.maps (s : State α) : List α := s.done ++ s.window.map Prod.fst

variable {maps : List α}

theorem clear_maps (window : List (α × ℕ)) : (clear window).map Prod.fst = window.map Prod.fst := by
  simp [clear]

theorem moved_perm (x y : α) (c c' d : ℕ) (front back : List (α × ℕ)) :
    (((y, d) :: (front ++ (x, c') :: back)).map Prod.fst).Perm
      (((x, c) :: (y, d) :: (front ++ back)).map Prod.fst) := by
  simp only [List.map_append, List.map_cons]
  exact (List.perm_middle.cons y).trans (.swap x y _)

theorem Moves.perm (h : Moves needs unhandled s s') : s'.maps.Perm s.maps := by
  cases h with
  | take => simp [State.maps, clear_maps]
  | cut =>
    rw [State.maps, clear_maps, List.append_assoc]
    exact (moved_perm _ _ _ _ _ _ _).append_left _
  | move => exact (moved_perm _ _ _ _ _ _ _).append_left _

/-! ### The loop ends -/

/-- No counter is about to wrap around: the map in position `i` was not looked at more
often than there are maps left. -/
structure Bounded (s : State α) : Prop where
  small : s.window.length < 65535
  head : ∀ e ∈ s.window.head?, e.2 ≤ s.window.length
  all : ∀ e ∈ s.window, e.2 ≤ s.window.length + 1

/-- How often maps can still be looked at in this position. -/
def slack (s : State α) : ℕ := (s.window.map fun e => s.window.length + 1 - e.2).sum

theorem bounded_clear (done : List α) (window : List (α × ℕ)) (h : window.length < 65535) :
    Bounded ⟨done, clear window⟩ := by
  constructor
  case small => simpa [clear] using h
  case head =>
    intro e he
    obtain ⟨_, _, rfl⟩ := List.mem_map.mp (List.mem_of_mem_head? he)
    exact Nat.zero_le _
  case all =>
    intro e he
    obtain ⟨_, _, rfl⟩ := List.mem_map.mp he
    exact Nat.zero_le _

theorem start_window (maps : List α) : (start maps).window = clear (start maps).window := by
  rw [start, clear, List.map_map]
  rfl

theorem start_maps (maps : List α) : (start maps).window.map Prod.fst = maps := by
  rw [start, List.map_map]
  exact List.map_id maps

theorem start_bounded (h : maps.length < 65535) : Bounded (start maps) := by
  have hclear := bounded_clear [] (start maps).window (by simpa [start] using h)
  rwa [← start_window] at hclear

theorem Moves.bounded (h : Moves needs unhandled s s') (hs : Bounded s) : Bounded s' := by
  have hsmall := hs.small
  cases h with
  | take =>
    simp only [List.length_cons] at hsmall
    exact bounded_clear _ _ (by omega)
  | cut =>
    simp only [List.length_cons, List.length_append] at hsmall
    refine bounded_clear _ _ ?_
    simp only [List.length_cons, List.length_append]
    omega
  | @move done x c y d front back hcount =>
    have hhead := hs.head
    have hall := hs.all
    simp only [List.length_cons, List.length_append, List.head?_cons, Option.mem_def,
      Option.some.injEq, forall_eq', List.mem_cons, List.mem_append] at hsmall hhead hall
    constructor
    case small =>
      simp only [List.length_cons, List.length_append]
      omega
    case head =>
      simp only [List.head?_cons, Option.mem_def, Option.some.injEq, forall_eq', List.length_cons,
        List.length_append]
      omega
    case all =>
      intro e he
      simp only [List.mem_cons, List.mem_append, List.length_cons, List.length_append] at he ⊢
      by_cases hx : e = (x, (c + 1) % 65536)
      · rw [hx]
        omega
      · have := hall e (by tauto)
        omega

/-- A round fixes a position or looks once more at a map. -/
theorem Moves.decreases (h : Moves needs unhandled s s') (hs : Bounded s) :
    Prod.Lex (· < ·) (· < ·) (s'.window.length, slack s') (s.window.length, slack s) := by
  cases h with
  | take => exact .left _ _ (by simp [clear])
  | cut =>
    refine .left _ _ ?_
    simp only [clear, List.length_map, List.length_append, List.length_cons]
    omega
  | @move done x c y d front back =>
    have hhead := hs.head _ rfl
    have hsmall := hs.small
    have hlength : ((y, d) :: (front ++ (x, (c + 1) % 65536) :: back)).length =
        ((x, c) :: (y, d) :: (front ++ back)).length := by
      simp only [List.length_cons, List.length_append]
      omega
    simp only [slack, hlength]
    refine .right _ ?_
    simp only [List.length_cons, List.length_append] at hhead hsmall
    simp only [List.map_cons, List.map_append, List.sum_cons, List.sum_append, List.length_cons,
      List.length_append]
    omega

/-- With enough fuel the loop ends, in a state that what all rounds keep holds of. -/
theorem loop_returns (needs : α → α → Bool) (unhandled : α → Bool) {P : State α → Prop}
    (hP : ∀ s s', Moves needs unhandled s s' → P s → P s') (s : State α) (hs : Bounded s)
    (hwindow : s.window ≠ []) (h : P s) :
    ∃ n r, (∀ fuel ≥ n, loop needs unhandled fuel s = .ok r) ∧ P ⟨r, []⟩ := by
  have hmoves := step_moves needs unhandled hwindow
  have hdecreases := hmoves.decreases hs
  by_cases hend : (step needs unhandled s).window = []
  · refine ⟨1, (step needs unhandled s).done, ?_, ?_⟩
    · intro fuel hfuel
      obtain ⟨k, rfl⟩ := Nat.exists_eq_add_of_le' hfuel
      simp [loop, hend]
    · have := hP _ _ hmoves h
      rwa [← hend]
  · obtain ⟨n, r, hloop, hr⟩ := loop_returns needs unhandled hP _ (hmoves.bounded hs) hend (hP _ _ hmoves h)
    refine ⟨n + 1, r, ?_, hr⟩
    intro fuel hfuel
    obtain ⟨k, rfl⟩ := Nat.exists_eq_add_of_le' hfuel
    simpa [loop, hend] using hloop (k + n) (by omega)
termination_by (s.window.length, slack s)
decreasing_by exact hdecreases

/-! ### Without cycles -/

/-- Of two elements of the array the first depends on the second. That a map is in its
own `l_initfini` counts for nothing where the array holds it once. -/
def Among (needs : α → α → Bool) (maps : List α) (x y : α) : Prop :=
  [x, y].Subperm maps ∧ needs x y = true

def Acyclic (needs : α → α → Bool) (maps : List α) : Prop :=
  ∀ x, ¬ Relation.TransGen (Among needs maps) x x

theorem Acyclic.mono {maps' : List α} (h : Acyclic needs maps) (hsub : maps'.Subperm maps) :
    Acyclic needs maps' :=
  fun x hx => h x (Relation.TransGen.mono (fun _ _ hxy => ⟨hxy.1.trans hsub, hxy.2⟩) _ _ hx)

open scoped Classical in
noncomputable def dependents (needs : α → α → Bool) (maps : List α) (x : α) : Finset α :=
  maps.toFinset.filter fun y => Relation.TransGen (Among needs maps) y x

theorem dependents_perm {maps' : List α} (h : maps.Perm maps') (x : α) :
    dependents needs maps x = dependents needs maps' x := by
  classical
  have hamong : Among needs maps = Among needs maps' := by
    funext x y
    rw [Among, Among, h.subperm_left]
  rw [dependents, dependents, hamong, List.toFinset_eq_of_perm _ _ h]

theorem card_dependents_lt (h : Acyclic needs maps) {x : α} (hx : x ∈ maps) :
    (dependents needs maps x).card < maps.length := by
  classical
  have hsub : dependents needs maps x ⊆ maps.toFinset.erase x := by
    intro y hy
    obtain ⟨hmem, hdep⟩ := Finset.mem_filter.mp hy
    exact Finset.mem_erase.mpr ⟨fun he => h x (he ▸ hdep), hmem⟩
  calc (dependents needs maps x).card
      ≤ (maps.toFinset.erase x).card := Finset.card_le_card hsub
    _ < maps.toFinset.card := Finset.card_erase_lt_of_mem (List.mem_toFinset.mpr hx)
    _ ≤ maps.length := maps.toFinset_card_le

/-- Fewer maps depend on `y` than on what it depends on. -/
theorem card_dependents_lt_card (h : Acyclic needs maps) {x y : α} (hdep : Among needs maps y x) :
    (dependents needs maps y).card < (dependents needs maps x).card := by
  classical
  have hy : y ∈ maps := hdep.1.subset (by simp)
  refine Finset.card_lt_card (Finset.ssubset_iff.mpr ⟨y, ?_, ?_⟩)
  · intro hmem
    exact h y (Finset.mem_filter.mp hmem).2
  · intro z hz
    refine Finset.mem_filter.mpr ?_
    cases Finset.mem_insert.mp hz with
    | inl he => exact he ▸ ⟨List.mem_toFinset.mpr hy, .single hdep⟩
    | inr hmem =>
      obtain ⟨hz, htrans⟩ := Finset.mem_filter.mp hmem
      exact ⟨hz, htrans.tail hdep⟩

/-- The counters of two maps, `a` before `b`: between two looks at a map every map that
depends on it was looked at. -/
def Counts (needs : α → α → Bool) (a b : α × ℕ) : Prop :=
  (needs b.1 a.1 = true → a.2 ≤ b.2) ∧ (needs a.1 b.1 = true → b.2 ≤ a.2 + 1)

/-- No map depends on one in a position before it, as far as positions are fixed; no map
was looked at more often than there are maps that depend on it. -/
structure Ordered (needs : α → α → Bool) (s : State α) : Prop where
  small : s.window.length < 65536
  placed : s.done.Pairwise fun a b => needs b a = false
  before : ∀ a ∈ s.done, ∀ x ∈ s.window.map Prod.fst, needs x a = false
  acyclic : Acyclic needs (s.window.map Prod.fst)
  counts : s.window.Pairwise (Counts needs)
  bounded : ∀ e ∈ s.window, e.2 ≤ (dependents needs (s.window.map Prod.fst) e.1).card

theorem Ordered.lt_length (h : Ordered needs s) {e : α × ℕ} (he : e ∈ s.window) :
    e.2 < s.window.length :=
  calc e.2 ≤ _ := h.bounded e he
    _ < (s.window.map Prod.fst).length := card_dependents_lt h.acyclic (List.mem_map_of_mem he)
    _ = s.window.length := List.length_map _

theorem counts_clear (window : List (α × ℕ)) : (clear window).Pairwise (Counts needs) := by
  refine List.Pairwise.map _ (R := fun _ _ => True) ?_ (List.pairwise_of_forall fun _ _ => trivial)
  exact fun _ _ _ => ⟨fun _ => le_refl _, fun _ => Nat.zero_le _⟩

theorem bounded_dependents_clear (window : List (α × ℕ)) (maps : List α) :
    ∀ e ∈ clear window, e.2 ≤ (dependents needs maps e.1).card := by
  intro e he
  obtain ⟨_, _, rfl⟩ := List.mem_map.mp he
  exact Nat.zero_le _

theorem start_ordered (h : maps.length < 65536) (hacyclic : Acyclic needs maps) :
    Ordered needs (start maps) := by
  constructor
  case small => simpa [start] using h
  case placed => exact .nil
  case before => exact nofun
  case acyclic => rwa [start_maps]
  case counts =>
    rw [start_window]
    exact counts_clear _
  case bounded =>
    rw [start_window]
    exact bounded_dependents_clear _ _

/-- The counter of the map moved grows by one, and all that depend on it are before it. -/
theorem Counts.moved {x y : α} {c d : ℕ} {front back : List (α × ℕ)}
    (h : ((x, c) :: (y, d) :: (front ++ back)).Pairwise (Counts needs))
    (hback : ∀ e ∈ back, needs e.1 x = false) :
    ((y, d) :: (front ++ (x, c + 1) :: back)).Pairwise (Counts needs) := by
  rw [← List.cons_append, List.pairwise_cons, List.pairwise_append] at h
  obtain ⟨hx, hfront, hrest, hcross⟩ := h
  rw [← List.cons_append, List.pairwise_append]
  refine ⟨hfront, List.pairwise_cons.mpr ⟨?_, hrest⟩, ?_⟩
  · intro e he
    refine ⟨fun hneeds => ?_, fun hneeds => ?_⟩
    · simp [hback e he] at hneeds
    · have := (hx e (by simp [he])).2 hneeds
      exact Nat.le_succ_of_le this
  · intro e he b hb
    cases List.mem_cons.mp hb with
    | inr hmem => exact hcross e he b hmem
    | inl heq =>
      have hold := hx e (List.mem_append_left _ he)
      rw [heq]
      exact ⟨hold.2, fun hneeds => Nat.succ_le_succ (hold.1 hneeds)⟩

theorem Moves.ordered (hhandled : ∀ x, unhandled x = false) (h : Moves needs unhandled s s')
    (hs : Ordered needs s) : Ordered needs s' := by
  cases h with
  | @take done rest x c hnone =>
    have hlast : ∀ e ∈ rest, needs e.1 x = false := by simpa [hhandled] using hnone
    constructor
    case small => simpa [clear] using Nat.lt_of_succ_lt hs.small
    case placed =>
      refine List.pairwise_append.mpr ⟨hs.placed, List.pairwise_singleton _ _, ?_⟩
      intro a ha b hb
      rw [List.mem_singleton.mp hb]
      exact hs.before a ha x (by simp)
    case before =>
      rw [clear_maps]
      intro a ha y hy
      cases List.mem_append.mp ha with
      | inl ha => exact hs.before a ha y (List.mem_cons_of_mem _ hy)
      | inr ha =>
        obtain ⟨e, he, rfl⟩ := List.mem_map.mp hy
        rw [List.mem_singleton.mp ha]
        exact hlast e he
    case acyclic =>
      rw [clear_maps]
      exact hs.acyclic.mono (List.sublist_cons_self _ _).subperm
    case counts => exact counts_clear rest
    case bounded => exact bounded_dependents_clear rest _
  | @cut done x c c' y d front back hcount =>
    have := hs.lt_length (e := (y, d)) (by simp)
    simp only [List.length_cons, List.length_append] at this
    omega
  | @move done x c y d front back hcount hfront hback =>
    have hperm := moved_perm x y c ((c + 1) % 65536) d front back
    have hmem : x ∈ ((x, c) :: (y, d) :: (front ++ back)).map Prod.fst := List.mem_cons_self
    have hlen : ((y, d) :: (front ++ (x, (c + 1) % 65536) :: back)).length =
        ((x, c) :: (y, d) :: (front ++ back)).length := by
      simpa using hperm.length_eq
    obtain ⟨e, he, hneeds⟩ := hfront
    have hold : e ∈ (y, d) :: (front ++ back) := List.mem_append_left back he
    have hcount := ((List.pairwise_cons.mp hs.counts).1 e hold).1 hneeds
    have hcard : c + 1 ≤ (dependents needs (((x, c) :: (y, d) :: (front ++ back)).map Prod.fst) x).card := by
      refine Nat.lt_of_le_of_lt (hcount.trans (hs.bounded e (List.mem_cons_of_mem _ hold))) ?_
      refine card_dependents_lt_card hs.acyclic ⟨?_, hneeds⟩
      refine (List.Perm.swap x e.1 []).subperm.trans ?_
      exact List.subperm_cons _ |>.mpr (List.singleton_subperm_iff.mpr (List.mem_map_of_mem hold))
    have hlt := (hcard.trans_lt (card_dependents_lt hs.acyclic hmem)).trans_eq (List.length_map _)
    have hwrap : (c + 1) % 65536 = c + 1 := Nat.mod_eq_of_lt (hlt.trans hs.small)
    constructor
    case small => exact hlen.trans_lt hs.small
    case placed => exact hs.placed
    case before => exact fun a ha z hz => hs.before a ha z (hperm.mem_iff.mp hz)
    case acyclic => exact hs.acyclic.mono hperm.subperm
    case counts =>
      rw [hwrap]
      exact Counts.moved hs.counts hback
    case bounded =>
      intro b hb
      rw [dependents_perm hperm]
      by_cases hb' : b = (x, (c + 1) % 65536)
      · rw [hb', hwrap]
        exact hcard
      · refine hs.bounded b ?_
        simp only [List.mem_cons, List.mem_append] at hb ⊢
        tauto

/-! ### Two maps that depend on each other -/

/-- The static dependencies of 0 and 1 on each other. -/
def crossing : Graph ℕ where
  initfini map := if map = 0 then some [1] else if map = 1 then some [0] else none
  reldeps _ := none
  mainMap _ := false

/-- 0 and 1 are first, in one order or the other. -/
structure Crossing (s : State ℕ) : Prop where
  window : ∃ a b c d tail, s.window = (a, c) :: (b, d) :: tail ∧ a + b = 1 ∧ c < 65536 ∧ d < 65536 ∧
    65535 ≤ tail.length + 2 ∧ ∀ e ∈ tail, 2 ≤ e.1

theorem Crossing.step {s : State ℕ} (h : Crossing s) :
    Crossing (step (crossing.needs false) (fun _ => false) s) := by
  obtain ⟨a, b, c, d, tail, hw, hab, hc, hd, hlen, htail⟩ := h.window
  have hother : ∀ e ∈ tail, crossing.needs false e.1 a = false := by
    intro e he
    have := htail e he
    simp [Graph.needs, crossing, show e.1 ≠ 0 by omega, show e.1 ≠ 1 by omega]
  have hneeds : crossing.needs false b a = true := by
    have : a = 0 ∧ b = 1 ∨ a = 1 ∧ b = 0 := by omega
    cases this with
    | inl h => simp [Graph.needs, crossing, h.1, h.2]
    | inr h => simp [Graph.needs, crossing, h.1, h.2]
  have hdrop : ((b, d) :: tail).rdropWhile (fun e => !crossing.needs false e.1 a) = [(b, d)] := by
    rw [List.rdropWhile, List.reverse_cons, List.dropWhile_append_of_pos (by simpa using hother)]
    simp [hneeds]
  have htake : ((b, d) :: tail).rtakeWhile (fun e => !crossing.needs false e.1 a) = tail := by
    rw [List.rtakeWhile, List.reverse_cons, List.takeWhile_append_of_pos (by simpa using hother)]
    simp [hneeds]
  refine ⟨b, a, d, (c + 1) % 65536, tail, ?_, by omega, hd, Nat.mod_lt _ (by decide), hlen, htail⟩
  rw [Original.step, hw]
  simp only [hdrop, htake, List.length_cons, List.nil_append]
  rw [if_neg (by simp), if_neg (by omega)]

theorem Crossing.loop {s : State ℕ} (h : Crossing s) (fuel : ℕ) :
    loop (crossing.needs false) (fun _ => false) fuel s = .error .outOfFuel := by
  induction fuel generalizing s with
  | zero => rfl
  | succ fuel ih =>
    obtain ⟨a, b, c, d, tail, hw, -⟩ := h.step.window
    rw [Original.loop, hw]
    exact ih h.step

theorem crossed_never_ends {maps : List ℕ} {skip n : ℕ} (hn : 65535 ≤ n)
    (hmaps : maps.drop skip = List.range n) (unhandled : ℕ → Bool) (fuel : ℕ) :
    dlSortMapsOriginal crossing unhandled fuel maps skip false = .error .outOfFuel := by
  have hcrossing : Crossing (start (List.range n)) := by
    obtain ⟨k, rfl⟩ := Nat.exists_eq_add_of_le' (show 2 ≤ n by omega)
    refine ⟨0, 1, 0, 0, (List.range k).map fun map => (map + 2, 0), ?_, rfl, by decide, by decide, ?_, ?_⟩
    · simp [start, List.range_succ_eq_map]
    · simpa using hn
    · simp
  rw [dlSortMapsOriginal, hmaps, if_neg (by simp; omega)]
  simp only [Bool.false_and, hcrossing.loop]
  rfl

end Original

open Original

/-- The sort ends; the array is then a permutation of what it was, with the first `skip`
maps in their places, and without cycles no map stands behind one it depends on. -/
def Sorts [DecidableEq α] (g : Graph α) (unhandled : α → Bool) (maps : List α) (skip : ℕ)
    (forFini : Bool) : Prop :=
  ∃ n sorted, (∀ fuel ≥ n, dlSortMapsOriginal g unhandled fuel maps skip forFini = .ok sorted) ∧
    sorted.Perm maps ∧ sorted.take skip = maps.take skip ∧
    (forFini = false → Acyclic (g.needs false) (maps.drop skip) →
      (sorted.drop skip).Pairwise fun a b => g.needs false b a = false)

section Sorts
variable [DecidableEq α] {g : Graph α} {unhandled : α → Bool} {maps : List α} {skip : ℕ} {forFini : Bool}

theorem sorts_of_length_le (h : (maps.drop skip).length ≤ 1) : Sorts g unhandled maps skip forFini := by
  refine ⟨0, maps, fun fuel _ => if_pos h, List.Perm.refl _, rfl, fun _ _ => ?_⟩
  cases hdrop : maps.drop skip with
  | nil => exact .nil
  | cons x rest =>
    have hrest : rest = [] := by simpa [hdrop] using h
    rw [hrest]
    exact List.pairwise_singleton _ _

theorem sorts_of_length_lt (h : (maps.drop skip).length < 65535) (htwo : ¬ (maps.drop skip).length ≤ 1) :
    Sorts g unhandled maps skip forFini := by
  have hlength : (maps.take skip).length = skip := by
    rw [List.length_drop] at htwo
    rw [List.length_take]
    omega
  have hne : (start (maps.drop skip)).window ≠ [] := by
    intro hnil
    rw [← List.length_eq_zero_iff, start, List.length_map] at hnil
    omega
  obtain ⟨n, sorted, hloop, hperm, hordered⟩ := loop_returns (g.needs forFini)
    (fun map => forFini && unhandled map)
    (P := fun s => s.maps.Perm (start (maps.drop skip)).maps ∧ (forFini = false →
      Acyclic (g.needs false) (maps.drop skip) → Ordered (g.needs forFini) s))
    (fun s s' hmoves hP => ⟨hmoves.perm.trans hP.1, fun hfini hacyclic =>
      hmoves.ordered (by simp [hfini]) (hP.2 hfini hacyclic)⟩)
    _ (start_bounded h) hne
    ⟨.refl _, fun hfini hacyclic => start_ordered (h.trans (by decide)) (hfini ▸ hacyclic)⟩
  have hsorted : sorted.Perm (maps.drop skip) := by
    rwa [State.maps, State.maps, start_maps, List.map_nil, List.append_nil] at hperm
  refine ⟨n, maps.take skip ++ sorted, ?_, ?_, ?_, ?_⟩
  · intro fuel hfuel
    rw [dlSortMapsOriginal, if_neg htwo, hloop fuel hfuel]
    rfl
  · simpa using hsorted.append_left (maps.take skip)
  · exact List.take_left' hlength
  · intro hfini hacyclic
    rw [List.drop_left' hlength]
    exact hfini ▸ (hordered hfini hacyclic).placed

end Sorts

/-- The sort is right for every array and all dependencies if and only if fewer than 65535
maps are left to sort. -/
theorem dlSortMapsOriginal_sorts_iff (n skip : ℕ) :
    (∀ (α : Type) [DecidableEq α] (g : Graph α) (unhandled : α → Bool) (maps : List α) (forFini : Bool),
      maps.length = skip + n → Sorts g unhandled maps skip forFini) ↔ n < 65535 := by
  constructor
  · intro h
    by_contra hn
    obtain ⟨fuel, sorted, hok, -⟩ := h ℕ crossing (fun _ => false) (List.range' n skip ++ List.range n) false
      (by simp)
    have hdrop : (List.range' n skip ++ List.range n).drop skip = List.range n := List.drop_left' (by simp)
    have hnever := crossed_never_ends (by omega) hdrop (fun _ => false) fuel
    rw [hok fuel (le_refl _)] at hnever
    cases hnever
  · intro hn α _ g unhandled maps forFini hlength
    by_cases htwo : (maps.drop skip).length ≤ 1
    · exact sorts_of_length_le htwo
    · exact sorts_of_length_lt (by rw [List.length_drop]; omega) htwo

/-- 65535 maps of which the first two depend on each other are looked at for ever. -/
theorem crossed_range_never_ends : (List.range 65535).length < 65536 ∧ ∀ fuel,
    dlSortMapsOriginal crossing (fun _ => false) fuel (List.range 65535) 0 false = .error .outOfFuel :=
  ⟨by rw [List.length_range]; decide, crossed_never_ends (le_refl _) List.drop_zero _⟩

end AwaitGlibc.SortMaps

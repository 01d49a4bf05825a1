import AwaitGlibc.CheckedArray
import AwaitGlibc.DepthFirst

/-!
# Sorting link maps by their dependencies

`_dl_sort_maps_dfs` traverses the maps depth first from the last to the first and
stores each one, when the traversal leaves it, in front of those stored before.
When it is called for termination, relocation dependencies are followed like
static ones; if any was met, a second pass over the result follows the static
ones only, so that these decide where the two disagree.
-/
namespace AwaitGlibc.SortMaps
open CheckedArray

/-- The dependencies of link maps: `l_initfini` and `l_reldeps`, each of which can
be `NULL`, and the flag `l_main_map`. -/
structure Graph (α : Type) where
  initfini : α → Option (List α)
  reldeps : α → Option (List α)
  mainMap : α → Bool

/-- The flags `l_visited`, the array written to with the position `rpo`, one past
the free part, and the flag behind `do_reldeps`. -/
structure Traversal (α : Type) where
  visited : α → Bool
  array : Block α
  rpo : ℕ
  doReldeps : Bool

variable {α : Type} [DecidableEq α]

/-- `*rpo -= 1; **rpo = map`. -/
def Traversal.place (map : α) (t : Traversal α) : Except Stop (Traversal α) :=
  match t.rpo with
  | 0 => .error (.fault (.storeOutside t.array.size 0))
  | i + 1 =>
    match t.array.store i map with
    | .ok array => .ok { t with array, rpo := i }
    | .error f => .error (.fault f)

/-- One dependency in the loops of `dfs_traversal`; `descend` is the recursive
call. -/
def follow (g : Graph α) (descend : α → Traversal α → Except Stop (Traversal α))
    (t : Traversal α) (dep : α) : Except Stop (Traversal α) :=
  if !t.visited dep && !g.mainMap dep then descend dep t else .ok t

/-- The second loop of `dfs_traversal`, which indicates that relocation dependencies
were met. -/
def followReldeps (g : Graph α) (reldeps : Bool)
    (descend : α → Traversal α → Except Stop (Traversal α)) (map : α) (t : Traversal α) :
    Except Stop (Traversal α) :=
  match reldeps, g.reldeps map with
  | true, some list => list.reverse.foldlM (follow g descend) { t with doReldeps := true }
  | _, _ => .ok t

/-- `dfs_traversal`; relocation dependencies are followed if `reldeps`, which is
when `do_reldeps` is not `NULL`. The fuel bounds the depth of the recursion. -/
def dfsTraversal (g : Graph α) (reldeps : Bool) :
    ℕ → α → Traversal α → Except Stop (Traversal α)
  | 0, _, _ => .error (.fault .outOfFuel)
  | fuel + 1, map, t =>
    if t.visited map then .ok t
    else do
      let t := { t with visited := Function.update t.visited map true }
      let t ← ((g.initfini map).getD []).foldlM (follow g (dfsTraversal g reldeps fuel)) t
      let t ← followReldeps g reldeps (dfsTraversal g reldeps fuel) map t
      t.place map

/-- The loop over the array from its last element on, which ends early when every
map has been placed; after it the whole array must have been written. -/
def traverseAll (g : Graph α) (reldeps : Bool) (fuel : ℕ) :
    List α → Traversal α → Except Stop (Traversal α)
  | [], t => if t.rpo = 0 then .ok t else .error .assertion
  | map :: rest, t => do
      let t ← dfsTraversal g reldeps fuel map t
      if t.rpo = 0 then return t else traverseAll g reldeps fuel rest t

def clearVisited (visited : α → Bool) (maps : List α) : α → Bool :=
  fun x => if x ∈ maps then false else visited x

/-- One pass over `maps` that writes to `array`: the maps in the order written, and
the state after it. -/
def sortPass (g : Graph α) (reldeps : Bool) (visited : α → Bool) (maps : List α)
    (array : Block α) : Except Stop (List α × Traversal α) := do
  let t ← traverseAll g reldeps (maps.length + 1) maps.reverse
    ⟨clearVisited visited maps, array, maps.length, false⟩
  match t.array.loadAll 0 maps.length with
  | .ok sorted => return (sorted, t)
  | .error f => .error (.fault f)

/-- `_dl_sort_maps_dfs`: the array `maps` afterwards. The second pass writes to
`maps` itself. -/
def dlSortMapsDfs (g : Graph α) (visited : α → Bool) (maps : List α) (forFini : Bool) :
    Except Stop (List α) := do
  let (rpo, t) ← sortPass g forFini visited maps (Block.alloc maps.length)
  if t.doReldeps then
    let (sorted, _) ← sortPass g false t.visited rpo (Block.ofWritten maps.length maps)
    return sorted
  else return rpo

/-! ## The traversal as a depth-first one -/

open DepthFirst

/-- The dependencies a traversal follows, in its order. -/
def Graph.deps (g : Graph α) (reldeps : Bool) (map : α) : List α :=
  ((g.initfini map).getD [] ++ if reldeps then ((g.reldeps map).getD []).reverse else []).filter
    (!g.mainMap ·)

/-- The maps are closed under the dependencies followed, those on the main map
apart. -/
def Graph.Closed (g : Graph α) (reldeps : Bool) (maps : List α) : Prop :=
  ∀ x ∈ maps, ∀ y ∈ g.deps reldeps x, y ∈ maps

/-- The array holds the maps left so far at its end, and the flags mark those
entered. While no relocation dependencies have been met, no map left has any. -/
structure Simulates (g : Graph α) (reldeps : Bool) (maps : List α) (t : Traversal α)
    (s : State α) : Prop where
  visited : ∀ x ∈ maps, t.visited x = decide (x ∈ s.seen)
  size : t.array.size = maps.length
  rpo : t.rpo + s.done.length = maps.length
  array : t.array.cells.drop t.rpo = s.done.map some
  noReldeps : reldeps = true → t.doReldeps = false → ∀ x ∈ s.done, g.reldeps x = none

section Simulation
variable {g : Graph α} {reldeps : Bool} {maps : List α}

omit [DecidableEq α] in
theorem place_cells {b : Block α} {i : ℕ} {x : α} {done : List α}
    (h : b.cells.drop (i + 1) = done.map some) (hi : i < b.size) :
    (b.cells.set i (some x)).drop i = (x :: done).map some := by
  have hlt : i < b.cells.length := hi
  rw [List.drop_eq_getElem_cons (by simpa using hlt), List.drop_set_of_lt (by omega), h]
  simp

variable {t : Traversal α} {s : State α}

theorem Simulates.place (h : Simulates g reldeps maps t s) (map : α)
    (hroom : s.done.length < maps.length)
    (hrel : reldeps = true → t.doReldeps = false → g.reldeps map = none) :
    ∃ t', t.place map = .ok t' ∧ Simulates g reldeps maps t' ⟨s.seen, map :: s.done⟩ ∧
      t'.doReldeps = t.doReldeps := by
  have hrpo := h.rpo
  obtain ⟨i, hi⟩ := Nat.exists_eq_succ_of_ne_zero (show t.rpo ≠ 0 by omega)
  have hlt : i < t.array.size := by
    rw [h.size]
    omega
  have harray := h.array
  rw [hi] at harray
  refine ⟨{ t with array := ⟨t.array.cells.set i (some map)⟩, rpo := i }, ?_, ?_, rfl⟩
  · simp only [Traversal.place, hi, Block.store_of_lt hlt]
  · refine ⟨h.visited, ?_, ?_, place_cells harray hlt, fun hr hd => ?_⟩
    · simpa [Block.size] using h.size
    · simp only [List.length_cons]
      omega
    · exact List.forall_mem_cons.mpr ⟨hrel hr hd, h.noReldeps hr hd⟩

/-- One traversal and its abstract counterpart, both of which end. -/
def Runs (g : Graph α) (reldeps : Bool) (maps : List α) (fuel : ℕ) : Prop :=
  ∀ (v : α) (t : Traversal α) (s : State α), v ∈ maps → Simulates g reldeps maps t s →
    Inside maps s → s.done.length ≤ s.seen.length → maps.length - s.seen.length < fuel →
    ∃ t' s', visit (g.deps reldeps) fuel v s = some s' ∧ dfsTraversal g reldeps fuel v t = .ok t' ∧
      Simulates g reldeps maps t' s' ∧ Inside maps s' ∧
      (t.doReldeps = true → t'.doReldeps = true)

/-- The loop over a list of dependencies follows those not on the main map. -/
theorem foldlM_follow {fuel : ℕ} (hruns : Runs g reldeps maps fuel) (ds : List α)
    (hds : ∀ d ∈ ds, g.mainMap d = false → d ∈ maps) (t : Traversal α) (s : State α)
    (hsim : Simulates g reldeps maps t s) (hin : Inside maps s)
    (hlen : s.done.length ≤ s.seen.length) (hfuel : maps.length - s.seen.length < fuel) :
    ∃ t' s', visitAll (g.deps reldeps) fuel (ds.filter (!g.mainMap ·)) s = some s' ∧
      ds.foldlM (follow g (dfsTraversal g reldeps fuel)) t = .ok t' ∧
      Simulates g reldeps maps t' s' ∧ Inside maps s' ∧
      (t.doReldeps = true → t'.doReldeps = true) := by
  induction ds generalizing t s with
  | nil => exact ⟨t, s, rfl, rfl, hsim, hin, id⟩
  | cons d ds ih =>
    rw [List.forall_mem_cons] at hds
    rw [List.foldlM_cons]
    cases hmain : g.mainMap d with
    | true =>
      have hfollow : follow g (dfsTraversal g reldeps fuel) t d = .ok t := by
        simp [follow, hmain]
      rw [hfollow, List.filter_cons_of_neg (by simp [hmain])]
      exact ih hds.2 t s hsim hin hlen hfuel
    | false =>
      have hd := hds.1 hmain
      obtain ⟨t₁, s₁, hvisit, hrun, hsim₁, hin₁, hflag₁⟩ := hruns d t s hd hsim hin hlen hfuel
      -- a dependency seen before is skipped by the loop and by the visit alike
      have hfollow : follow g (dfsTraversal g reldeps fuel) t d = .ok t₁ := by
        cases hseen : t.visited d with
        | false => simp [follow, hseen, hmain, hrun]
        | true =>
          obtain ⟨k, rfl⟩ := Nat.exists_eq_succ_of_ne_zero (show fuel ≠ 0 by omega)
          rw [dfsTraversal, if_pos hseen, Except.ok.injEq] at hrun
          subst hrun
          simp [follow, hseen]
      have hext := (visit_extends hvisit).1
      have hle := hext.length_le
      have hsub := hext.length_sub
      obtain ⟨t₂, s₂, hall, hfold, hsim₂, hin₂, hflag₂⟩ :=
        ih hds.2 t₁ s₁ hsim₁ hin₁ (by omega) (by omega)
      refine ⟨t₂, s₂, ?_, ?_, hsim₂, hin₂, hflag₂ ∘ hflag₁⟩
      · rw [List.filter_cons_of_pos (by simp [hmain]), visitAll, List.foldlM_cons, hvisit]
        exact hall
      · rw [hfollow]
        exact hfold

def Graph.relocations (g : Graph α) (reldeps : Bool) (map : α) : List α :=
  if reldeps then ((g.reldeps map).getD []).reverse else []

omit [DecidableEq α] in
theorem deps_eq (g : Graph α) (reldeps : Bool) (map : α) :
    g.deps reldeps map = ((g.initfini map).getD []).filter (!g.mainMap ·) ++
      (g.relocations reldeps map).filter (!g.mainMap ·) := by
  rw [Graph.deps, List.filter_append]
  rfl

theorem followReldeps_spec {fuel : ℕ} (hruns : Runs g reldeps maps fuel) {v : α}
    (hds : ∀ d ∈ g.relocations reldeps v, g.mainMap d = false → d ∈ maps) (t : Traversal α)
    (s : State α) (hsim : Simulates g reldeps maps t s) (hin : Inside maps s)
    (hlen : s.done.length ≤ s.seen.length) (hfuel : maps.length - s.seen.length < fuel) :
    ∃ t' s', visitAll (g.deps reldeps) fuel ((g.relocations reldeps v).filter (!g.mainMap ·)) s =
        some s' ∧ followReldeps g reldeps (dfsTraversal g reldeps fuel) v t = .ok t' ∧
      Simulates g reldeps maps t' s' ∧ Inside maps s' ∧ (t.doReldeps = true → t'.doReldeps = true) ∧
      (reldeps = true → t'.doReldeps = false → g.reldeps v = none) := by
  cases reldeps with
  | false => exact ⟨t, s, rfl, rfl, hsim, hin, id, by simp⟩
  | true =>
    cases hrel : g.reldeps v with
    | none =>
      refine ⟨t, s, ?_, ?_, hsim, hin, id, fun _ _ => rfl⟩
      · simp [Graph.relocations, hrel, visitAll]
      · simp [followReldeps, hrel]
    | some list =>
      have hsim' : Simulates g true maps { t with doReldeps := true } s :=
        { hsim with noReldeps := fun _ h => by cases h }
      have hds' : ∀ d ∈ list.reverse, g.mainMap d = false → d ∈ maps := by
        simpa [Graph.relocations, hrel] using hds
      obtain ⟨t', s', hall, hfold, hsim₁, hin₁, hflag⟩ :=
        foldlM_follow hruns list.reverse hds' _ s hsim' hin hlen hfuel
      refine ⟨t', s', ?_, ?_, hsim₁, hin₁, fun _ => hflag rfl, fun _ h => ?_⟩
      · simpa [Graph.relocations, hrel] using hall
      · simpa [followReldeps, hrel] using hfold
      · rw [hflag rfl] at h
        cases h

theorem runs (hclosed : g.Closed reldeps maps) (fuel : ℕ) : Runs g reldeps maps fuel := by
  induction fuel with
  | zero =>
    intro v t s _ _ _ _ hfuel
    omega
  | succ fuel ih =>
    intro v t s hv hsim hin hlen hfuel
    rw [visit, dfsTraversal]
    by_cases hseen : v ∈ s.seen
    · rw [if_pos hseen, if_pos (by rw [hsim.visited v hv]; simpa using hseen)]
      exact ⟨t, s, rfl, rfl, hsim, hin, id⟩
    · rw [if_neg hseen, if_neg (by rw [hsim.visited v hv]; simpa using hseen)]
      have hlt := hin.length_lt hv hseen
      -- entering `v`
      have hsim₀ : Simulates g reldeps maps
          { t with visited := Function.update t.visited v true } ⟨v :: s.seen, s.done⟩ := by
        refine ⟨fun x hx => ?_, hsim.size, hsim.rpo, hsim.array, hsim.noReldeps⟩
        by_cases hxv : x = v
        · subst hxv
          simp
        · simp [hxv, hsim.visited x hx]
      have hin₀ : Inside maps ⟨v :: s.seen, s.done⟩ :=
        ⟨List.cons_subset.mpr ⟨hv, hin.subset⟩, List.nodup_cons.mpr ⟨hseen, hin.nodup⟩⟩
      have hstatic : ∀ d ∈ (g.initfini v).getD [], g.mainMap d = false → d ∈ maps := by
        intro d hd hmain
        refine hclosed v hv d ?_
        rw [deps_eq]
        exact List.mem_append_left _ (List.mem_filter.mpr ⟨hd, by simp [hmain]⟩)
      have hrelocations : ∀ d ∈ g.relocations reldeps v, g.mainMap d = false → d ∈ maps := by
        intro d hd hmain
        refine hclosed v hv d ?_
        rw [deps_eq]
        exact List.mem_append_right _ (List.mem_filter.mpr ⟨hd, by simp [hmain]⟩)
      obtain ⟨t₁, s₁, hall₁, hfold₁, hsim₁, hin₁, hflag₁⟩ := foldlM_follow ih _ hstatic _ _
        hsim₀ hin₀ (by simp only [List.length_cons]; omega) (by simp only [List.length_cons]; omega)
      have hext₁ := (visitAll_extends (fun _ _ _ => visit_extends) hall₁).1
      have hle₁ := hext₁.length_le
      have hsub₁ := hext₁.length_sub
      simp only [List.length_cons] at hle₁ hsub₁
      obtain ⟨t₂, s₂, hall₂, hfold₂, hsim₂, hin₂, hflag₂, hrel⟩ := followReldeps_spec ih
        hrelocations t₁ s₁ hsim₁ hin₁ (by omega) (by omega)
      have hsub₂ := (visitAll_extends (fun _ _ _ => visit_extends) hall₂).1.length_sub
      have hmax := hin₂.length_le
      obtain ⟨t₃, hplace, hsim₃, hflag₃⟩ := hsim₂.place v (by omega) hrel
      refine ⟨t₃, ⟨s₂.seen, v :: s₂.done⟩, ?_, ?_, hsim₃, ⟨hin₂.subset, hin₂.nodup⟩, ?_⟩
      · have hall : visitAll (g.deps reldeps) fuel (g.deps reldeps v) ⟨v :: s.seen, s.done⟩ =
            some s₂ := by
          conv_lhs => rw [deps_eq, visitAll_append, hall₁]
          exact hall₂
        rw [visitAll] at hall
        rw [hall]
        rfl
      · dsimp only
        rw [hfold₁, ok_bind, hfold₂]
        exact hplace
      · intro h
        rw [hflag₃]
        exact hflag₂ (hflag₁ h)

/-- Between two traversals every map entered has been left. -/
structure Settled (g : Graph α) (reldeps : Bool) (maps : List α) (t : Traversal α)
    (s : State α) : Prop where
  simulates : Simulates g reldeps maps t s
  inside : Inside maps s
  left : s.done.Perm s.seen
  sorted : Acyclic maps (g.deps reldeps) → Topological (g.deps reldeps) s.done

theorem Settled.visit (hclosed : g.Closed reldeps maps) (h : Settled g reldeps maps t s) {v : α}
    (hv : v ∈ maps) :
    ∃ t' s', dfsTraversal g reldeps (maps.length + 1) v t = .ok t' ∧
      Settled g reldeps maps t' s' ∧ Extends s s' ∧ v ∈ s'.seen := by
  obtain ⟨t', s', hvisit, hrun, hsim, hin, -⟩ := runs hclosed (maps.length + 1) v t s hv
    h.simulates h.inside h.left.length_eq.le (by omega)
  obtain ⟨hext, hmem⟩ := visit_extends hvisit
  refine ⟨t', s', hrun, ⟨hsim, hin, ?_, fun hac => ?_⟩, hext, hmem⟩
  · obtain ⟨new, hdone, hseen, -⟩ := hext
    rw [hdone]
    exact (h.left.append_left new).trans hseen.symm
  · refine visit_topological hac hclosed hvisit hv (fun _ x hx hnot => ?_) (h.sorted hac)
    exact absurd (h.left.mem_iff.mpr hx) hnot

theorem traverseAll_spec (hclosed : g.Closed reldeps maps) (hnodup : maps.Nodup) (vs : List α)
    (hvs : vs ⊆ maps) (h : Settled g reldeps maps t s) (hcover : ∀ x ∈ maps, x ∈ s.seen ∨ x ∈ vs) :
    ∃ t' s', traverseAll g reldeps (maps.length + 1) vs t = .ok t' ∧
      Settled g reldeps maps t' s' ∧ t'.rpo = 0 := by
  induction vs generalizing t s with
  | nil =>
    have hsub : maps ⊆ s.seen := fun x hx => (hcover x hx).resolve_right (by simp)
    have hle := (List.subperm_of_subset hnodup hsub).length_le
    have hrpo := h.simulates.rpo
    rw [h.left.length_eq] at hrpo
    have hzero : t.rpo = 0 := by omega
    exact ⟨t, s, by rw [traverseAll, if_pos hzero], h, hzero⟩
  | cons v vs ih =>
    rw [List.cons_subset] at hvs
    obtain ⟨t₁, s₁, hrun, hset, hext, hmem⟩ := h.visit hclosed hvs.1
    rw [traverseAll, hrun, ok_bind]
    by_cases hzero : t₁.rpo = 0
    · rw [if_pos hzero]
      exact ⟨t₁, s₁, rfl, hset, hzero⟩
    · rw [if_neg hzero]
      apply ih hvs.2 hset
      intro x hx
      obtain hx' | hx' := hcover x hx
      · exact .inl (hext.seen_subset hx')
      · obtain rfl | hx' := List.mem_cons.mp hx'
        · exact .inl hmem
        · exact .inr hx'

/-- A pass sorts its maps: it writes the whole array, and in the absence of cycles
every map is before its dependencies. -/
theorem sortPass_spec (hclosed : g.Closed reldeps maps) (hnodup : maps.Nodup) (visited : α → Bool)
    (array : Block α) (harray : array.size = maps.length) :
    ∃ sorted t, sortPass g reldeps visited maps array = .ok (sorted, t) ∧ sorted.Perm maps ∧
      (Acyclic maps (g.deps reldeps) → Topological (g.deps reldeps) sorted) ∧
      (reldeps = true → t.doReldeps = false → ∀ x ∈ maps, g.reldeps x = none) := by
  have hstart : Settled g reldeps maps
      ⟨clearVisited visited maps, array, maps.length, false⟩ State.empty := by
    refine ⟨⟨fun x hx => ?_, harray, rfl, ?_, fun _ _ => by simp [State.empty]⟩, ?_, .refl _,
      fun _ => trivial⟩
    · simp [clearVisited, hx, State.empty]
    · rw [List.drop_of_length_le (by rw [← harray, Block.size])]
      rfl
    · exact ⟨by simp [State.empty], by simp [State.empty]⟩
  obtain ⟨t, s, hrun, hset, hzero⟩ := traverseAll_spec hclosed hnodup maps.reverse
    (fun x hx => List.mem_reverse.mp hx) hstart fun x hx => .inr (List.mem_reverse.mpr hx)
  have hlen : s.done.length = maps.length := by
    have := hset.simulates.rpo
    omega
  have hperm : s.done.Perm maps := by
    refine hset.left.trans ((List.subperm_of_subset hset.inside.nodup
      hset.inside.subset).perm_of_length_le ?_)
    rw [← hset.left.length_eq, hlen]
  have hcells : t.array = Block.ofWritten maps.length s.done := by
    have := hset.simulates.array
    rw [hzero, List.drop_zero] at this
    simp [Block.ofWritten, ← this, hlen]
  have hload : t.array.loadAll 0 maps.length = .ok s.done := by
    rw [hcells, ← hlen]
    exact Block.loadAll_ofWritten (List.append_nil _).symm
  refine ⟨s.done, t, ?_, hperm, hset.sorted, fun hr hd x hx => ?_⟩
  · rw [sortPass, hrun]
    change (match t.array.loadAll 0 maps.length with
      | .ok sorted => _
      | .error f => _) = _
    rw [hload]
    rfl
  · exact hset.simulates.noReldeps hr hd x (hperm.mem_iff.mpr hx)

end Simulation

/-! ## The sort -/

section Sorting
variable {g : Graph α} {maps : List α}

omit [DecidableEq α] in
theorem mem_deps_static {x y : α} :
    y ∈ g.deps false x ↔ y ∈ (g.initfini x).getD [] ∧ g.mainMap y = false := by
  simp [Graph.deps]

omit [DecidableEq α] in
theorem Graph.Closed.static {reldeps : Bool} (h : g.Closed reldeps maps) :
    g.Closed false maps := by
  intro x hx y hy
  refine h x hx y ?_
  rw [mem_deps_static] at hy
  rw [deps_eq]
  exact List.mem_append_left _ (List.mem_filter.mpr ⟨hy.1, by simp [hy.2]⟩)

omit [DecidableEq α] in
theorem Graph.Closed.of_perm {reldeps : Bool} {maps' : List α} (h : g.Closed reldeps maps)
    (hp : maps.Perm maps') : g.Closed reldeps maps' :=
  fun x hx y hy => hp.mem_iff.mp (h x (hp.mem_iff.mpr hx) y hy)

theorem dlSortMapsDfs_spec (visited : α → Bool) (forFini : Bool) (hnodup : maps.Nodup)
    (hclosed : g.Closed forFini maps) :
    ∃ sorted, dlSortMapsDfs g visited maps forFini = .ok sorted ∧ sorted.Perm maps ∧
      (Acyclic maps (g.deps false) → Topological (g.deps false) sorted) := by
  obtain ⟨rpo, t, hfirst, hperm, htopo, hnone⟩ := sortPass_spec hclosed hnodup visited
    (Block.alloc maps.length) (by simp)
  rw [dlSortMapsDfs, hfirst]
  change ∃ sorted, (if t.doReldeps then _ else _) = _ ∧ _
  cases hflag : t.doReldeps with
  | true =>
    obtain ⟨sorted, t₂, hsecond, hperm₂, htopo₂, -⟩ := sortPass_spec
      (hclosed.static.of_perm hperm.symm) (hperm.nodup_iff.mpr hnodup) t.visited
      (Block.ofWritten maps.length maps) (by
        rw [Block.size_ofWritten le_rfl, hperm.length_eq])
    rw [if_pos rfl, hsecond]
    exact ⟨sorted, rfl, hperm₂.trans hperm, fun hac => htopo₂ (hac.of_perm hperm.symm)⟩
  | false =>
    -- no map has relocation dependencies, or they were not asked for
    have hdeps : ∀ x ∈ maps, g.deps forFini x = g.deps false x := by
      intro x hx
      cases forFini with
      | false => rfl
      | true => simp [Graph.deps, hnone rfl hflag x hx]
    refine ⟨rpo, rfl, hperm, fun hac => ?_⟩
    exact (htopo (hac.congr hdeps)).congr fun x hx => (hdeps x (hperm.mem_iff.mp hx)).symm

/-- Sorting leaves a permutation of the maps, whatever the dependencies are. If the
static ones have no cycle, edges to the main map and from a map to itself apart,
every map stands before each of its static dependencies. -/
theorem dlSortMapsDfs_sorts (visited : α → Bool) (forFini : Bool) (hnodup : maps.Nodup)
    (hclosed : g.Closed forFini maps) :
    ∃ sorted, dlSortMapsDfs g visited maps forFini = .ok sorted ∧ sorted.Perm maps ∧
      (Acyclic maps (g.deps false) → ∀ front x back, sorted = front ++ x :: back →
        ∀ y ∈ (g.initfini x).getD [], g.mainMap y = false → y ≠ x → y ∈ back) := by
  obtain ⟨sorted, hrun, hperm, htopo⟩ := dlSortMapsDfs_spec visited forFini hnodup hclosed
  refine ⟨sorted, hrun, hperm, fun hac front x back hs y hy hmain hne => ?_⟩
  exact (htopo hac).behind hs (mem_deps_static.mpr ⟨hy, hmain⟩) hne

/-- `false` depends on `true`, which has a relocation dependency on `false`. -/
def crossed : Graph Bool where
  initfini x := if x then some [] else some [true]
  reldeps x := if x then some [false] else none
  mainMap _ := false

theorem crossed_acyclic (maps : List Bool) : Acyclic maps (crossed.deps false) := by
  have hedge {x y : Bool} (h : Edge maps (crossed.deps false) x y) : x = false ∧ y = true := by
    revert x y
    rintro (_ | _) (_ | _) ⟨-, hmem, hne⟩ <;> simp_all [Graph.deps, crossed]
  intro x h
  obtain ⟨y, hxy, hyx⟩ := Relation.TransGen.head'_iff.mp h
  obtain ⟨z, -, hzx⟩ := Relation.TransGen.tail'_iff.mp h
  cases (hedge hxy).1.symm.trans (hedge hzx).2

theorem dlSortMapsDfs_sorts_crossed : crossed.Closed true [true, false] ∧
    ∃ sorted, dlSortMapsDfs crossed (fun _ => false) [true, false] true = .ok sorted ∧
      sorted.Perm [true, false] ∧ ∀ front x back, sorted = front ++ x :: back →
        ∀ y ∈ (crossed.initfini x).getD [], crossed.mainMap y = false → y ≠ x → y ∈ back := by
  have hclosed : crossed.Closed true [true, false] := by
    intro x _ y _
    cases y <;> simp
  obtain ⟨sorted, hrun, hperm, hbefore⟩ :=
    dlSortMapsDfs_sorts (fun _ => false) true (by decide) hclosed
  exact ⟨hclosed, sorted, hrun, hperm, hbefore (crossed_acyclic _)⟩

end Sorting

end AwaitGlibc.SortMaps

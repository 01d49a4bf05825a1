import AwaitGlibc.SortMaps
import Mathlib.Data.List.Nodup

/-!
# Unloading objects

`_dl_close_worker` collects garbage in a namespace. It scans the list of link maps
for objects that are still needed, marks what they depend on, and moves back in the
list when a mark falls on an object it has passed. The objects left without a mark
are finalised in the order of `_dl_sort_maps` and then unloaded.

One pass is modelled, from the label `retry` on. The scopes of the objects that stay
are not part of the model.
-/
namespace AwaitGlibc.CloseWorker
open CheckedArray SortMaps

/-- The values of `l_type`. -/
inductive LinkType where
  | executable
  | library
  | loaded
  deriving DecidableEq, Repr

/-- A namespace: the list `_ns_loaded` and what a pass reads in its link maps. `hasFini`
is whether `DT_FINI_ARRAY` or `DT_FINI` is present. A list `l_initfini` has at least one
entry, and no dependency leaves the namespace. -/
structure Namespace (α : Type) where
  nsid : ℕ
  loaded : List α
  graph : Graph α
  lNs : α → ℕ
  lType : α → LinkType
  directOpencount : α → ℕ
  nodeleteActive : α → Bool
  tlsDtorCount : α → ℕ
  initCalled : α → Bool
  hasFini : α → Bool
  nodup : loaded.Nodup
  lNs_eq : ∀ l ∈ loaded, lNs l = nsid
  initfini_ne_nil : ∀ l ∈ loaded, graph.initfini l ≠ some []
  initfini_inside : ∀ l ∈ loaded, ∀ d ∈ (graph.initfini l).getD [], d ∈ loaded
  reldeps_inside : ∀ l ∈ loaded, ∀ d ∈ (graph.reldeps l).getD [], d ∈ loaded

/-- The fields `l_map_used`, `l_map_done` and `l_idx`, where `none` is
`IDX_STILL_USED`, and `done_index + 1`. -/
structure Marks (α : Type) where
  used : α → Bool
  done : α → Bool
  idx : α → Option ℕ
  next : ℕ

variable {α : Type} [DecidableEq α]

/-- The first loop: no map is used or done, and each has its place in `maps` as
index. -/
def Namespace.start (ns : Namespace α) : Marks α where
  used _ := false
  done _ := false
  idx l := some (ns.loaded.idxOf l)
  next := 0

/-- Marking one dependency. If the scan has passed it, it goes back there. -/
def markDependency (nloaded : ℕ) (m : Marks α) (dep : α) : Except Stop (Marks α) :=
  match m.idx dep with
  | none => .ok m
  | some i =>
    if i < nloaded then
      if m.used dep then .ok m
      else .ok { m with
        used := Function.update m.used dep true
        next := if i < m.next then i else m.next }
    else .error .assertion

/-- The loop over `l_initfini`, which starts after the first entry. -/
def markInitfini (ns : Namespace α) (l : α) (m : Marks α) : Except Stop (Marks α) :=
  match ns.graph.initfini l with
  | none => .ok m
  | some [] => .error (.fault (.loadOutside 1 1))
  | some (_ :: deps) => deps.foldlM (markDependency ns.loaded.length) m

def markReldeps (ns : Namespace α) (l : α) (m : Marks α) : Except Stop (Marks α) :=
  ((ns.graph.reldeps l).getD []).foldlM (markDependency ns.loaded.length) m

/-- The test for an object that is not used, as far as is known. -/
def Namespace.unused (ns : Namespace α) (m : Marks α) (l : α) : Bool :=
  ns.lType l = .loaded && ns.directOpencount l = 0 && !ns.nodeleteActive l
    && ns.tlsDtorCount l = 0 && !m.used l

/-- An object found to be needed: it and its dependencies are marked. -/
def handle (ns : Namespace α) (l : α) (m : Marks α) : Except Stop (Marks α) := do
  let m := { m with
    used := Function.update m.used l true
    done := Function.update m.done l true
    idx := Function.update m.idx l none }
  let m ← markInitfini ns l m
  markReldeps ns l m

def scan (ns : Namespace α) : ℕ → Marks α → Except Stop (Marks α)
  | 0, _ => .error (.fault .outOfFuel)
  | fuel + 1, m =>
    match ns.loaded[m.next]? with
    | none => .ok m
    | some l =>
      let m := { m with next := m.next + 1 }
      if m.done l || ns.unused m l then scan ns fuel m
      else do
        let m ← handle ns l m
        scan ns fuel m

/-- What the loop that calls the termination functions leaves behind: the objects whose
destructors it called, in order, those with `l_removed` set, and `first_loaded`, where
`none` is the initial `~0`. `unload_any` is whether any object was removed. -/
structure Finalised (α : Type) where
  called : List α
  removed : List α
  firstLoaded : Option ℕ

def Finalised.note (i : ℕ) (f : Finalised α) : Finalised α :=
  { f with firstLoaded := some (match f.firstLoaded with
      | none => i
      | some first => if i < first then i else first) }

def finalise (ns : Namespace α) (used : α → Bool) (i : ℕ) (l : α) (f : Finalised α) :
    Except Stop (Finalised α) :=
  if ns.lNs l = ns.nsid then
    if !used l then
      if ns.lType l = .loaded && !ns.nodeleteActive l then
        .ok (Finalised.note i { f with
          called := if ns.initCalled l && ns.hasFini l then f.called ++ [l] else f.called
          removed := f.removed ++ [l] })
      else .error .assertion
    else if ns.lType l = .loaded then .ok (f.note i)
    else .ok f
  else .error .assertion

def finaliseAll (ns : Namespace α) (used : α → Bool) :
    ℕ → List α → Finalised α → Except Stop (Finalised α)
  | _, [], f => .ok f
  | i, l :: maps, f => do
      let f ← finalise ns used i l f
      finaliseAll ns used (i + 1) maps f

/-- The last loop: the objects unloaded, in order. -/
def unloadAll (ns : Namespace α) (used : α → Bool) : List α → Except Stop (List α)
  | [] => .ok []
  | l :: maps => do
      if !used l then
        if ns.lType l = .loaded then
          let unloaded ← unloadAll ns used maps
          return l :: unloaded
        else throw .assertion
      else unloadAll ns used maps

structure Outcome (α : Type) where
  marks : Marks α
  called : List α
  removed : List α
  unloaded : List α
  remaining : List α

/-- A pass of `_dl_close_worker`; `visited` are the flags the sort starts from. -/
def closePass (ns : Namespace α) (visited : α → Bool) : Except Stop (Outcome α) := do
  let nloaded := ns.loaded.length
  let m ← scan ns ((nloaded + 1) * (nloaded + 1)) ns.start
  let maps ← dlSortMapsDfs ns.graph visited ns.loaded true
  let f ← finaliseAll ns m.used 0 maps ⟨[], [], none⟩
  if f.removed = [] then
    return ⟨m, f.called, f.removed, [], ns.loaded⟩
  else
    let unloaded ← unloadAll ns m.used (maps.drop (f.firstLoaded.getD nloaded))
    return ⟨m, f.called, f.removed, unloaded, ns.loaded.diff unloaded⟩

/-! ## What is needed -/

def Namespace.Root (ns : Namespace α) (l : α) : Prop :=
  l ∈ ns.loaded ∧ (ns.lType l ≠ .loaded ∨ 0 < ns.directOpencount l ∨
    ns.nodeleteActive l = true ∨ ns.tlsDtorCount l ≠ 0)

def Namespace.Depends (ns : Namespace α) (l d : α) : Prop :=
  d ∈ (ns.graph.initfini l).getD [] ∨ d ∈ (ns.graph.reldeps l).getD []

def Namespace.Needed (ns : Namespace α) (l : α) : Prop :=
  ∃ r, ns.Root r ∧ Relation.ReflTransGen ns.Depends r l

/-- The dependencies that the scan follows: the first entry of `l_initfini` is left
out. -/
def Namespace.followed (ns : Namespace α) (l : α) : List α :=
  ((ns.graph.initfini l).getD []).tail ++ (ns.graph.reldeps l).getD []

def Namespace.Reached (ns : Namespace α) (l : α) : Prop :=
  ∃ r, ns.Root r ∧ Relation.ReflTransGen (fun l d => d ∈ ns.followed l) r l

/-! ## The scan -/

section Scanned
variable {ns : Namespace α} {l : α} {rest : List α} {m : Marks α}
omit [DecidableEq α]

theorem Namespace.followed_inside {d : α} (hl : l ∈ ns.loaded) (hd : d ∈ ns.followed l) :
    d ∈ ns.loaded := by
  obtain hd | hd := List.mem_append.mp hd
  · exact ns.initfini_inside l hl d (List.mem_of_mem_tail hd)
  · exact ns.reldeps_inside l hl d hd

theorem Namespace.Reached.step {d : α} (h : ns.Reached l) (hd : d ∈ ns.followed l) :
    ns.Reached d := by
  obtain ⟨r, hr, hpath⟩ := h
  exact ⟨r, hr, hpath.tail hd⟩

theorem Namespace.Reached.mem (h : ns.Reached l) : l ∈ ns.loaded := by
  obtain ⟨r, hr, hpath⟩ := h
  induction hpath with
  | refl => exact hr.1
  | tail _ hd ih => exact ns.followed_inside ih hd

theorem Namespace.Reached.needed {l : α} (h : ns.Reached l) : ns.Needed l := by
  obtain ⟨r, hr, hpath⟩ := h
  refine ⟨r, hr, hpath.lift id fun x d hd => ?_⟩
  obtain hd | hd := List.mem_append.mp hd
  · exact .inl (List.mem_of_mem_tail hd)
  · exact .inr hd

theorem Namespace.Needed.reached (hfirst : ∀ l first rest, ns.Reached l →
    ns.graph.initfini l = some (first :: rest) → ns.Reached first) {l : α} (h : ns.Needed l) :
    ns.Reached l := by
  obtain ⟨r, hr, hpath⟩ := h
  induction hpath with
  | refl => exact ⟨r, hr, .refl⟩
  | @tail x d _ hd ih =>
    obtain hd | hd := hd
    · cases hlist : ns.graph.initfini x with
      | none => simp [hlist] at hd
      | some list =>
        rw [hlist, Option.getD_some] at hd
        cases list with
        | nil => cases hd
        | cons first rest =>
          obtain rfl | hd := List.mem_cons.mp hd
          · exact hfirst x d rest ih hlist
          · exact ih.step (by simp [Namespace.followed, hlist, hd])
    · exact ih.step (List.mem_append_right _ hd)

theorem Namespace.closed (ns : Namespace α) : ns.graph.Closed true ns.loaded := by
  intro x hx y hy
  rw [Graph.deps, List.mem_filter, if_pos rfl, List.mem_append, List.mem_reverse] at hy
  obtain hy | hy := hy.1
  · exact ns.initfini_inside x hx y hy
  · exact ns.reldeps_inside x hx y hy

/-- What holds during the scan. The dependencies in `pending` are about to be marked;
every other dependency of an object that is done has its mark. -/
structure Scanned (ns : Namespace α) (pending : List α) (m : Marks α) : Prop where
  idx_none : ∀ l ∈ ns.loaded, m.idx l = none ↔ m.done l = true
  idx_some : ∀ l ∈ ns.loaded, ∀ i, m.idx l = some i → ns.loaded[i]? = some l
  done_used : ∀ l ∈ ns.loaded, m.done l = true → m.used l = true
  used_reached : ∀ l ∈ ns.loaded, m.used l = true → ns.Reached l
  done_deps : ∀ l ∈ ns.loaded, m.done l = true → ∀ d ∈ ns.followed l,
    d ∈ pending ∨ m.used d = true
  passed : ∀ i < m.next, ∀ l, ns.loaded[i]? = some l → ns.Root l ∨ m.used l = true →
    m.done l = true

theorem Namespace.index_unique {i j : ℕ} (hi : ns.loaded[i]? = some l)
    (hj : ns.loaded[j]? = some l) : i = j := by
  obtain ⟨hi', hi⟩ := List.getElem?_eq_some_iff.mp hi
  obtain ⟨hj', hj⟩ := List.getElem?_eq_some_iff.mp hj
  exact (List.Nodup.getElem_inj_iff ns.nodup).mp (hi.trans hj.symm)

theorem Scanned.drop {dep : α} (h : Scanned ns (dep :: rest) m)
    (hused : m.used dep = true) : Scanned ns rest m :=
  { h with
    done_deps := fun l hl hdone d hd => by
      obtain hmem | hmark := h.done_deps l hl hdone d hd
      · obtain rfl | hmem := List.mem_cons.mp hmem
        · exact .inr hused
        · exact .inl hmem
      · exact .inr hmark }

theorem Namespace.unused_eq_false (hl : l ∈ ns.loaded)
    (h : ns.unused m l = false) : ns.Root l ∨ m.used l = true := by
  simp only [Namespace.unused, Bool.and_eq_false_iff, decide_eq_false_iff_not,
    Bool.not_eq_false'] at h
  rw [Namespace.Root]
  grind

theorem Namespace.unused_eq_true (h : ns.unused m l = true) :
    ¬(ns.Root l ∨ m.used l = true) := by
  simp only [Namespace.unused, Bool.and_eq_true, decide_eq_true_eq, Bool.not_eq_true'] at h
  rw [Namespace.Root]
  grind

/-- When the scan has passed all objects, those that are reached are done. -/
theorem Scanned.done_of_reached (h : Scanned ns [] m)
    (hend : ns.loaded.length ≤ m.next) (hl : ns.Reached l) : m.done l = true := by
  have hdone {x : α} (hx : x ∈ ns.loaded) (hneed : ns.Root x ∨ m.used x = true) :
      m.done x = true := by
    obtain ⟨i, hi, hix⟩ := List.getElem_of_mem hx
    exact h.passed i (by omega) x (List.getElem?_eq_some_iff.mpr ⟨hi, hix⟩) hneed
  obtain ⟨r, hr, hpath⟩ := hl
  induction hpath with
  | refl => exact hdone hr.1 (.inl hr)
  | @tail x y hrx hxy ih =>
    have hx : x ∈ ns.loaded := Namespace.Reached.mem ⟨r, hr, hrx⟩
    obtain hmem | hused := h.done_deps x hx ih y hxy
    · cases hmem
    · exact hdone (ns.followed_inside hx hxy) (.inr hused)

end Scanned

section Scan
variable {ns : Namespace α} {l : α} {rest : List α} {m : Marks α}

theorem scanned_start (ns : Namespace α) : Scanned ns [] ns.start where
  idx_none l hl := by simp [Namespace.start]
  idx_some l hl i hi := by
    cases hi
    exact List.getElem?_idxOf hl
  done_used l hl h := by cases h
  used_reached l hl h := by cases h
  done_deps l hl h := by cases h
  passed i hi := absurd hi (Nat.not_lt_zero i)

theorem markDependency_spec {dep : α}
    (h : Scanned ns (dep :: rest) m) (hdep : dep ∈ ns.loaded) (hreached : ns.Reached dep) :
    ∃ m', markDependency ns.loaded.length m dep = .ok m' ∧ Scanned ns rest m' ∧
      m'.done = m.done := by
  cases hidx : m.idx dep with
  | none =>
    refine ⟨m, by rw [markDependency, hidx], h.drop ?_, rfl⟩
    exact h.done_used dep hdep ((h.idx_none dep hdep).mp hidx)
  | some i =>
    have hplace := h.idx_some dep hdep i hidx
    have hlt := (List.getElem?_eq_some_iff.mp hplace).1
    by_cases hused : m.used dep = true
    · exact ⟨m, by simp only [markDependency, hidx, if_pos hlt, if_pos hused], h.drop hused, rfl⟩
    · refine ⟨{ m with
        used := Function.update m.used dep true
        next := if i < m.next then i else m.next },
        by simp only [markDependency, hidx, if_pos hlt, if_neg hused], ?_, rfl⟩
      constructor
      · exact h.idx_none
      · exact h.idx_some
      · intro l hl hdone
        by_cases hld : l = dep
        · simp [hld]
        · simpa [hld] using h.done_used l hl hdone
      · intro l hl hmark
        by_cases hld : l = dep
        · rw [hld]
          exact hreached
        · exact h.used_reached l hl (by simpa [hld] using hmark)
      · intro l hl hdone d hd
        by_cases hdd : d = dep
        · simp [hdd]
        · simpa [hdd] using h.done_deps l hl hdone d hd
      · -- the scan stands at the dependency or before it, so it has not passed it
        intro j hj l hjl hneed
        have hle : j < m.next ∧ j < i := by
          simp only at hj
          split_ifs at hj <;> omega
        have hld : l ≠ dep := by
          rintro rfl
          exact absurd (ns.index_unique hjl hplace) (by omega)
        exact h.passed j hle.1 l hjl (by simpa [hld] using hneed)

theorem foldlM_markDependency (deps : List α)
    (h : Scanned ns (deps ++ rest) m) (hdeps : ∀ d ∈ deps, d ∈ ns.loaded ∧ ns.Reached d) :
    ∃ m', deps.foldlM (markDependency ns.loaded.length) m = .ok m' ∧ Scanned ns rest m' ∧
      m'.done = m.done := by
  induction deps generalizing m with
  | nil => exact ⟨m, rfl, h, rfl⟩
  | cons d deps ih =>
    rw [List.forall_mem_cons] at hdeps
    obtain ⟨m₁, hrun, hm₁, hdone₁⟩ := markDependency_spec h hdeps.1.1 hdeps.1.2
    obtain ⟨m₂, hrun₂, hm₂, hdone₂⟩ := ih hm₁ hdeps.2
    refine ⟨m₂, ?_, hm₂, hdone₂.trans hdone₁⟩
    rw [List.foldlM_cons, hrun]
    exact hrun₂

theorem markInitfini_eq (hl : l ∈ ns.loaded) (m : Marks α) :
    markInitfini ns l m =
      ((ns.graph.initfini l).getD []).tail.foldlM (markDependency ns.loaded.length) m := by
  have hne := ns.initfini_ne_nil l hl
  unfold markInitfini
  cases hlist : ns.graph.initfini l with
  | none => rfl
  | some list =>
    cases list with
    | nil => exact absurd hlist hne
    | cons first deps => rfl

theorem handle_spec (h : Scanned ns [] m)
    (hget : ns.loaded[m.next]? = some l) (hreached : ns.Reached l) :
    ∃ m', handle ns l { m with next := m.next + 1 } = .ok m' ∧ Scanned ns [] m' ∧
      m'.done = Function.update m.done l true := by
  have hl : l ∈ ns.loaded := List.mem_of_getElem? hget
  have hstart : Scanned ns (ns.followed l) {
      used := Function.update m.used l true
      done := Function.update m.done l true
      idx := Function.update m.idx l none
      next := m.next + 1 } := by
    constructor
    · intro x hx
      by_cases hxl : x = l
      · simp [hxl]
      · simpa [hxl] using h.idx_none x hx
    · intro x hx i hi
      by_cases hxl : x = l
      · simp [hxl] at hi
      · exact h.idx_some x hx i (by simpa [hxl] using hi)
    · intro x hx hdone
      by_cases hxl : x = l
      · simp [hxl]
      · simpa [hxl] using h.done_used x hx (by simpa [hxl] using hdone)
    · intro x hx hused
      by_cases hxl : x = l
      · rw [hxl]
        exact hreached
      · exact h.used_reached x hx (by simpa [hxl] using hused)
    · intro x hx hdone d hd
      by_cases hxl : x = l
      · rw [hxl] at hd
        exact .inl hd
      · obtain hmem | hused := h.done_deps x hx (by simpa [hxl] using hdone) d hd
        · cases hmem
        · by_cases hdl : d = l <;> simp [hdl, hused]
    · intro i hi x hix hneed
      by_cases hxl : x = l
      · simp [hxl]
      · have hne : i ≠ m.next := by
          rintro rfl
          exact hxl (Option.some.inj (hix.symm.trans hget))
        simpa [hxl] using h.passed i (by simp only at hi; omega) x hix (by simpa [hxl] using hneed)
  have hdeps : ∀ d ∈ ns.followed l, d ∈ ns.loaded ∧ ns.Reached d :=
    fun d hd => ⟨ns.followed_inside hl hd, hreached.step hd⟩
  obtain ⟨m₁, hrun₁, hm₁, hdone₁⟩ := foldlM_markDependency _ hstart
    fun d hd => hdeps d (List.mem_append_left _ hd)
  rw [← List.append_nil ((ns.graph.reldeps l).getD [])] at hm₁
  obtain ⟨m₂, hrun₂, hm₂, hdone₂⟩ := foldlM_markDependency _ hm₁
    fun d hd => hdeps d (List.mem_append_right _ hd)
  refine ⟨m₂, ?_, hm₂, hdone₂.trans hdone₁⟩
  rw [handle, markInitfini_eq hl, hrun₁]
  exact hrun₂

def Marks.open (ns : Namespace α) (m : Marks α) : ℕ :=
  ns.loaded.countP (!m.done ·)

omit [DecidableEq α] in
theorem Marks.open_le (m : Marks α) : m.open ns ≤ ns.loaded.length :=
  List.countP_le_length

theorem Marks.open_update {m' : Marks α} (hl : l ∈ ns.loaded) (hopen : m.done l = false)
    (hdone : m'.done = Function.update m.done l true) : m'.open ns < m.open ns := by
  rw [Marks.open, Marks.open, hdone]
  have hle (list : List α) :
      list.countP (!Function.update m.done l true ·) ≤ list.countP (!m.done ·) := by
    refine List.countP_mono_left fun x _ hx => ?_
    by_cases hxl : x = l
    · simp [hxl] at hx
    · simpa [hxl] using hx
  obtain ⟨front, back, hsplit⟩ := List.append_of_mem hl
  rw [hsplit, List.countP_append, List.countP_append, List.countP_cons_of_neg (by simp),
    List.countP_cons_of_pos (by simp [hopen])]
  have := hle front
  have := hle back
  omega

/-- The scan ends: it goes back only when an object is done that was not. -/
theorem scan_spec (fuel : ℕ) (h : Scanned ns [] m)
    (hfuel : m.open ns * (ns.loaded.length + 1) + (ns.loaded.length - m.next) < fuel) :
    ∃ m', scan ns fuel m = .ok m' ∧ Scanned ns [] m' ∧ ns.loaded.length ≤ m'.next := by
  induction fuel generalizing m with
  | zero => omega
  | succ fuel ih =>
    cases hget : ns.loaded[m.next]? with
    | none =>
      refine ⟨m, by rw [scan, hget], h, ?_⟩
      exact List.getElem?_eq_none_iff.mp hget
    | some l =>
      have hl : l ∈ ns.loaded := List.mem_of_getElem? hget
      have hlt := (List.getElem?_eq_some_iff.mp hget).1
      by_cases hskip : (m.done l || ns.unused m l) = true
      · have hnext : Scanned ns [] { m with next := m.next + 1 } :=
          { h with
            passed := fun i hi x hix hneed => by
              obtain hi | rfl := Nat.lt_succ_iff_lt_or_eq.mp hi
              · exact h.passed i hi x hix hneed
              · cases hget.symm.trans hix
                obtain hdone | hunused := Bool.or_eq_true_iff.mp hskip
                · exact hdone
                · exact absurd hneed (ns.unused_eq_true hunused) }
        obtain ⟨m', hrun, hm'⟩ := ih hnext (by
          change m.open ns * _ + (ns.loaded.length - (m.next + 1)) < fuel
          omega)
        refine ⟨m', ?_, hm'⟩
        rw [scan, hget]
        change (if (m.done l || ns.unused m l) = true then _ else _) = _
        rw [if_pos hskip]
        exact hrun
      · rw [Bool.not_eq_true, Bool.or_eq_false_iff] at hskip
        have hneed := ns.unused_eq_false hl hskip.2
        have hreached : ns.Reached l := by
          obtain hroot | hused := hneed
          · exact ⟨l, hroot, .refl⟩
          · exact h.used_reached l hl hused
        obtain ⟨m₁, hrun₁, hm₁, hdone₁⟩ := handle_spec h hget hreached
        have hopen : m₁.open ns < m.open ns := Marks.open_update hl hskip.1 hdone₁
        have hmul := Nat.mul_le_mul_right (ns.loaded.length + 1) hopen
        rw [Nat.succ_mul] at hmul
        obtain ⟨m', hrun, hm'⟩ := ih hm₁ (by omega)
        refine ⟨m', ?_, hm'⟩
        rw [scan, hget]
        change (if (m.done l || ns.unused m l) = true then _ else _) = _
        rw [if_neg (by simp [hskip]), hrun₁]
        exact hrun

theorem scan_exact (ns : Namespace α) :
    ∃ m, scan ns ((ns.loaded.length + 1) * (ns.loaded.length + 1)) ns.start = .ok m ∧
      ∀ l ∈ ns.loaded, (m.used l = true ↔ ns.Reached l) ∧ (m.idx l = none ↔ ns.Reached l) := by
  have hopen : ns.start.open ns * (ns.loaded.length + 1) ≤
      ns.loaded.length * (ns.loaded.length + 1) := Nat.mul_le_mul_right _ (Marks.open_le _)
  obtain ⟨m, hrun, hm, hend⟩ := scan_spec ((ns.loaded.length + 1) * (ns.loaded.length + 1))
    (scanned_start ns) (by
      rw [Nat.add_one_mul]
      omega)
  refine ⟨m, hrun, fun l hl => ⟨⟨hm.used_reached l hl, fun h => ?_⟩, ?_⟩⟩
  · exact hm.done_used l hl (hm.done_of_reached hend h)
  · rw [hm.idx_none l hl]
    exact ⟨fun h => hm.used_reached l hl (hm.done_used l hl h), hm.done_of_reached hend⟩

end Scan

/-! ## Finalisation -/

section Finalisation
variable {ns : Namespace α} {used : α → Bool}
omit [DecidableEq α]

def Removable (ns : Namespace α) (used : α → Bool) : Prop :=
  ∀ l ∈ ns.loaded, used l = false → ns.lType l = .loaded ∧ ns.nodeleteActive l = false

theorem Finalised.note_le (f : Finalised α) (i : ℕ) :
    ∃ first ≤ i, (f.note i).firstLoaded = some first := by
  cases h : f.firstLoaded with
  | none => exact ⟨i, le_rfl, by simp [Finalised.note, h]⟩
  | some first =>
    by_cases hi : i < first
    · exact ⟨i, le_rfl, by simp [Finalised.note, h, hi]⟩
    · exact ⟨first, by omega, by simp [Finalised.note, h, hi]⟩

theorem Finalised.note_mono {f : Finalised α} {first : ℕ} (h : f.firstLoaded = some first)
    (i : ℕ) : ∃ first' ≤ first, (f.note i).firstLoaded = some first' := by
  by_cases hi : i < first
  · exact ⟨i, by omega, by simp [Finalised.note, h, hi]⟩
  · exact ⟨first, le_rfl, by simp [Finalised.note, h, hi]⟩

/-- One round: an object without a mark is removed, and `first_loaded` is not behind
it. -/
structure Finalises (ns : Namespace α) (used : α → Bool) (i : ℕ) (l : α)
    (f f' : Finalised α) : Prop where
  removed : f'.removed = f.removed ++ [l].filter (!used ·)
  called : f'.called = f.called ++
    [l].filter fun l => !used l && (ns.initCalled l && ns.hasFini l)
  mono : ∀ first, f.firstLoaded = some first → ∃ first' ≤ first, f'.firstLoaded = some first'
  unused : used l = false → ∃ first ≤ i, f'.firstLoaded = some first

theorem finalise_spec (hrem : Removable ns used) (i : ℕ) {l : α} (hl : l ∈ ns.loaded)
    (f : Finalised α) : ∃ f', finalise ns used i l f = .ok f' ∧ Finalises ns used i l f f' := by
  rw [finalise, if_pos (ns.lNs_eq l hl)]
  cases hused : used l with
  | false =>
    obtain ⟨htype, hnodelete⟩ := hrem l hl hused
    rw [if_pos (by rfl), if_pos (by simp [htype, hnodelete])]
    refine ⟨_, rfl, ?_, ?_, fun first h => Finalised.note_mono h i, fun _ => Finalised.note_le _ i⟩
    · simp [Finalised.note, hused]
    · cases hcall : ns.initCalled l && ns.hasFini l <;>
        simp [Finalised.note, hused, hcall]
  | true =>
    by_cases htype : ns.lType l = .loaded
    · rw [if_pos htype]
      refine ⟨_, rfl, ?_, ?_, fun first h => Finalised.note_mono h i, by simp [hused]⟩
      · simp [Finalised.note, hused]
      · simp [Finalised.note, hused]
    · rw [if_neg htype]
      exact ⟨f, rfl, by simp [hused], by simp [hused], fun first h => ⟨first, le_rfl, h⟩,
        by simp [hused]⟩

theorem finaliseAll_spec (hrem : Removable ns used) (maps : List α) (hmaps : maps ⊆ ns.loaded)
    (i : ℕ) (f : Finalised α) :
    ∃ f', finaliseAll ns used i maps f = .ok f' ∧
      f'.removed = f.removed ++ maps.filter (!used ·) ∧
      f'.called = f.called ++
        maps.filter (fun l => !used l && (ns.initCalled l && ns.hasFini l)) ∧
      (∀ first, f.firstLoaded = some first → ∃ first' ≤ first, f'.firstLoaded = some first') ∧
      ∀ j l, maps[j]? = some l → used l = false →
        ∃ first ≤ i + j, f'.firstLoaded = some first := by
  induction maps generalizing i f with
  | nil => exact ⟨f, rfl, by simp, by simp, fun first h => ⟨first, le_rfl, h⟩, by simp⟩
  | cons l maps ih =>
    rw [List.cons_subset] at hmaps
    obtain ⟨f₁, hrun₁, h₁⟩ := finalise_spec hrem i hmaps.1 f
    obtain ⟨f₂, hrun₂, hremoved, hcalled, hmono, hunused⟩ := ih hmaps.2 (i + 1) f₁
    refine ⟨f₂, ?_, ?_, ?_, ?_, ?_⟩
    · rw [finaliseAll, hrun₁]
      exact hrun₂
    · rw [hremoved, h₁.removed, List.append_assoc, ← List.filter_append]
      rfl
    · rw [hcalled, h₁.called, List.append_assoc, ← List.filter_append]
      rfl
    · intro first h
      obtain ⟨first₁, hle₁, h'⟩ := h₁.mono first h
      obtain ⟨first₂, hle₂, h''⟩ := hmono first₁ h'
      exact ⟨first₂, hle₂.trans hle₁, h''⟩
    · intro j x hj hx
      cases j with
      | zero =>
        cases hj
        obtain ⟨first₁, hle₁, h'⟩ := h₁.unused hx
        obtain ⟨first₂, hle₂, h''⟩ := hmono first₁ h'
        exact ⟨first₂, by omega, h''⟩
      | succ j =>
        obtain ⟨first, hle, h'⟩ := hunused j x hj hx
        exact ⟨first, by omega, h'⟩

theorem unloadAll_spec (hrem : Removable ns used) (maps : List α) (hmaps : maps ⊆ ns.loaded) :
    unloadAll ns used maps = .ok (maps.filter (!used ·)) := by
  induction maps with
  | nil => rfl
  | cons l maps ih =>
    rw [List.cons_subset] at hmaps
    rw [unloadAll, ih hmaps.2]
    cases hused : used l with
    | false =>
      rw [List.filter_cons_of_pos (by simp [hused]), if_pos (by rfl),
        if_pos (hrem l hmaps.1 hused).1]
      rfl
    | true =>
      rw [List.filter_cons_of_neg (by simp [hused])]
      rfl

theorem filter_drop {maps : List α} {first : ℕ}
    (h : ∀ j l, maps[j]? = some l → used l = false → first ≤ j) :
    (maps.drop first).filter (!used ·) = maps.filter (!used ·) := by
  conv_rhs => rw [← List.take_append_drop first maps, List.filter_append]
  have hnil : (maps.take first).filter (!used ·) = [] := by
    rw [List.filter_eq_nil_iff]
    intro l hl hused
    obtain ⟨j, hj, hjl⟩ := List.getElem_of_mem hl
    rw [List.getElem_take] at hjl
    rw [List.length_take] at hj
    have := h j l (List.getElem?_eq_some_iff.mpr ⟨by omega, hjl⟩) (by simpa using hused)
    omega
  rw [hnil, List.nil_append]

end Finalisation

/-! ## A pass -/

section Pass
variable {ns : Namespace α}

/-- What a pass does when the objects in `keep` are those it has to keep. -/
structure Keeps (ns : Namespace α) (keep : α → Prop) (out : Outcome α) : Prop where
  used : ∀ l ∈ ns.loaded, out.marks.used l = true ↔ keep l
  idx : ∀ l ∈ ns.loaded, out.marks.idx l = none ↔ keep l
  called : ∀ l, l ∈ out.called ↔
    l ∈ ns.loaded ∧ ¬keep l ∧ ns.initCalled l = true ∧ ns.hasFini l = true
  removed : ∀ l, l ∈ out.removed ↔ l ∈ ns.loaded ∧ ¬keep l
  unloaded : ∀ l, l ∈ out.unloaded ↔ l ∈ ns.loaded ∧ ¬keep l
  remaining : ∀ l, l ∈ out.remaining ↔ l ∈ ns.loaded ∧ keep l

/-- A pass comes to its end and keeps what the scan reaches. -/
theorem closePass_keeps (ns : Namespace α) (visited : α → Bool) :
    ∃ out, closePass ns visited = .ok out ∧ Keeps ns ns.Reached out := by
  obtain ⟨m, hscan, hm⟩ := scan_exact ns
  obtain ⟨maps, hsort, hperm, -⟩ := dlSortMapsDfs_spec visited true ns.nodup ns.closed
  have hrem : Removable ns m.used := by
    intro l hl hused
    have hroot : ¬ns.Root l := fun h => by
      rw [(hm l hl).1.mpr ⟨l, h, .refl⟩] at hused
      cases hused
    rw [Namespace.Root] at hroot
    grind
  have hunused {l : α} (hl : l ∈ ns.loaded) : m.used l = false ↔ ¬ns.Reached l := by
    rw [← (hm l hl).1, Bool.not_eq_true]
  obtain ⟨f, hfin, hremoved, hcalled, -, hfirst⟩ :=
    finaliseAll_spec hrem maps hperm.subset 0 ⟨[], [], none⟩
  rw [List.nil_append] at hremoved hcalled
  have hmem (l : α) : l ∈ maps.filter (!m.used ·) ↔ l ∈ ns.loaded ∧ ¬ns.Reached l := by
    rw [List.mem_filter, hperm.mem_iff]
    refine and_congr_right fun hl => ?_
    rw [← hunused hl, Bool.not_eq_true']
  have hcalled' (l : α) : l ∈ f.called ↔
      l ∈ ns.loaded ∧ ¬ns.Reached l ∧ ns.initCalled l = true ∧ ns.hasFini l = true := by
    rw [hcalled, List.mem_filter, hperm.mem_iff]
    refine and_congr_right fun hl => ?_
    rw [← hunused hl, Bool.and_eq_true, Bool.and_eq_true, Bool.not_eq_true']
  have hdrop : (maps.drop (f.firstLoaded.getD ns.loaded.length)).filter (!m.used ·) =
      maps.filter (!m.used ·) := by
    refine filter_drop fun j l hj hused => ?_
    obtain ⟨first, hle, h⟩ := hfirst j l hj hused
    rw [h]
    simpa using hle
  rw [closePass, hscan, hsort]
  change ∃ out, (finaliseAll ns m.used 0 maps ⟨[], [], none⟩ >>= _) = _ ∧ _
  rw [hfin]
  change ∃ out, (if f.removed = [] then _ else _) = _ ∧ _
  by_cases hnone : f.removed = []
  · rw [if_pos hnone]
    rw [hremoved] at hnone
    have hall (l : α) (hl : l ∈ ns.loaded) : ns.Reached l := by
      by_contra hnot
      have := (hmem l).mpr ⟨hl, hnot⟩
      rw [hnone] at this
      cases this
    refine ⟨_, rfl, fun l hl => (hm l hl).1, fun l hl => (hm l hl).2, hcalled', ?_, ?_, ?_⟩
    · intro l
      rw [hremoved, ← hmem]
    · intro l
      rw [← hmem, hnone]
    · exact fun l => ⟨fun hl => ⟨hl, hall l hl⟩, And.left⟩
  · rw [if_neg hnone, unloadAll_spec hrem _ fun l hl => hperm.subset (List.mem_of_mem_drop hl),
      hdrop]
    refine ⟨_, rfl, fun l hl => (hm l hl).1, fun l hl => (hm l hl).2, hcalled', ?_, hmem, ?_⟩
    · intro l
      rw [hremoved, ← hmem]
    · intro l
      rw [ns.nodup.mem_sdiff_iff, hmem]
      tauto

/-- A pass keeps just the objects that are needed if the first entries of `l_initfini`,
which it does not look at, add nothing to what the other dependencies reach. -/
theorem closePass_keeps_needed_iff (ns : Namespace α) (visited : α → Bool) :
    (∃ out, closePass ns visited = .ok out ∧ Keeps ns ns.Needed out) ↔
      ∀ l first rest, ns.Reached l → ns.graph.initfini l = some (first :: rest) →
        ns.Reached first := by
  obtain ⟨out, hrun, hkeeps⟩ := closePass_keeps ns visited
  constructor
  · rintro ⟨out', hrun', hneeded⟩ l first rest hl hlist
    cases hrun.symm.trans hrun'
    have hmem : first ∈ (ns.graph.initfini l).getD [] := by simp [hlist]
    have hfirst : first ∈ ns.loaded := ns.initfini_inside l hl.mem first hmem
    obtain ⟨r, hr, hpath⟩ := hl.needed
    rw [← hkeeps.used first hfirst, hneeded.used first hfirst]
    exact ⟨r, hr, hpath.tail (.inl hmem)⟩
  · intro hfirst
    have hiff : ns.Reached = ns.Needed := by
      funext l
      exact propext ⟨Namespace.Reached.needed, Namespace.Needed.reached hfirst⟩
    rw [← hiff]
    exact ⟨out, hrun, hkeeps⟩

end Pass

/-! ## Objects that depend on each other -/

/-- `false`, which is being opened, and `true` depend on each other. While the
dependencies of `false` are sorted it has no list yet. -/
def opening : Graph Bool where
  initfini l := if l then some [true, false] else none
  reldeps _ := none
  mainMap _ := false

/-- Afterwards `false` has the sorted list. -/
def cycle : Namespace Bool where
  nsid := 0
  loaded := [false, true]
  graph := { opening with initfini := fun _ => some [true, false] }
  lNs _ := 0
  lType _ := .loaded
  directOpencount l := if l then 0 else 1
  nodeleteActive _ := false
  tlsDtorCount _ := 0
  initCalled _ := true
  hasFini _ := true
  nodup := by decide
  lNs_eq _ _ := rfl
  initfini_ne_nil _ _ := by simp
  initfini_inside := by decide
  reldeps_inside := by decide

/-- The sort puts `true` in front. The next pass takes the first entry for `false` itself
and unloads `true`. -/
theorem closePass_unloads_dependency :
    dlSortMapsDfs opening (fun _ => false) [false, true] false = .ok [true, false] ∧
      ¬∃ out, closePass cycle (fun _ => false) = .ok out ∧ Keeps cycle cycle.Needed out := by
  refine ⟨by decide +kernel, ?_⟩
  rintro ⟨out, hrun, hkeeps⟩
  have hunloaded : (closePass cycle fun _ => false).map Outcome.unloaded = .ok [true] := by
    decide +kernel
  rw [hrun] at hunloaded
  have htrue : true ∈ out.unloaded := by
    rw [Except.ok.inj hunloaded]
    exact List.mem_cons_self
  refine ((hkeeps.unloaded true).mp htrue).2 ⟨false, ⟨by decide, .inr (.inl (by decide))⟩, ?_⟩
  exact .single (.inl (by decide))

end AwaitGlibc.CloseWorker

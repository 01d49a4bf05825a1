import AwaitGlibc.FindObjectTable

/-!
# A reader beside the writer

`_dl_find_object` reads the table without a lock while the one writer, which holds
the loader lock, may be anywhere in an update. An update stores only into the
chain that is not in use until its last store, which advances the version, so the
chain a reader walks is at rest for as long as the version it started from is the
current one. What the reader loads after that can be anything, and is dropped.
-/
namespace AwaitGlibc.FindObject
open CheckedArray VersionedRead

/-! ## Stores and the copy they go to -/

/-- The copy of the table a store changes; the version belongs to neither. -/
def Store.copy : Store → Option Bool
  | .head copy _ => some copy
  | .size copy _ _ => some copy
  | .object copy _ _ _ _ => some copy
  | .version => none

variable {m m' : Mappings} {w : Store} {s : Writing}

theorem apply_frame {c : Bool} (hc : w.copy = some c) (h : m.apply w = .ok m') :
    m'.chain (!c) = m.chain (!c) ∧ m'.version = m.version := by
  have hset (chain : List Segment) (hm : m.setChain chain c = m') :
      m'.chain (!c) = m.chain (!c) ∧ m'.version = m.version := by
    subst hm
    exact ⟨setChain_chain_not .., setChain_version ..⟩
  cases w with
  | head copy seg =>
    cases hc
    exact hset _ (Except.ok.inj h)
  | size copy p n =>
    cases hc
    simp only [Mappings.apply] at h
    split at h
    · exact hset _ (Except.ok.inj h)
    · cases h
  | object copy p i f v =>
    cases hc
    simp only [Mappings.apply] at h
    split at h
    · split_ifs at h
      exact hset _ (Except.ok.inj h)
    · cases h
  | version => cases hc

theorem applyAll_frame {c : Bool} {ws : List Store} (hc : ∀ w ∈ ws, w.copy = some c)
    (h : m.applyAll ws = .ok m') : m'.chain (!c) = m.chain (!c) ∧ m'.version = m.version := by
  induction ws generalizing m with
  | nil =>
    cases h
    exact ⟨rfl, rfl⟩
  | cons w ws ih =>
    rw [List.forall_mem_cons] at hc
    obtain ⟨m₁, hw, hws⟩ := ok_of_bind h
    obtain ⟨hchain, hversion⟩ := apply_frame hc.1 hw
    obtain ⟨hchain', hversion'⟩ := ih hc.2 hws
    exact ⟨hchain'.trans hchain, hversion'.trans hversion⟩

def InCopy (c : Bool) (x : Addr) : Prop := x.copy = c

/-- The counter wraps at an even number, so it selects the copy that the version does. -/
theorem activeIdx_mod (version : ℕ) : activeIdx (version % 2 ^ 64) = activeIdx version := by
  rw [activeIdx, activeIdx, Nat.mod_mod_of_dvd version (by decide)]

theorem load_congr {c : Bool} (h : m'.chain c = m.chain c) {x : Addr} (hx : InCopy c x) :
    m'.load x = m.load x := by
  cases hx
  cases x <;> simp only [Mappings.load, Addr.copy] at h ⊢ <;> rw [h]

section UpdateStores
variable {copy : Bool}

variable {ws : List Store}

theorem place_copy {e : Entry} {t t' : Target} (h : t.place copy e = .ok (ws, t')) :
    ∀ w ∈ ws, w.copy = some copy := by
  obtain ⟨⟨vs, t₁⟩, hroom, hput⟩ := ok_of_bind h
  have hvs : ∀ w ∈ vs, w.copy = some copy := by
    unfold Target.makeRoom at hroom
    split_ifs at hroom
    · split at hroom
      · cases hroom
        simp [Store.copy]
      · cases hroom
    · cases hroom
      simp
  dsimp only at hput
  split at hput
  · cases hput
  · cases hput
    simpa [entryStores, Store.copy, or_imp, forall_and] using hvs

theorem mergeLoop_copy {fuel : ℕ} {s : Source} {t t' : Target}
    (h : mergeLoop copy fuel s t = .ok (ws, t')) : ∀ w ∈ ws, w.copy = some copy := by
  induction fuel generalizing s t ws with
  | zero => cases h
  | succ fuel ih =>
    obtain ⟨cur, hcur, -⟩ := ok_of_bind h
    rw [mergeLoop_succ hcur] at h
    have htake (e : Entry) (s' : Source)
        (hbind : (t.place copy e >>= fun p => mergeLoop copy fuel s' p.2 >>= fun q =>
          .ok (p.1 ++ q.1, q.2)) = .ok (ws, t')) : ∀ w ∈ ws, w.copy = some copy := by
      obtain ⟨⟨ws₁, t₁⟩, hplace, hrest⟩ := ok_of_bind hbind
      obtain ⟨⟨ws₂, t₂⟩, hloop, heq⟩ := ok_of_bind hrest
      cases heq
      exact List.forall_mem_append.mpr ⟨place_copy hplace, ih hloop⟩
    split at h
    · cases h
      simp
    · exact ih h
    · exact htake _ _ h
    · exact htake _ _ h

theorem updateStores_copy {current target : List Segment} {loaded : List LinkMap} {n : ℕ}
    (h : updateStores copy current target loaded n = .ok ws) :
    ∃ vs, ws = vs ++ [.version] ∧ ∀ w ∈ vs, w.copy = some copy := by
  cases target with
  | nil => cases h
  | cons seg previous =>
    obtain ⟨⟨ws₁, t⟩, hloop, hrest⟩ := ok_of_bind h
    dsimp only at hrest
    split_ifs at hrest
    cases hrest
    refine ⟨.size copy (seg :: previous).length (dlfoUpdateInitSeg seg n) ::
      (ws₁ ++ clearPrevious copy t.chain), by simp, ?_⟩
    have hclear : ∀ w ∈ clearPrevious copy t.chain, w.copy = some copy := by
      unfold clearPrevious
      split <;> simp [Store.copy]
    exact List.forall_mem_cons.mpr ⟨rfl, List.forall_mem_append.mpr
      ⟨mergeLoop_copy hloop, hclear⟩⟩

/-- Every store of an update but the last is into the chain that is not in use;
the last one advances the version. -/
theorem dlFindObjectUpdate1_copy {m : Mappings} {loaded : List LinkMap} {malloc : Malloc}
    (h : dlFindObjectUpdate1 m loaded malloc = .ok (some ws)) :
    ∃ vs, ws = vs ++ [.version] ∧ ∀ w ∈ vs, w.copy = some (!activeIdx m.version) := by
  simp only [dlFindObjectUpdate1] at h
  split_ifs at h
  · obtain ⟨seg, -, hseg⟩ := ok_of_bind h
    cases seg with
    | none => cases hseg
    | some seg =>
      obtain ⟨ws', hws, heq⟩ := ok_of_bind hseg
      cases heq
      obtain ⟨vs, rfl, hvs⟩ := updateStores_copy hws
      exact ⟨.head (!activeIdx m.version) seg :: vs, rfl, List.forall_mem_cons.mpr ⟨rfl, hvs⟩⟩
  · obtain ⟨ws', hws, heq⟩ := ok_of_bind h
    cases heq
    exact updateStores_copy hws

end UpdateStores

/-! ## The loads of a lookup -/

section Within
variable {A : Type} {P : A → Prop} {object : ℤ → Field → A}

theorem lowerBound_within (h : ∀ i f, P (object i f)) (pc fuel first size : ℕ) :
    (lowerBound object pc fuel first size).Within P := by
  induction fuel generalizing first size with
  | zero => trivial
  | succ fuel ih =>
    unfold lowerBound
    split_ifs
    · trivial
    · apply Loads.within_fetch_bind (h _ _)
      intro start
      split_ifs
      · exact ih _ _
      · exact ih _ _

theorem previousContains_within (h : ∀ i f, P (object i f)) (pc first : ℕ) :
    (previousContains object pc first).Within P := by
  apply Loads.within_fetch_bind (h _ _)
  exact fun _ => trivial

theorem dlfoLookup_within (h : ∀ i f, P (object i f)) (pc size : ℕ) :
    (dlfoLookup object pc size).Within P := by
  apply Loads.within_bind (lowerBound_within h ..)
  intro first
  split_ifs
  · exact previousContains_within h pc first
  · apply Loads.within_fetch_bind (h _ _)
    intro start
    split_ifs
    · apply Loads.within_fetch_bind (h _ _)
      exact fun _ => trivial
    · exact previousContains_within h pc first

theorem dlFindObjectInternalCopy_within {object : Field → A} (h : ∀ f, P (object f)) :
    (dlFindObjectInternalCopy object).Within P := by
  apply Loads.within_fetch_bind (h _)
  intro _
  apply Loads.within_fetch_bind (h _)
  intro _
  apply Loads.within_fetch_bind (h _)
  intro _
  apply Loads.within_fetch_bind (h _)
  exact fun _ => trivial

end Within

theorem locateObject_within (copy : Bool) (pc p : ℕ) :
    (locateObject copy pc p).Within (InCopy copy) := by
  induction p with
  | zero => trivial
  | succ p ih =>
    refine Loads.within_fetch_bind rfl ?_
    intro segSize
    split_ifs
    · trivial
    · refine Loads.within_fetch_bind rfl ?_
      intro base
      split_ifs
      · apply Loads.within_bind
        · apply dlfoLookup_within
          exact fun _ _ => rfl
        · exact fun _ => trivial
      · exact ih

/-- A lookup loads from the chain its version names and from nowhere else. -/
theorem findLoaded_within (pc version : ℕ) :
    (findLoaded pc version).Within (InCopy (activeIdx version)) := by
  apply Loads.within_bind
  · refine Loads.within_fetch_bind rfl ?_
    exact fun head => locateObject_within _ pc head
  · intro found
    split
    · apply Loads.within_map
      apply dlFindObjectInternalCopy_within
      exact fun _ => rfl
    · trivial

theorem findLoaded_mod (pc version : ℕ) : findLoaded pc (version % 2 ^ 64) = findLoaded pc version := by
  unfold findLoaded locateActive
  rw [activeIdx_mod]

/-! ## The writer -/

/-- The table with the writer somewhere in an update: the stores still to be
made, the objects of the version in use and those of the version being written. -/
structure Writing where
  table : Mappings
  pending : List Store
  objs : List LinkMap
  next : List LinkMap

/-- A step of the writer: it begins an update with objects that are sorted and
overlap nothing, or makes the next store of the one it is in. An update that finds
no memory makes no store. -/
inductive WriterStep : Writing → Writing → Prop
  | begin {s : Writing} {loaded : List LinkMap} {malloc : Malloc} {ws : List Store}
      (idle : s.pending = []) (placed : Placed (s.objs ++ loaded)) (nonempty : loaded ≠ [])
      (sorted : loaded.Pairwise fun a b => a.lMapStart ≤ b.lMapStart)
      (update : dlFindObjectUpdate1 s.table loaded malloc = .ok (some ws)) :
      WriterStep s { s with pending := ws, next := s.objs ++ loaded }
  | store {s : Writing} {w : Store} {ws : List Store} {m : Mappings}
      (pending : s.pending = w :: ws) (apply : s.table.apply w = .ok m) :
      WriterStep s ⟨m, ws, if w = .version then s.next else s.objs, s.next⟩

structure Quiet (s : Writing) : Prop where
  pending : s.pending = []
  represents : Represents s.table s.objs

/-- In an update: the stores left lead to a table for the next objects, and all
but the last leave the chain in use alone. -/
structure Busy (s : Writing) : Prop where
  stores : ∃ vs, s.pending = vs ++ [.version] ∧
    ∀ w ∈ vs, w.copy = some (!activeIdx s.table.version)
  finish : ∃ m, s.table.applyAll s.pending = .ok m ∧ Represents m s.next

/-- The lookups in the table, were it left as it is, answer for the objects of the
version in use. -/
def Answers (s : Writing) : Prop :=
  ∀ pc, s.table.find pc = some ((s.objs.find? (·.Contains pc)).map dlFindObjectFromMap)

def Good (s : Writing) : Prop := Answers s ∧ (Quiet s ∨ Busy s)

theorem Quiet.good (h : Quiet s) : Good s := ⟨h.represents.find, .inl h⟩

theorem Busy.store {ws : List Store} (h : Busy s) (hp : s.pending = w :: ws)
    (hm : s.table.apply w = .ok m) :
    (w.copy = some (!activeIdx s.table.version) ∧ ws ≠ [] ∧ Busy ⟨m, ws, s.objs, s.next⟩) ∨
      (w = .version ∧ Quiet ⟨m, ws, s.next, s.next⟩) := by
  obtain ⟨vs, hvs, hcopy⟩ := h.stores
  obtain ⟨m', hfinish, hrep⟩ := h.finish
  rw [hp] at hvs hfinish
  rw [applyAll_cons_ok hm] at hfinish
  cases vs with
  | nil =>
    obtain ⟨rfl, rfl⟩ := hvs
    cases hfinish
    exact .inr ⟨rfl, rfl, hrep⟩
  | cons v vs =>
    obtain ⟨rfl, rfl⟩ := hvs
    rw [List.forall_mem_cons] at hcopy
    refine .inl ⟨hcopy.1, by simp, ⟨vs, rfl, ?_⟩, m', hfinish, hrep⟩
    rw [(apply_frame hcopy.1 hm).2]
    exact hcopy.2

theorem chain_of_copy (hc : w.copy = some (!activeIdx m.version)) (h : m.apply w = .ok m') :
    m'.active = m.active ∧ m'.version = m.version := by
  obtain ⟨hchain, hversion⟩ := apply_frame hc h
  rw [Bool.not_not] at hchain
  exact ⟨by rw [Mappings.active, hversion, hchain, Mappings.active], hversion⟩

theorem find_congr (hactive : m'.active = m.active) (hversion : m'.version = m.version) (pc : ℕ) :
    m'.find pc = m.find pc := by
  unfold Mappings.find
  rw [hversion]
  apply Loads.run_congr (findLoaded_within pc m.version)
  intro x hx
  apply load_congr _ hx
  have := hactive
  rwa [Mappings.active, Mappings.active, hversion] at this

theorem Good.step {s' : Writing} (h : Good s) (hstep : WriterStep s s') : Good s' := by
  cases hstep with
  | @begin loaded malloc ws idle placed nonempty sorted update =>
    refine ⟨h.1, .inr ?_⟩
    obtain hq | hb := h.2
    · obtain ⟨-, hnone⟩ | ⟨ws', m, hws, happly, hrep, -⟩ :=
        dlFindObjectUpdate1_spec malloc hq.represents placed nonempty sorted
      · rw [update] at hnone
        cases hnone
      · rw [update, Except.ok.injEq, Option.some.injEq] at hws
        subst hws
        exact ⟨dlFindObjectUpdate1_copy update, m, happly, hrep⟩
    · obtain ⟨vs, hvs, -⟩ := hb.stores
      rw [idle] at hvs
      simp at hvs
  | @store w ws m pending apply =>
    obtain hq | hb := h.2
    · rw [hq.pending] at pending
      cases pending
    · obtain ⟨hcopy, -, hbusy⟩ | ⟨rfl, hquiet⟩ := hb.store pending apply
      · have hne : w ≠ .version := by
          rintro rfl
          cases hcopy
        rw [if_neg hne]
        obtain ⟨hactive, hversion⟩ := chain_of_copy hcopy apply
        refine ⟨fun pc => ?_, .inr hbusy⟩
        exact (find_congr hactive hversion pc).trans (h.1 pc)
      · exact hquiet.good

def sharedTable : Shared Writing Addr ℕ where
  version s := s.table.version
  modulus := 2 ^ 64
  load s := s.table.load

theorem findLoaded_counter (pc : ℕ) (s : Writing) :
    (findLoaded pc (sharedTable.counter s)).run (sharedTable.load s) = s.table.find pc := by
  rw [Shared.counter, sharedTable, findLoaded_mod]
  rfl

theorem writer_discipline (pc : ℕ) :
    Discipline sharedTable (findLoaded pc) WriterStep Good fun v => InCopy (activeIdx v) where
  good_writes := fun hs hw => hs.step hw
  version_le := by
    intro s s' hs hw
    cases hw with
    | begin => exact le_rfl
    | @store w ws m pending apply =>
      cases hc : w.copy with
      | some c => exact (apply_frame hc apply).2.ge
      | none =>
        cases w <;> cases hc
        cases apply
        exact Nat.le_succ _
  load_eq := by
    intro s s' hs hw hv x hx
    rw [Shared.counter, sharedTable, activeIdx_mod] at hx
    cases hw with
    | begin => rfl
    | @store w ws m pending apply =>
      obtain hq | hb := hs.2
      · rw [hq.pending] at pending
        cases pending
      · obtain ⟨hcopy, -, -⟩ | ⟨rfl, -⟩ := hb.store pending apply
        · have hchain := (apply_frame hcopy apply).1
          rw [Bool.not_not] at hchain
          exact load_congr hchain hx
        · cases apply
          exact absurd hv (Nat.succ_ne_self _)
  within := findLoaded_within pc
  total := fun hs => ⟨_, (findLoaded_counter pc _).trans (hs.1 pc)⟩

theorem Good.of_writes {q s₀ : Writing} (hq : Quiet q)
    (h : Relation.ReflTransGen WriterStep q s₀) : Good s₀ := by
  induction h with
  | refl => exact hq.good
  | tail _ hw ih => exact ih.step hw

/-- An answer the reader returns is the answer for the objects of a version in use
at some moment since its start, whatever the writer did meanwhile and wherever in
an update it was when the reader started, as long as it has not made `2 ^ 64` updates
since then. -/
theorem reader_answer {pc : ℕ} {q s₀ s : Writing} {past : List Writing} {a : Option Entry}
    (hq : Quiet q) (h₀ : Relation.ReflTransGen WriterStep q s₀)
    (h : History sharedTable (findLoaded pc) WriterStep s₀ s past (.done a))
    (hround : s.table.version < s₀.table.version + 2 ^ 64) :
    ∃ s' ∈ s :: past, a = (s'.objs.find? (·.Contains pc)).map dlFindObjectFromMap := by
  obtain ⟨s', hs', hgood', ha⟩ :=
    answer_of_history (writer_discipline pc) (Good.of_writes hq h₀) h hround
  refine ⟨s', hs', ?_⟩
  rw [findLoaded_counter, hgood'.1 pc] at ha
  exact (Option.some.inj ha).symm

section Example

/-- The writer makes stores while the reader stays where it is. -/
theorem exists_history_of_applyAll {pc : ℕ} {s₀ : Writing} {r : Reader Addr ℕ (Option Entry)}
    {rest vs : List Store} (hne : ∀ w ∈ vs, w ≠ .version) {past : List Writing}
    (h : History sharedTable (findLoaded pc) WriterStep s₀ s past r)
    (hp : s.pending = vs ++ rest) (hm : s.table.applyAll vs = .ok m) :
    ∃ past', History sharedTable (findLoaded pc) WriterStep s₀ ⟨m, rest, s.objs, s.next⟩ past' r := by
  induction vs generalizing s past with
  | nil =>
    cases hm
    obtain ⟨table, pending, objs, next⟩ := s
    cases hp
    exact ⟨past, h⟩
  | cons w vs ih =>
    rw [List.forall_mem_cons] at hne
    obtain ⟨m₁, hw, hvs⟩ := ok_of_bind hm
    have hstep := WriterStep.store hp hw
    rw [if_neg hne.1] at hstep
    exact ih (s := ⟨m₁, vs ++ rest, s.objs, s.next⟩) hne.2 (h.write hstep) rfl hvs

/-- A reader that has loaded the version and the head of a chain with one object walks on
while the writer makes all the stores of the next update but the last. -/
theorem reader_answer_filled : ∃ (q s : Writing) (past : List Writing), Quiet q ∧
    q.objs = [rowObject 0] ∧ s.next = [rowObject 0, rowObject 1] ∧ s.pending = [.version] ∧
    History sharedTable (findLoaded 4) WriterStep q s past
      (.done (some (dlFindObjectFromMap (rowObject 0)))) ∧
    ∃ s' ∈ s :: past, some (dlFindObjectFromMap (rowObject 0)) =
      (s'.objs.find? (·.Contains 4)).map dlFindObjectFromMap := by
  obtain ⟨m, hreached, -⟩ := reached_openRow (m := emptyTable) (i := 0) .start 0
  let q : Writing := ⟨m, [], [rowObject 0], [rowObject 0]⟩
  have hq : Quiet q := ⟨rfl, represents_of_reached initial_emptyTable hreached⟩
  have hplaced : Placed ([rowObject 0] ++ [rowObject 1]) := placed_row 0 2
  obtain ⟨hnone, -⟩ | ⟨ws, m', hws, happly, -⟩ := dlFindObjectUpdate1_spec
    rowMemory hq.represents hplaced (List.cons_ne_nil _ _) (List.pairwise_singleton _ _)
  · cases hnone
  obtain ⟨vs, rfl, hcopy⟩ := dlFindObjectUpdate1_copy hws
  have hne : ∀ w ∈ vs, w ≠ .version := by
    rintro w hw rfl
    cases hcopy _ hw
  rw [applyAll_append] at happly
  obtain ⟨m₁, hm₁, -⟩ := ok_of_bind happly
  obtain ⟨hchain, hversion⟩ := applyAll_frame hcopy hm₁
  -- the first two loads, and then the stores of the writer
  obtain ⟨k, hk⟩ : ∃ k, findLoaded 4 (sharedTable.counter q) =
      .load (.head (activeIdx (sharedTable.counter q))) k := ⟨_, rfl⟩
  have hhead {table : Mappings} (hactive : table.chain (activeIdx m.version) = m.active) (w : ℕ)
      (hw : table.load (.head (activeIdx (sharedTable.counter q))) = some w) :
      m.active.length = w := by
    rw [Shared.counter, sharedTable, activeIdx_mod, Mappings.load, Option.some.injEq] at hw
    rw [← hw, ← hactive]
  have hstart : History sharedTable (findLoaded 4) WriterStep q q [] (.walking _ _) :=
    History.start.read .start
  rw [hk] at hstart
  have hbegin := WriterStep.begin (s := q) rfl hplaced (List.cons_ne_nil _ _)
    (List.pairwise_singleton _ _) hws
  obtain ⟨past, h⟩ := exists_history_of_applyAll hne
    ((hstart.read (.load (hhead rfl))).write hbegin) rfl hm₁
  -- the rest of the walk
  have hsame : sharedTable.counter ⟨m₁, [.version], q.objs, [rowObject 0] ++ [rowObject 1]⟩ =
      sharedTable.counter q := congrArg (· % 2 ^ 64) hversion
  have hrun := (good_of_history (writer_discipline 4) hq.good h _ List.mem_cons_self).1 4
  rw [← findLoaded_counter, hsame, hk] at hrun
  obtain ⟨w, hw, hrest⟩ := Option.bind_eq_some_iff.mp hrun
  rw [Bool.not_not] at hchain
  rw [← hhead hchain w hw] at hrest
  have hdone := (h.walk hrest).read (.accept hsame)
  refine ⟨q, _, past, hq, rfl, rfl, rfl, hdone, reader_answer hq .refl hdone ?_⟩
  rw [hversion]
  exact Nat.lt_add_of_pos_right (by decide)

end Example

end AwaitGlibc.FindObject

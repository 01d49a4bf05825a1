import AwaitGlibc.ThreadTlsInvariant

/-!
# Thread-local storage over whole runs

A run is any interleaving of calls of the loader, thread creations and ends, on new and on
cached stacks, and accesses. In every world that can be reached, each step a thread may
take comes to its end, so no block is freed twice and no entry outside a vector is used,
and an access leads to the block of the object that has the id. The address stays the
same for as long as the thread runs and the slot of the object does not change, which is
as long as the object is loaded. A call of the loader that itself comes to no end, see
`dlopen_failure_reads_past_slots`, is no step of a run.
-/
namespace AwaitGlibc.ThreadTls
open TlsSlots TlsModuleIds

variable {α τ : Type}

def Live (w : World α τ) (m : ℕ) : Prop := 0 < m ∧ ∃ gen l, w.tls.slots[m]? = some ⟨gen, some l⟩

section Runs
variable [DecidableEq α] [DecidableEq τ]

/-- What can happen in a world. Threads access modules that are loaded, and a static block is
allotted where no object has one, to an object no thread has accessed dynamically. -/
def Op.Legal (w : World α τ) : Op α τ → Prop
  | .call c => c.Legal w.tls
  | .allocateStatic l offset => l ∈ w.tls.startup ++ w.tls.loaded ∧ w.offset l = .none ∧
      ∀ l' ∈ w.tls.startup ++ w.tls.loaded, w.offset l' ≠ .static offset
  | .update t m => (w.active t).isSome ∧ Live w m
  | .create t => w.active t = none ∧ w.cached t = none
  | .createCached t old => (w.cached old).isSome ∧ w.active t = none ∧
      (t = old ∨ w.cached t = none)
  | .exit t => (w.active t).isSome
  | .deallocate t => (w.cached t).isSome
  | .access t m => (w.active t).isSome ∧ Live w m

/-- The entry of `m` in the vector of `t` leads to `a`, and the vector is as new as `gen`. -/
def LeadsTo (w : World α τ) (t : τ) (m gen : ℕ) (a : Address τ) : Prop :=
  ∃ d, w.active t = some d ∧ gen ≤ d.counter ∧ m ≤ d.len ∧ (d.entries m).val = .addr a

/-- Threads that go on have their entries for the modules of the moment as they were. -/
def Stays (w w' : World α τ) (op : Op α τ) : Prop :=
  ∀ t m gen l a, w.tls.slots[m]? = some ⟨gen, some l⟩ → op ≠ .exit t →
    LeadsTo w t m gen a → LeadsTo w' t m gen a

/-- A step that comes to its end and does not concern the loader. -/
structure ThreadStep (w w' : World α τ) (op : Op α τ) : Prop where
  exec_eq : exec w op = .ok w'
  good : Good w'
  tls : w'.tls = w.tls
  stays : Stays w w' op

variable {w w' : World α τ}

omit [DecidableEq α] [DecidableEq τ] in
theorem Stays.of_active {op : Op α τ}
    (h : ∀ t d, op ≠ .exit t → w.active t = some d → w'.active t = some d) : Stays w w' op := by
  rintro t m gen l a - hop ⟨d, hd, hrest⟩
  exact ⟨d, h t d hop hd, hrest⟩

section Steps
variable {w : World α τ} {t old : τ} {m : ℕ}

section
variable (h : Good w)
include h

theorem exec_allocateStatic {l : α} {offset : ℕ}
    (hlegal : (Op.allocateStatic l offset : Op α τ).Legal w) :
    ∃ w', ThreadStep w w' (.allocateStatic l offset) := by
  obtain ⟨hl, hoff, hfree⟩ := hlegal
  obtain ⟨gen, hslot⟩ := exists_slot_of_holder (h.numbered.held l hl)
  refine ⟨_, ?_, h.allocateStatic hl hoff hfree hslot, rfl, Stays.of_active fun _ _ _ hd => hd⟩
  rw [exec, slotAt_of_some hslot]
  rfl

theorem exec_update (hlegal : (Op.update t m : Op α τ).Legal w) :
    ∃ w', ThreadStep w w' (.update t m) := by
  obtain ⟨hactive, hm, gen, l, hslot⟩ := hlegal
  obtain ⟨d, hd⟩ := Option.isSome_iff_exists.mp hactive
  obtain ⟨x, hupdate, hx⟩ := updateSlotinfo_spec h hd hm hslot
  refine ⟨w.setThread t x.dtv x.heap, ?_, hx.good, rfl, ?_⟩
  · simp only [exec, hd, hupdate]
    rfl
  · rintro t' m' gen' l' a hslot' - ⟨d', hd', hgen, hlen, ha⟩
    by_cases heq : t' = t
    · subst heq
      rw [hd] at hd'
      cases hd'
      refine ⟨x.dtv, active_setThread, hgen.trans hx.counter, hlen.trans hx.len, ?_⟩
      rw [hx.kept m' _ hslot' hgen hlen, ha]
    · exact ⟨d', by simpa [World.setThread, heq] using hd', hgen, hlen, ha⟩

theorem exec_create (hlegal : (Op.create t : Op α τ).Legal w) :
    ∃ w', ThreadStep w w' (.create t) := by
  obtain ⟨w', hrun, hgood, htls, -, hothers⟩ :=
    h.create (d := Dtv.allocate w.tls.maxDtvIdx) hlegal.1 hlegal.2 fun _ => rfl
  refine ⟨w', hrun, hgood, htls, Stays.of_active fun t' d _ hd => ?_⟩
  rw [hothers t', hd]
  rintro rfl
  rw [hlegal.1] at hd
  cases hd

theorem exec_createCached (hlegal : (Op.createCached t old : Op α τ).Legal w) :
    ∃ w', ThreadStep w w' (.createCached t old) := by
  obtain ⟨hcached, hactive, ht⟩ := hlegal
  obtain ⟨d, hd⟩ := Option.isSome_iff_exists.mp hcached
  obtain ⟨heap, hfree, hby⟩ := freeEntries_spec (h.cachedHolds old d hd)
  have hfresh : Function.update w.cached old none t = none := by
    by_cases heq : t = old
    · rw [heq, Function.update_self]
    · rw [Function.update_of_ne heq]
      exact ht.resolve_left heq
  obtain ⟨w', hrun, hgood, htls, -, hothers⟩ := (h.uncache hd hby).create
    (d := ⟨0, d.len, fun _ => Entry.zero⟩) hactive hfresh fun _ => rfl
  refine ⟨w', ?_, hgood, htls, Stays.of_active fun t' d' _ hd' => ?_⟩
  · simp only [exec, hd, hfree]
    exact hrun
  · rw [hothers t']
    · exact hd'
    · rintro rfl
      rw [hactive] at hd'
      cases hd'

theorem exec_exit (hlegal : (Op.exit t : Op α τ).Legal w) : ∃ w', ThreadStep w w' (.exit t) := by
  obtain ⟨d, hd⟩ := Option.isSome_iff_exists.mp hlegal
  refine ⟨_, rfl, h.exit hd, rfl, Stays.of_active fun t' d' hop hd' => ?_⟩
  have hne : t' ≠ t := by
    rintro rfl
    exact hop rfl
  change Function.update w.active t none t' = some d'
  rwa [Function.update_of_ne hne]

theorem exec_deallocate (hlegal : (Op.deallocate t : Op α τ).Legal w) :
    ∃ w', ThreadStep w w' (.deallocate t) := by
  obtain ⟨d, hd⟩ := Option.isSome_iff_exists.mp hlegal
  obtain ⟨heap, hfree, hby⟩ := freeEntries_spec (h.cachedHolds t d hd)
  refine ⟨_, ?_, h.uncache hd hby, rfl, Stays.of_active fun _ _ _ hd' => hd'⟩
  simp only [exec, hd, hfree]
  rfl

theorem exec_access (hlegal : (Op.access t m : Op α τ).Legal w) :
    ∃ w', ThreadStep w w' (.access t m) := by
  obtain ⟨hactive, hm, gen, l, hslot⟩ := hlegal
  obtain ⟨d, hd⟩ := Option.isSome_iff_exists.mp hactive
  obtain ⟨w', a, x, hrun, hx, hacc⟩ := tlsGetAddr_spec h hd hm hslot
  refine ⟨w', ?_, hacc.good, hacc.tls, ?_⟩
  · simp only [exec, hrun]
    rfl
  · rintro t' m' gen' l' a' hslot' - ⟨d', hd', hgen, hlen, ha⟩
    by_cases heq : t' = t
    · subst heq
      rw [hd] at hd'
      cases hd'
      obtain ⟨d', hd', hcounter, hlen', -, hentry, hother⟩ := hacc.dtv
      have hval : (x.dtv.entries m').val = .addr a' := by
        rw [hx.kept m' _ hslot' hgen hlen, ha]
      refine ⟨d', hd', hcounter ▸ hgen.trans hx.counter, hlen' ▸ hlen.trans hx.len, ?_⟩
      by_cases hm' : m' = m
      · subst hm'
        rw [hentry, hacc.same a' hval]
      · rw [hother m' hm', hval]
    · exact ⟨d', by rw [hacc.others t' heq, hd'], hgen, hlen, ha⟩

/-- The steps that are not calls of the loader come to their end. -/
theorem exec_progress {op : Op α τ} (hlegal : op.Legal w)
    (hop : ∀ c, op ≠ .call c) : ∃ w', ThreadStep w w' op := by
  cases op with
  | call c => exact absurd rfl (hop c)
  | allocateStatic l offset => exact exec_allocateStatic h hlegal
  | update t m => exact exec_update h hlegal
  | create t => exact exec_create h hlegal
  | createCached t old => exact exec_createCached h hlegal
  | exit t => exact exec_exit h hlegal
  | deallocate t => exact exec_deallocate h hlegal
  | access t m => exact exec_access h hlegal

end

end Steps

structure SlotStep (s s' : State α) : Prop where
  generation : s.generation ≤ s'.generation
  size : s.size ≤ s'.size
  slots : ∀ (i : ℕ) (slot : Slot α), s'.slots[i]? = some slot → s.slots[i]? = some slot ∨
    s.generation < slot.gen ∨ s.size ≤ i

theorem exec_ok (h : Good w) {op : Op α τ} (hlegal : op.Legal w) (hrun : exec w op = .ok w') :
    Good w' ∧ SlotStep w.tls w'.tls ∧ Stays w w' op := by
  by_cases hop : ∃ c, op = .call c
  · obtain ⟨c, rfl⟩ := hop
    rw [exec] at hrun
    cases hstep : step w.tls c with
    | error stop =>
      rw [hstep] at hrun
      cases hrun
    | ok s =>
      rw [hstep] at hrun
      cases hrun
      have hs := loaderStep_of_ok h.numbered hlegal hstep
      refine ⟨h.loaderStep hs, ⟨hs.generation, hs.size, fun i slot hslot => ?_⟩,
        Stays.of_active fun _ _ _ hd => hd⟩
      rcases hs.slots i slot hslot with hold | ⟨hnew, -⟩ | ⟨hout, -⟩
      · exact Or.inl hold
      · exact Or.inr (Or.inl (by omega))
      · exact Or.inr (Or.inr hout)
  · obtain ⟨w₁, hw₁⟩ := exec_progress h hlegal fun c hc => hop ⟨c, hc⟩
    have heq := hw₁.exec_eq
    rw [hrun] at heq
    cases heq
    rw [hw₁.tls]
    exact ⟨hw₁.good, ⟨le_rfl, le_rfl, fun _ _ hslot => Or.inl hslot⟩, hw₁.stays⟩

/-- Runs from one world to another, the last step at the end. -/
inductive Run (w : World α τ) : List (Op α τ) → World α τ → Prop
  | nil : Run w [] w
  | snoc {ops : List (Op α τ)} {w' w'' : World α τ} (op : Op α τ) (hrun : Run w ops w')
      (hlegal : op.Legal w') (hexec : exec w' op = .ok w'') : Run w (ops ++ [op]) w''

theorem Run.good {ops : List (Op α τ)} (hrun : Run w ops w') (h : Good w) :
    Good w' ∧ w.tls.generation ≤ w'.tls.generation ∧ w.tls.size ≤ w'.tls.size := by
  induction hrun with
  | nil => exact ⟨h, le_rfl, le_rfl⟩
  | snoc op _ hlegal hexec ih =>
    obtain ⟨hgood, hgen, hsize⟩ := ih
    obtain ⟨hgood', hstep, -⟩ := exec_ok hgood hlegal hexec
    exact ⟨hgood', hgen.trans hstep.generation, hsize.trans hstep.size⟩

/-- While the thread goes on and the slot of the module stays what it is, the entry leads
where it led. A slot that changed and was changed back would have another generation. -/
theorem Run.leadsTo {ops : List (Op α τ)} (hrun : Run w ops w') (h : Good w) {t : τ} {m gen : ℕ}
    {l : α} {a : Address τ} (hslot : w.tls.slots[m]? = some ⟨gen, some l⟩)
    (ha : LeadsTo w t m gen a) (hexit : .exit t ∉ ops)
    (hslot' : w'.tls.slots[m]? = some ⟨gen, some l⟩) : LeadsTo w' t m gen a := by
  induction hrun with
  | nil => exact ha
  | snoc op hrun hlegal hexec ih =>
    rename_i ops w₁ w₂
    rw [List.mem_append, List.mem_singleton, not_or] at hexit
    obtain ⟨hgood, hgen, hsize⟩ := hrun.good h
    obtain ⟨-, hstep, hstays⟩ := exec_ok hgood hlegal hexec
    have hold : w₁.tls.slots[m]? = some ⟨gen, some l⟩ := by
      have hle := h.gens m _ hslot
      have hlt : m < w.tls.size := (List.getElem?_eq_some_iff.mp hslot).1
      rcases hstep.slots m _ hslot' with hold | hnew | hout
      · exact hold
      · change w₁.tls.generation < gen at hnew
        change gen ≤ w.tls.generation at hle
        omega
      · omega
    exact hstays t m gen l a hold (Ne.symm hexit.2) (ih hexit.1 hold)

/-- The world at the start of the program: the objects of the start-up have static blocks at
different offsets, and there is no thread yet. -/
def startWorld (s : State α) (offsets : α → ℕ) : World α τ where
  tls := s
  offset l := if l ∈ s.startup then .static (offsets l) else .none
  active _ := none
  cached _ := none
  heap := ⟨[], []⟩
  image _ _ := none

omit [DecidableEq τ] in
theorem good_startWorld {objects : List α} (hnodup : objects.Nodup) {s : State α}
    (hstart : start objects = .ok s) {offsets : α → ℕ}
    (hoffsets : ∀ l ∈ objects, ∀ l' ∈ objects, offsets l = offsets l' → l = l') :
    Good (startWorld s offsets : World α τ) := by
  obtain ⟨s', hstart', hnum, hstartup, hloaded, hgens⟩ := start_spec objects hnodup
  rw [hstart] at hstart'
  cases hstart'
  refine ⟨hnum, hgens, ?_, fun _ => Or.inl rfl, nofun, nofun, nofun, nofun, nofun, nofun⟩
  intro l hl l' hl' offset h₁ h₂
  change l ∈ s.startup ++ s.loaded at hl
  change l' ∈ s.startup ++ s.loaded at hl'
  change (if l ∈ s.startup then Offset.static (offsets l) else .none) = _ at h₁
  change (if l' ∈ s.startup then Offset.static (offsets l') else .none) = _ at h₂
  rw [hloaded, List.append_nil] at hl hl'
  rw [if_pos hl] at h₁
  rw [if_pos hl'] at h₂
  rw [hstartup] at hl hl'
  exact hoffsets l hl l' hl' (Offset.static.inj (h₁.trans h₂.symm))

/-- In every world a program can reach, every step of a thread comes to its end, and
`__tls_get_addr` of a loaded module leads into a block of the calling thread and of the
object that has the id, initialised from its image. Later accesses lead to the same block
until the thread ends or the object is unloaded. -/
theorem tlsGetAddr_never_stale (objects : List α) (hnodup : objects.Nodup) (offsets : α → ℕ)
    (hoffsets : ∀ l ∈ objects, ∀ l' ∈ objects, offsets l = offsets l' → l = l') (s : State α)
    (hstart : start objects = .ok s) (ops : List (Op α τ)) (w : World α τ)
    (hrun : Run (startWorld s offsets) ops w) :
    (∀ op : Op α τ, op.Legal w → (∀ c, op ≠ .call c) → ∃ w', exec w op = .ok w') ∧
    ∀ t m, (w.active t).isSome → Live w m → ∃ w' a, tlsGetAddr w t m = .ok (w', .addr a) ∧
      w'.tls = w.tls ∧ Belongs w' t m a ∧
      ∀ ops' w'', Run w' ops' w'' → .exit t ∉ ops' →
        w''.tls.slots[m]? = w.tls.slots[m]? → ∃ w₃, tlsGetAddr w'' t m = .ok (w₃, .addr a) := by
  obtain ⟨h, -⟩ := hrun.good (good_startWorld hnodup hstart hoffsets)
  refine ⟨fun op hlegal hop => ?_, ?_⟩
  · obtain ⟨w', hw'⟩ := exec_progress h hlegal hop
    exact ⟨w', hw'.exec_eq⟩
  · rintro t m hactive ⟨hm, gen, l, hslot⟩
    obtain ⟨d, hd⟩ := Option.isSome_iff_exists.mp hactive
    obtain ⟨w', a, x, haccess, hx, hacc⟩ := tlsGetAddr_spec h hd hm hslot
    refine ⟨w', a, haccess, hacc.tls, hacc.belongs, fun ops' w'' hrun' hexit hsame => ?_⟩
    obtain ⟨d', hd', hcounter, -, hlen', hentry, -⟩ := hacc.dtv
    have hslot' : w'.tls.slots[m]? = some ⟨gen, some l⟩ := by rw [hacc.tls, hslot]
    rw [hslot] at hsame
    obtain ⟨d'', hd'', hgen, hlen, ha⟩ := hrun'.leadsTo hacc.good hslot'
      ⟨d', hd', hcounter ▸ hx.reached, hlen', hentry⟩ hexit hsame
    obtain ⟨w₃, a', x', haccess', hx', hacc'⟩ :=
      tlsGetAddr_spec (hrun'.good hacc.good).1 hd'' hm hsame
    refine ⟨w₃, ?_⟩
    rw [haccess', hacc'.same a (by rw [hx'.kept m _ hsame hgen hlen, ha])]

/-- The vector of `t` is up to date for the loaded module `m` and leads to `a`. -/
def Uses (w : World α τ) (t : τ) (m : ℕ) (a : Address τ) : Prop :=
  0 < m ∧ ∃ gen l, w.tls.slots[m]? = some ⟨gen, some l⟩ ∧ LeadsTo w t m gen a

/-- In no world that can be reached do two threads or two modules share a block. -/
theorem addresses_unshared (objects : List α) (hnodup : objects.Nodup) (offsets : α → ℕ)
    (hoffsets : ∀ l ∈ objects, ∀ l' ∈ objects, offsets l = offsets l' → l = l') (s : State α)
    (hstart : start objects = .ok s) (ops : List (Op α τ)) (w : World α τ)
    (hrun : Run (startWorld s offsets) ops w) (t t' : τ) (m m' : ℕ) (a : Address τ)
    (h : Uses w t m a) (h' : Uses w t' m' a) : t = t' ∧ m = m' := by
  obtain ⟨hgood, -⟩ := hrun.good (good_startWorld hnodup hstart hoffsets)
  have hbelongs {t : τ} {m : ℕ} (h : Uses w t m a) : Belongs w t m a := by
    obtain ⟨hm, gen, l, hslot, d, hd, hgen, -, ha⟩ := h
    exact hgood.belongs hd hm hslot hgen ha
  have hb := hbelongs h
  have hb' := hbelongs h'
  cases a with
  | dynamic b =>
    obtain ⟨l, gen, -, hblock, -⟩ := hb
    obtain ⟨l', gen', -, hblock', -⟩ := hb'
    cases hblock.symm.trans hblock'
    exact ⟨rfl, rfl⟩
  | static t₀ offset =>
    obtain ⟨rfl, l, gen, hslot, -, himage⟩ := hb
    obtain ⟨rfl, l', gen', hslot', -, himage'⟩ := hb'
    cases himage.symm.trans himage'
    exact ⟨rfl, (hgood.live h.1 hslot).2.symm.trans (hgood.live h'.1 hslot').2⟩

end Runs

/-- A thread is created, an object is loaded, and the thread accesses it. -/
theorem tlsGetAddr_never_stale_loaded :
    ∃ (s : State ℕ) (w : World ℕ ℕ) (m : ℕ), start [0] = .ok s ∧
      Run (startWorld s id) [.create 7, .call (.dlopen [1] [1])] w ∧ Live w m ∧
      ∃ w' a, tlsGetAddr w 7 m = .ok (w', .addr a) ∧ Belongs w' 7 m a := by
  obtain ⟨s, hstart, hnum, hstartup, hloaded, -⟩ := start_spec [0] (by decide)
  have hgood : Good (startWorld s id : World ℕ ℕ) :=
    good_startWorld (by decide) hstart fun _ _ _ _ heq => heq
  have hcreate : (Op.create 7 : Op ℕ ℕ).Legal (startWorld s id) := ⟨rfl, rfl⟩
  obtain ⟨w₁, hexec₁, -, htls, hactive, -⟩ :=
    hgood.create (t := 7) (d := Dtv.allocate s.maxDtvIdx) rfl rfl fun _ => rfl
  have htls : w₁.tls = s := htls
  have hlegal : (Call.dlopen [1] [1]).Legal w₁.tls := by
    refine ⟨by decide, ?_, List.Perm.refl _⟩
    rw [htls, hstartup, hloaded]
    decide
  obtain ⟨s₂, hstep⟩ := step_progress (htls ▸ hnum) hlegal (Or.inr rfl)
  obtain ⟨hnum₂, hloaded₂, -, -⟩ := dlopen_ok (htls ▸ hnum) hlegal hstep
  let w₂ : World ℕ ℕ := { w₁ with
    tls := s₂
    offset := fun l => if l ∈ Call.mapped (Call.dlopen [1] [1]) then .none else w₁.offset l }
  have hexec₂ : exec w₁ (.call (.dlopen [1] [1])) = .ok w₂ := by
    rw [exec, hstep]
  have hrun : Run (startWorld s id) [.create 7, .call (.dlopen [1] [1])] w₂ :=
    .snoc _ (.snoc _ .nil hcreate hexec₁) hlegal hexec₂
  have hmem : 1 ∈ s₂.loaded := by
    rw [hloaded₂]
    simp
  have hlive : Live w₂ (s₂.modid 1) := by
    obtain ⟨gen, hslot⟩ := exists_slot_of_holder (hnum₂.held 1 (List.mem_append_right _ hmem))
    exact ⟨Nat.zero_lt_of_lt (hnum₂.modid_above 1 (List.mem_append_left _ hmem)), gen, 1, hslot⟩
  obtain ⟨w', a, haccess, -, hbelongs, -⟩ := (tlsGetAddr_never_stale [0] (by decide) id
    (fun _ _ _ _ heq => heq) s hstart _ w₂ hrun).2 7 (s₂.modid 1) hactive hlive
  exact ⟨s, w₂, s₂.modid 1, hstart, hrun, hlive, w', a, haccess, hbelongs⟩

/-- Two threads access a library that was opened after they had been created; each gets a
block of its own. -/
theorem addresses_unshared_loaded :
    ∃ (s : State ℕ) (w : World ℕ ℕ), start [0] = .ok s ∧
      Run (startWorld s id)
        [.create 7, .create 8, .call (.dlopen [1] [1]), .access 7 2, .access 8 2] w ∧
      Uses w 7 2 (.dynamic 0) ∧ Uses w 8 2 (.dynamic 1) ∧ ¬ Uses w 8 2 (.dynamic 0) := by
  let s : { s : State ℕ // start [0] = .ok s } := ⟨_, rfl⟩
  have h₁ := Run.snoc (.create 7) (.nil (w := (startWorld s.1 id : World ℕ ℕ))) ⟨rfl, rfl⟩ rfl
  have h₂ := Run.snoc (.create 8) h₁ ⟨rfl, rfl⟩ rfl
  have h₃ := Run.snoc (.call (.dlopen [1] [1])) h₂ ⟨by decide, by decide, .refl _⟩ rfl
  have h₄ := Run.snoc (.access 7 2) h₃ ⟨rfl, by decide, _, _, rfl⟩ rfl
  have hrun := Run.snoc (.access 8 2) h₄ ⟨rfl, by decide, _, _, rfl⟩ rfl
  suffices huses : Uses _ 7 2 (.dynamic 0) ∧ Uses _ 8 2 (.dynamic 1) from
    ⟨s, _, s.2, hrun, huses.1, huses.2, fun hother => absurd
      (addresses_unshared [0] (by decide) id (fun _ _ _ _ h => h) _ s.2 _ _ hrun _ _ _ _ _ huses.1
        hother).1 (by decide)⟩
  exact ⟨⟨by decide, _, _, rfl, _, rfl, by decide, by decide, rfl⟩,
    by decide, _, _, rfl, _, rfl, by decide, by decide, rfl⟩

end AwaitGlibc.ThreadTls

import AwaitGlibc.ThreadTlsUpdate

/-!
# The invariant of the thread vectors

The invariant says which entries of a vector can be relied on: those of modules that are
not newer than the vector's counter. Such an entry is unallocated or leads to the block of
the object that has the id now. Any other entry may be left over from an object that had
the id before, but it is reset before it is read, and what it refers to is freed then.
-/
namespace AwaitGlibc.ThreadTls
open TlsSlots TlsModuleIds

variable {α τ : Type}

/-- An entry that is up to date with the object `l`, loaded in generation `gen`. -/
def Current (w : World α τ) (t : τ) (m : ℕ) (l : α) (gen : ℕ) (e : Entry τ) : Prop :=
  e = ⟨.unallocated, none⟩ ∨
    (∃ b, e = ⟨.addr (.dynamic b), some b⟩ ∧ w.heap.blocks[b]? = some ⟨t, m, l, gen⟩ ∧
      w.offset l = .forcedDynamic) ∨
    ∃ offset, e = ⟨.addr (.static t offset), none⟩ ∧ w.offset l = .static offset

def Heap.Extends (heap heap' : Heap α τ) : Prop :=
  ∀ (b : ℕ) (block : Block α τ), heap.blocks[b]? = some block → heap'.blocks[b]? = some block

theorem FreedBy.extends {heap heap' : Heap α τ} {t : τ} (h : FreedBy heap heap' t) :
    heap.Extends heap' := by
  intro b block hb
  rw [h.blocks, hb]

theorem FreedBy.freed_lt {heap heap' : Heap α τ} {t : τ} (h : FreedBy heap heap' t)
    (hlt : ∀ b ∈ heap.freed, b < heap.blocks.length) : ∀ b ∈ heap'.freed, b < heap'.blocks.length := by
  intro b hb
  rw [h.blocks]
  rcases h.freed b hb with hb | ⟨block, hblock, -⟩
  · exact hlt b hb
  · exact (List.getElem?_eq_some_iff.mp hblock).1

section Current
variable {w w' : World α τ} {t : τ} {m gen : ℕ} {l : α} {e : Entry τ}

theorem Current.mono (h : Current w t m l gen e) (hblocks : w.heap.Extends w'.heap)
    (hoff : w'.offset l = w.offset l) : Current w' t m l gen e := by
  rcases h with h | ⟨b, h, hblock, hl⟩ | ⟨offset, h, hl⟩
  · exact Or.inl h
  · exact Or.inr (Or.inl ⟨b, h, hblocks b _ hblock, hoff.trans hl⟩)
  · exact Or.inr (Or.inr ⟨offset, h, hoff.trans hl⟩)

theorem Current.unallocated (h : Current w t m l gen e) (hoff : w.offset l = .none) :
    e = ⟨.unallocated, none⟩ := by
  rcases h with h | ⟨_, -, -, hl⟩ | ⟨_, -, hl⟩
  · exact h
  · cases hoff.symm.trans hl
  · cases hoff.symm.trans hl

/-- Only an entry without a block can belong to an object whose kind of block is open, so
the decision leaves every entry current. -/
theorem Current.decided {o : α} (h : Current w t m l gen e) (ho : w.offset o = .none)
    (hblocks : w.heap.Extends w'.heap) (hother : ∀ l ≠ o, w'.offset l = w.offset l) :
    Current w' t m l gen e := by
  by_cases heq : l = o
  · subst heq
    exact Or.inl (h.unallocated ho)
  · exact h.mono hblocks (hother l heq)

end Current

structure Good (w : World α τ) : Prop where
  numbered : Numbered w.tls []
  gens : ∀ (i : ℕ) (slot : Slot α), w.tls.slots[i]? = some slot → slot.gen ≤ w.tls.generation
  apart : Apart w
  exclusive : ∀ t, w.active t = none ∨ w.cached t = none
  counter : ∀ t d, w.active t = some d → d.counter ≤ w.tls.generation
  current : ∀ t d, w.active t = some d → ∀ m l gen, 0 < m →
    w.tls.slots[m]? = some ⟨gen, some l⟩ → gen ≤ d.counter →
    m ≤ d.len ∧ Current w t m l gen (d.entries m)
  holds : ∀ t d, w.active t = some d → Holds w.heap t d
  cachedHolds : ∀ t d, w.cached t = some d → Holds w.heap t d
  freed : ∀ b ∈ w.heap.freed, b < w.heap.blocks.length
  statics : ∀ t d, w.active t = some d → ∀ m l gen offset, 0 < m →
    w.tls.slots[m]? = some ⟨gen, some l⟩ → w.offset l = .static offset →
    w.image t offset = some (l, gen)

theorem Good.live {w : World α τ} (h : Good w) {m gen : ℕ} {l : α} (hm : 0 < m)
    (hslot : w.tls.slots[m]? = some ⟨gen, some l⟩) :
    l ∈ w.tls.startup ++ w.tls.loaded ∧ w.tls.modid l = m := by
  have := h.numbered.holder_modid m l hm (by simp [holder, hslot])
  rwa [List.append_nil] at this

/-! ## Loading and unloading -/

/-- Everything a call of the loader can do to ids and slots. -/
structure LoaderStep (s s' : State α) (mapped : List α) : Prop where
  numbered : Numbered s' []
  generation : s.generation ≤ s'.generation
  size : s.size ≤ s'.size
  slots : ∀ (i : ℕ) (slot : Slot α), s'.slots[i]? = some slot → s.slots[i]? = some slot ∨
    (slot.gen = s.generation + 1 ∧ s.generation < s'.generation) ∨
    (s.size ≤ i ∧ slot = Slot.empty)
  kept : Kept s s'
  objects : ∀ l ∈ s'.startup ++ s'.loaded, l ∈ s.startup ++ s.loaded ∨ l ∈ mapped
  new : ∀ l ∈ mapped, l ∉ s.startup ++ s.loaded

theorem LoaderStep.of_changed {s s' : State α} {objects mapped : List α} (hnum : Numbered s' [])
    (hchanged : Changed s s' objects) (hkept : Kept s s')
    (hobjects : ∀ l ∈ s'.loaded, l ∈ s.loaded ∨ l ∈ mapped)
    (hnew : ∀ l ∈ mapped, l ∉ s.startup ∧ l ∉ s.loaded) : LoaderStep s s' mapped := by
  have hgen := hchanged.generation
  refine ⟨hnum, ?_, hchanged.size, ?_, hkept, ?_, ?_⟩
  · rw [hgen]
    split <;> omega
  · intro i slot hslot
    rcases hchanged.slots i slot hslot with hold | ⟨hne, hslotgen⟩ | hempty
    · exact Or.inl hold
    · rw [if_neg (by simpa using hne)] at hgen
      exact Or.inr (Or.inl ⟨hslotgen, by omega⟩)
    · exact Or.inr (Or.inr hempty)
  · intro l hl
    rw [List.mem_append, hchanged.startup] at hl
    rw [List.mem_append]
    rcases hl with hl | hl
    · exact Or.inl (Or.inl hl)
    · rcases hobjects l hl with hl | hl
      · exact Or.inl (Or.inr hl)
      · exact Or.inr hl
  · intro l hl
    rw [List.mem_append, not_or]
    exact hnew l hl

theorem loaderStep_of_ok [DecidableEq α] {s s' : State α} (h : Numbered s []) {c : Call α}
    (hlegal : c.Legal s) (hrun : step s c = .ok s') : LoaderStep s s' (Call.mapped c) := by
  cases c with
  | dlopen loads order =>
    obtain ⟨hnum, hloaded, hchanged, hkept⟩ := dlopen_ok h hlegal hrun
    refine .of_changed hnum hchanged hkept ?_ hlegal.2.1
    intro l hl
    rw [hloaded, List.mem_append] at hl
    exact hl
  | dlopenFails loads order resized closing =>
    obtain ⟨hnum, hloaded, hchanged, hkept⟩ := dlopenFails_ok h hlegal hrun
    refine .of_changed hnum hchanged hkept ?_ hlegal.2.1
    intro l hl
    rw [hloaded] at hl
    exact Or.inl hl
  | dlclose closing =>
    obtain ⟨hnum, hloaded, hchanged, hkept⟩ := dlclose_ok h hlegal hrun
    refine .of_changed hnum hchanged hkept ?_ (by simp [Call.mapped])
    intro l hl
    rw [hloaded] at hl
    exact Or.inl (List.mem_filter.mp hl).1

/-- No vector is touched, and none needs to be: what changes gets a generation that no
counter has reached. -/
theorem Good.loaderStep [DecidableEq α] {w : World α τ} (h : Good w) {s' : State α}
    {mapped : List α} (hs : LoaderStep w.tls s' mapped) :
    Good { w with
      tls := s'
      offset := fun l => if l ∈ mapped then .none else w.offset l } := by
  have hold : ∀ (m gen : ℕ) (l : α), s'.slots[m]? = some ⟨gen, some l⟩ → gen ≤ w.tls.generation →
      w.tls.slots[m]? = some ⟨gen, some l⟩ := by
    intro m gen l hslot hgen
    rcases hs.slots m _ hslot with hold | ⟨hnew, -⟩ | ⟨-, hempty⟩
    · exact hold
    · change gen = _ at hnew
      omega
    · cases hempty
  have hoffset : ∀ l, l ∈ w.tls.startup ++ w.tls.loaded →
      (if l ∈ mapped then Offset.none else w.offset l) = w.offset l :=
    fun l hl => if_neg fun hmem => hs.new l hmem hl
  have hstatic : ∀ l offset, (if l ∈ mapped then Offset.none else w.offset l) = .static offset →
      l ∉ mapped ∧ w.offset l = .static offset := by
    intro l offset hoff
    split at hoff
    · cases hoff
    · exact ⟨‹_›, hoff⟩
  refine ⟨hs.numbered, ?_, ?_, h.exclusive, ?_, ?_, h.holds, h.cachedHolds, h.freed, ?_⟩
  · intro i slot hslot
    change slot.gen ≤ s'.generation
    rcases hs.slots i slot hslot with hold | ⟨hnew, hlt⟩ | ⟨-, rfl⟩
    · exact (h.gens i slot hold).trans hs.generation
    · omega
    · exact Nat.zero_le _
  · intro l hl l' hl' offset hoff hoff'
    obtain ⟨hmem, hoff⟩ := hstatic l offset hoff
    obtain ⟨hmem', hoff'⟩ := hstatic l' offset hoff'
    exact h.apart l ((hs.objects l hl).resolve_right hmem) l'
      ((hs.objects l' hl').resolve_right hmem') offset hoff hoff'
  · intro t d hd
    exact (h.counter t d hd).trans hs.generation
  · intro t d hd m l gen hm hslot hgen
    have hslot₀ := hold m gen l hslot (hgen.trans (h.counter t d hd))
    obtain ⟨hlen, hcurrent⟩ := h.current t d hd m l gen hm hslot₀ hgen
    exact ⟨hlen, hcurrent.mono (fun _ _ hb => hb) (hoffset l (h.live hm hslot₀).1)⟩
  · intro t d hd m l gen offset hm hslot hoff
    obtain ⟨hmem, hoff⟩ := hstatic l offset hoff
    obtain ⟨hl, hid⟩ := hs.numbered.holder_modid m l hm (by
      simp [holder, show s'.slots[m]? = some ⟨gen, some l⟩ from hslot])
    rw [List.append_nil] at hl
    obtain ⟨hid', hkept⟩ := hs.kept l ((hs.objects l hl).resolve_right hmem) hl
    rw [← hid', hid] at hkept
    refine h.statics t d hd m l gen offset hm ?_ hoff
    rw [← hkept]
    exact hslot

/-! ## Changes to one vector -/

section Threads
variable [DecidableEq τ] {w : World α τ} {t : τ} {d d' : Dtv τ} {heap : Heap α τ}

theorem setThread_setThread (d₁ d₂ : Dtv τ) (heap₁ heap₂ : Heap α τ) :
    (w.setThread t d₁ heap₁).setThread t d₂ heap₂ = w.setThread t d₂ heap₂ := by
  simp [World.setThread]

omit [DecidableEq τ] in
theorem Owned.mono {heap' : Heap α τ} {i b : ℕ} (h : Owned heap t i b)
    (hblocks : heap.Extends heap') (hfreed : heap'.freed = heap.freed) : Owned heap' t i b := by
  obtain ⟨block, hblock, hthread, hmodid, hnot⟩ := h
  exact ⟨block, hblocks b block hblock, hthread, hmodid, hfreed ▸ hnot⟩

theorem update_cases {active : τ → Option (Dtv τ)} {t' : τ} {e : Dtv τ}
    (h : Function.update active t (some d) t' = some e) :
    (t' = t ∧ e = d) ∨ (t' ≠ t ∧ active t' = some e) := by
  by_cases heq : t' = t
  · subst heq
    rw [Function.update_self] at h
    exact Or.inl ⟨rfl, (Option.some.inj h).symm⟩
  · rw [Function.update_of_ne heq] at h
    exact Or.inr ⟨heq, h⟩

theorem Good.setThread (h : Good w) (hd : w.active t = some d)
    (hcounter : d'.counter ≤ w.tls.generation) (hblocks : w.heap.Extends heap)
    (hfreed : ∀ b ∈ heap.freed, b < heap.blocks.length)
    (howned : ∀ t' i b, t' ≠ t → Owned w.heap t' i b → Owned heap t' i b)
    (hholds : Holds heap t d')
    (hcurrent : ∀ m l gen, 0 < m → w.tls.slots[m]? = some ⟨gen, some l⟩ → gen ≤ d'.counter →
      m ≤ d'.len ∧ Current { w with heap := heap } t m l gen (d'.entries m)) :
    Good (w.setThread t d' heap) := by
  have hcached : w.cached t = none := by
    rcases h.exclusive t with hnone | hnone
    · rw [hd] at hnone
      cases hnone
    · exact hnone
  refine ⟨h.numbered, h.gens, h.apart, ?_, ?_, ?_, ?_, ?_, hfreed, ?_⟩
  · intro t'
    by_cases heq : t' = t
    · exact Or.inr (heq ▸ hcached)
    · simp only [World.setThread, Function.update_of_ne heq]
      exact h.exclusive t'
  · intro t' e he
    rcases update_cases he with ⟨rfl, rfl⟩ | ⟨-, he⟩
    · exact hcounter
    · exact h.counter t' e he
  · intro t' e he m l gen hm hslot hgen
    rcases update_cases he with ⟨rfl, rfl⟩ | ⟨-, he⟩
    · exact hcurrent m l gen hm hslot hgen
    · obtain ⟨hlen, hentry⟩ := h.current t' e he m l gen hm hslot hgen
      exact ⟨hlen, hentry.mono hblocks rfl⟩
  · intro t' e he i hi hlen b hb
    rcases update_cases he with ⟨rfl, rfl⟩ | ⟨hne, he⟩
    · exact hholds i hi hlen b hb
    · exact howned t' i b hne (h.holds t' e he i hi hlen b hb)
  · intro t' e he i hi hlen b hb
    have hne : t' ≠ t := by
      rintro rfl
      rw [show w.cached t' = some e from he] at hcached
      cases hcached
    exact howned t' i b hne (h.cachedHolds t' e he i hi hlen b hb)
  · intro t' e he m l gen offset hm hslot hoff
    rcases update_cases he with ⟨rfl, rfl⟩ | ⟨-, he⟩
    · exact h.statics t' d hd m l gen offset hm hslot hoff
    · exact h.statics t' e he m l gen offset hm hslot hoff

theorem setThread_self (hd : w.active t = some d) : w.setThread t d w.heap = w := by
  rw [World.setThread, ← hd, Function.update_eq_self]

structure Updated (w : World α τ) (t : τ) (d : Dtv τ) (m : ℕ) (l : α) (gen : ℕ)
    (x : Refresh α τ) : Prop where
  good : Good (w.setThread t x.dtv x.heap)
  reached : gen ≤ x.dtv.counter
  theMap : x.theMap = none ∨ x.theMap = some l
  counter : d.counter ≤ x.dtv.counter
  len : d.len ≤ x.dtv.len
  kept : ∀ (i : ℕ) (slot : Slot α), w.tls.slots[i]? = some slot → slot.gen ≤ d.counter →
    i ≤ d.len → x.dtv.entries i = d.entries i

theorem updateSlotinfo_spec (h : Good w) (hd : w.active t = some d) {m gen : ℕ} {l : α}
    (hm : 0 < m) (hslot : w.tls.slots[m]? = some ⟨gen, some l⟩) :
    ∃ x, updateSlotinfo w.tls d w.heap m = .ok x ∧ Updated w t d m l gen x := by
  by_cases hold : gen ≤ d.counter
  · refine ⟨⟨d, w.heap, none⟩, updateSlotinfo_older hslot hold, ?_, hold, Or.inl rfl, le_rfl,
      le_rfl, fun _ _ _ _ _ => rfl⟩
    rwa [setThread_self hd]
  · obtain ⟨x, hx, hrun⟩ := updateSlotinfo_newer h.numbered (h.holds t d hd) hm hslot (by simp)
      (Nat.lt_of_not_le hold)
    refine ⟨_, hrun, ?_, le_rfl, Or.inr (hx.theMap ?_ _ hslot), (Nat.lt_of_not_le hold).le, hx.len,
      hx.kept⟩
    · refine h.setThread hd (h.gens m _ hslot) hx.freedBy.extends (hx.freedBy.freed_lt h.freed)
        (fun t' i b hne hb => hx.freedBy.owned hne hb) hx.holds ?_
      intro i l' gen' hi hslot' hgen'
      by_cases hle : gen' ≤ d.counter
      · -- an entry the vector was good for already
        obtain ⟨hlen, hentry⟩ := h.current t d hd i l' gen' hi hslot' hle
        refine ⟨hlen.trans hx.len, ?_⟩
        rw [hx.kept i _ hslot' hle hlen]
        exact hentry.mono hx.freedBy.extends rfl
      · have hbelow : i < w.tls.maxDtvIdx + 1 :=
          Nat.lt_succ_of_le (h.numbered.holder_le i hi (by simp [holder, hslot']))
        obtain ⟨hlen, hentry⟩ := hx.reset i _ hi hbelow hslot' (Nat.lt_of_not_le hle) hgen'
          (by simp)
        exact ⟨hlen, Or.inl hentry⟩
    · exact Nat.lt_succ_of_le (h.numbered.holder_le m hm (by simp [holder, hslot]))

/-! ## An access -/

/-- The address `a` lies in a block of the thread `t` for the object `l` in the slot of the
id `m`, initialised from the image of `l` in the generation the slot was filled in. -/
def Belongs (w : World α τ) (t : τ) (m : ℕ) : Address τ → Prop
  | .dynamic b => ∃ l gen, w.tls.slots[m]? = some ⟨gen, some l⟩ ∧
      w.heap.blocks[b]? = some ⟨t, m, l, gen⟩ ∧ b ∉ w.heap.freed
  | .static t' offset => t' = t ∧ ∃ l gen, w.tls.slots[m]? = some ⟨gen, some l⟩ ∧
      w.offset l = .static offset ∧ w.image t offset = some (l, gen)

structure Accessed (w : World α τ) (t : τ) (x : Refresh α τ) (m : ℕ) (w' : World α τ)
    (a : Address τ) : Prop where
  good : Good w'
  tls : w'.tls = w.tls
  others : ∀ t', t' ≠ t → w'.active t' = w.active t'
  cached : w'.cached = w.cached
  belongs : Belongs w' t m a
  dtv : ∃ d, w'.active t = some d ∧ d.counter = x.dtv.counter ∧ d.len = x.dtv.len ∧
    m ≤ d.len ∧ (d.entries m).val = .addr a ∧ ∀ i, i ≠ m → d.entries i = x.dtv.entries i
  same : ∀ a', (x.dtv.entries m).val = .addr a' → a = a'

omit [DecidableEq τ] in
theorem Good.belongs (h : Good w) (hd : w.active t = some d) {m gen : ℕ} {l : α} (hm : 0 < m)
    (hslot : w.tls.slots[m]? = some ⟨gen, some l⟩) (hgen : gen ≤ d.counter) {a : Address τ}
    (ha : (d.entries m).val = .addr a) : Belongs w t m a := by
  obtain ⟨hlen, hentry⟩ := h.current t d hd m l gen hm hslot hgen
  rcases hentry with hentry | ⟨b, hentry, hblock, -⟩ | ⟨offset, hentry, hoff⟩
  · rw [hentry] at ha
    cases ha
  · rw [hentry] at ha
    cases ha
    obtain ⟨-, -, -, -, hfreed⟩ := h.holds t d hd m hm hlen b (by rw [hentry])
    exact ⟨l, gen, hslot, hblock, hfreed⟩
  · rw [hentry] at ha
    cases ha
    exact ⟨rfl, l, gen, hslot, hoff, h.statics t d hd m l gen offset hm hslot hoff⟩

theorem active_setThread : (w.setThread t d heap).active t = some d := by
  simp [World.setThread]

section Tail
variable {x : Refresh α τ} {m gen : ℕ} {l : α}

omit [DecidableEq τ] in
/-- The first dynamic access decides that the object has no static block. -/
theorem Good.forceDynamic [DecidableEq α] (h : Good w) (hoff : w.offset l = .none) :
    Good { w with offset := Function.update w.offset l .forcedDynamic } := by
  have hstatic : ∀ l' offset, Function.update w.offset l .forcedDynamic l' = .static offset →
      w.offset l' = .static offset := by
    intro l' offset hl'
    by_cases heq : l' = l
    · subst heq
      simp at hl'
    · rwa [Function.update_of_ne heq] at hl'
  refine ⟨h.numbered, h.gens, ?_, h.exclusive, h.counter, ?_, h.holds, h.cachedHolds, h.freed, ?_⟩
  · intro l₁ hl₁ l₂ hl₂ offset h₁ h₂
    exact h.apart l₁ hl₁ l₂ hl₂ offset (hstatic l₁ offset h₁) (hstatic l₂ offset h₂)
  · intro t d hd m l' gen hm hslot hgen
    obtain ⟨hlen, hentry⟩ := h.current t d hd m l' gen hm hslot hgen
    exact ⟨hlen, hentry.decided hoff (fun _ _ hb => hb) fun _ hne => Function.update_of_ne hne _ _⟩
  · intro t d hd m l' gen offset hm hslot hoff'
    exact h.statics t d hd m l' gen offset hm hslot (hstatic l' offset hoff')

section Entry
variable (h : Good (w.setThread t x.dtv x.heap)) (hm : 0 < m)
  (hslot : w.tls.slots[m]? = some ⟨gen, some l⟩) (hgen : gen ≤ x.dtv.counter)
include h hm hslot hgen

theorem Good.setEntry {e : Entry τ} {a : Address τ} (ha : e.val = .addr a)
    (hblocks : x.heap.Extends heap) (hfreed : heap.freed = x.heap.freed)
    (howned : ∀ b, e.toFree = some b → Owned heap t m b)
    (hcurrent : Current { w with heap := heap } t m l gen e)
    (hfree : x.dtv.entries m = ⟨.unallocated, none⟩) :
    ∃ d, x.dtv.set m e = .ok d ∧ Accessed w t x m (w.setThread t d heap) a := by
  have hlen : m ≤ x.dtv.len := (h.current t _ active_setThread m l gen hm hslot hgen).1
  let d : Dtv τ := { x.dtv with entries := Function.update x.dtv.entries m e }
  have hself : d.entries m = e := Function.update_self ..
  have hother : ∀ i, i ≠ m → d.entries i = x.dtv.entries i :=
    fun i hi => Function.update_of_ne hi _ _
  have hgood : Good (w.setThread t d heap) := by
    rw [← setThread_setThread x.dtv d x.heap heap]
    refine h.setThread active_setThread (h.counter t x.dtv active_setThread) hblocks ?_
      (fun _ _ _ _ hb => hb.mono hblocks hfreed) ?_ ?_
    · intro b hb
      have hblock := hblocks b _ (List.getElem?_eq_getElem (h.freed b (hfreed ▸ hb)))
      exact (List.getElem?_eq_some_iff.mp hblock).1
    · intro i hi hile b hb
      by_cases heq : i = m
      · subst heq
        rw [hself] at hb
        exact howned b hb
      · rw [hother i heq] at hb
        exact (h.holds t _ active_setThread i hi hile b hb).mono hblocks hfreed
    · intro i l' gen' hi hslot' hgen'
      obtain ⟨hile, hentry⟩ := h.current t _ active_setThread i l' gen' hi hslot' hgen'
      refine ⟨hile, ?_⟩
      by_cases heq : i = m
      · subst heq
        rw [show w.tls.slots[i]? = _ from hslot'] at hslot
        cases hslot
        rw [hself]
        exact hcurrent
      · rw [hother i heq]
        exact hentry.mono hblocks rfl
  refine ⟨d, if_pos hlen, hgood, rfl, ?_, rfl, ?_, ?_, ?_⟩
  · intro t' ht'
    simp [World.setThread, ht']
  · exact hgood.belongs active_setThread hm hslot hgen (by rw [hself, ha])
  · exact ⟨d, active_setThread, rfl, rfl, hlen, by rw [hself, ha], hother⟩
  · intro a' ha'
    rw [hfree] at ha'
    cases ha'

theorem allocateAndInit_spec (hoff : w.offset l = .forcedDynamic)
    (hfree : x.dtv.entries m = ⟨.unallocated, none⟩) :
    ∃ w' a, allocateAndInit w t x m l gen = .ok (w', .addr a) ∧ Accessed w t x m w' a := by
  let heap : Heap α τ := { x.heap with blocks := x.heap.blocks ++ [⟨t, m, l, gen⟩] }
  have hblocks : x.heap.Extends heap := by
    intro b block hb
    rw [List.getElem?_append_left (List.getElem?_eq_some_iff.mp hb).1, hb]
  have hnew : heap.blocks[x.heap.blocks.length]? = some ⟨t, m, l, gen⟩ := by simp [heap]
  have howned : Owned heap t m x.heap.blocks.length :=
    ⟨_, hnew, rfl, rfl, fun hmem => lt_irrefl _ (h.freed _ hmem)⟩
  obtain ⟨d, hset, hd⟩ := h.setEntry hm hslot hgen
    (e := ⟨.addr (.dynamic x.heap.blocks.length), some x.heap.blocks.length⟩) rfl hblocks rfl
    (fun b hb => Option.some.inj hb ▸ howned) (Or.inr (Or.inl ⟨_, rfl, hnew, hoff⟩)) hfree
  refine ⟨_, _, ?_, hd⟩
  rw [allocateAndInit, hset]
  rfl

theorem tlsGetAddrTail_spec [DecidableEq α] (hmap : x.theMap = none ∨ x.theMap = some l)
    (hfree : x.dtv.entries m = ⟨.unallocated, none⟩) :
    ∃ w' a, tlsGetAddrTail w t x m = .ok (w', .addr a) ∧ Accessed w t x m w' a := by
  have htheMap : x.theMap.or (some l) = some l := by
    rcases hmap with hmap | hmap <;> rw [hmap] <;> rfl
  rw [tlsGetAddrTail, slotAt_of_some hslot]
  simp only [bind, Except.bind, htheMap]
  cases hoff : w.offset l with
  | forcedDynamic => exact allocateAndInit_spec h hm hslot hgen hoff hfree
  | none =>
    have hforced : Good ({ w with
        offset := Function.update w.offset l .forcedDynamic }.setThread t x.dtv x.heap) :=
      h.forceDynamic hoff
    obtain ⟨w', a, hrun, hw'⟩ := allocateAndInit_spec hforced hm hslot hgen
      (Function.update_self ..) hfree
    exact ⟨w', a, hrun, hw'.good, hw'.tls, hw'.others, hw'.cached, hw'.belongs, hw'.dtv, hw'.same⟩
  | static offset =>
    obtain ⟨d, hset, hd⟩ := h.setEntry hm hslot hgen
      (e := ⟨.addr (.static t offset), none⟩) rfl (fun _ _ hb => hb) rfl (fun _ hb => by cases hb)
      (Or.inr (Or.inr ⟨offset, rfl, hoff⟩)) hfree
    refine ⟨_, _, ?_, hd⟩
    simp only [hset]

theorem entryAddr_spec [DecidableEq α] (hmap : x.theMap = none ∨ x.theMap = some l) :
    ∃ w' a, entryAddr w t x m = .ok (w', .addr a) ∧ Accessed w t x m w' a := by
  obtain ⟨hlen, hentry⟩ := h.current t _ active_setThread m l gen hm hslot hgen
  have hget : entryAddr w t x m = if (x.dtv.entries m).val = .unallocated
      then tlsGetAddrTail w t x m
      else .ok (w.setThread t x.dtv x.heap, (x.dtv.entries m).val) := by
    rw [entryAddr, Dtv.get, if_pos hlen]
    rfl
  -- an entry that already leads to a block is left as it is
  have hdone : ∀ a, (x.dtv.entries m).val = .addr a →
      ∃ w' a, entryAddr w t x m = .ok (w', .addr a) ∧ Accessed w t x m w' a := by
    intro a ha
    refine ⟨w.setThread t x.dtv x.heap, a, ?_, h, rfl, ?_, rfl, ?_, ?_, ?_⟩
    · rw [hget, ha, if_neg (by simp)]
    · intro t' ht'
      simp [World.setThread, ht']
    · exact h.belongs active_setThread hm hslot hgen ha
    · exact ⟨x.dtv, active_setThread, rfl, rfl, hlen, ha, fun _ _ => rfl⟩
    · intro a' ha'
      rw [ha] at ha'
      exact Val.addr.inj ha'
  rcases hentry with hentry | ⟨b, hentry, -⟩ | ⟨offset, hentry, -⟩
  · rw [hget, if_pos (by rw [hentry])]
    exact tlsGetAddrTail_spec h hm hslot hgen hmap hentry
  · exact hdone _ (by rw [hentry])
  · exact hdone _ (by rw [hentry])

end Entry

theorem tlsGetAddr_spec [DecidableEq α] (h : Good w) (hd : w.active t = some d) (hm : 0 < m)
    (hslot : w.tls.slots[m]? = some ⟨gen, some l⟩) :
    ∃ w' a x, tlsGetAddr w t m = .ok (w', .addr a) ∧ Updated w t d m l gen x ∧
      Accessed w t x m w' a := by
  rw [tlsGetAddr, hd]
  by_cases hcur : d.counter = w.tls.generation
  · have hgen : gen ≤ d.counter := by
      rw [hcur]
      exact h.gens m _ hslot
    have hgood : Good (w.setThread t d w.heap) := by rwa [setThread_self hd]
    obtain ⟨w', a, hrun, hw'⟩ := entryAddr_spec (x := ⟨d, w.heap, none⟩) hgood hm hslot hgen
      (Or.inl rfl)
    refine ⟨w', a, ⟨d, w.heap, none⟩, ?_, ?_, hw'⟩
    · simpa [hcur] using hrun
    · exact ⟨hgood, hgen, Or.inl rfl, le_rfl, le_rfl, fun _ _ _ _ _ => rfl⟩
  · obtain ⟨x, hupdate, hx⟩ := updateSlotinfo_spec h hd hm hslot
    obtain ⟨w', a, hrun, hw'⟩ := entryAddr_spec hx.good hm hslot hx.reached hx.theMap
    refine ⟨w', a, x, ?_, hx, hw'⟩
    change (if d.counter ≠ w.tls.generation then _ else _) = _
    rw [if_pos hcur, hupdate]
    exact hrun

end Tail
/-! ## The other steps -/

theorem Good.uncache (h : Good w) {old : τ} {d : Dtv τ} (hold : w.cached old = some d)
    (hfreed : FreedBy w.heap heap old) :
    Good { w with cached := Function.update w.cached old none, heap := heap } := by
  have hactive : w.active old = none := by
    rcases h.exclusive old with hnone | hnone
    · exact hnone
    · rw [hold] at hnone
      cases hnone
  have hne : ∀ t e, w.active t = some e → t ≠ old := by
    rintro t e he rfl
    rw [hactive] at he
    cases he
  refine ⟨h.numbered, h.gens, h.apart, ?_, h.counter, ?_, ?_, ?_, hfreed.freed_lt h.freed, h.statics⟩
  · intro t
    by_cases heq : t = old
    · exact Or.inl (heq ▸ hactive)
    · simp only [Function.update_of_ne heq]
      exact h.exclusive t
  · intro t e he m l gen hm hslot hgen
    obtain ⟨hlen, hentry⟩ := h.current t e he m l gen hm hslot hgen
    exact ⟨hlen, hentry.mono hfreed.extends rfl⟩
  · intro t e he i hi hlen b hb
    exact hfreed.owned (hne t e he) (h.holds t e he i hi hlen b hb)
  · intro t e he i hi hlen b hb
    have heq : t ≠ old := by
      rintro rfl
      simp at he
    simp only [Function.update_of_ne heq] at he
    exact hfreed.owned heq (h.cachedHolds t e he i hi hlen b hb)

theorem Good.create (h : Good w) (hactive : w.active t = none) (hcached : w.cached t = none)
    (hd : ∀ i, (d.entries i).toFree = none) :
    ∃ w', allocateTlsInit w t d = .ok w' ∧ Good w' ∧ w'.tls = w.tls ∧ (w'.active t).isSome ∧
      ∀ t', t' ≠ t → w'.active t' = w.active t' := by
  obtain ⟨x, len, hrun, hlen, hx⟩ := allocateTlsInit_spec h.numbered h.gens h.apart t hd
  refine ⟨_, hrun, ?_, rfl, by simp, fun t' ht' => Function.update_of_ne ht' _ _⟩
  have hplaced : ∀ m l gen, 0 < m → w.tls.slots[m]? = some ⟨gen, some l⟩ →
      m ≤ len ∧ Placed w t l gen (x.dtv.entries m) x.image := by
    intro m l gen hm hslot
    have hmax := h.numbered.holder_le m hm (by simp [holder, hslot])
    exact ⟨hmax.trans hlen, (hx.placed m l gen hm (Nat.lt_succ_of_le hmax) hslot).2⟩
  refine ⟨h.numbered, h.gens, h.apart, ?_, ?_, ?_, ?_, h.cachedHolds, h.freed, ?_⟩
  · intro t'
    by_cases heq : t' = t
    · exact Or.inr (heq ▸ hcached)
    · simp only [Function.update_of_ne heq]
      exact h.exclusive t'
  · intro t' e he
    rcases update_cases he with ⟨rfl, rfl⟩ | ⟨-, he⟩
    · exact hx.maxgen_le
    · exact h.counter t' e he
  · intro t' e he m l gen hm hslot hgen
    rcases update_cases he with ⟨rfl, rfl⟩ | ⟨-, he⟩
    · obtain ⟨hle, hp⟩ := hplaced m l gen hm hslot
      refine ⟨hx.len_eq ▸ hle, ?_⟩
      rcases hp with ⟨hentry, -⟩ | ⟨offset, hoff, hentry, -⟩
      · exact Or.inl hentry
      · exact Or.inr (Or.inr ⟨offset, hentry, hoff⟩)
    · exact h.current t' e he m l gen hm hslot hgen
  · intro t' e he i hi hle b hb
    rcases update_cases he with ⟨rfl, rfl⟩ | ⟨-, he⟩
    · rw [hx.toFree] at hb
      cases hb
    · exact h.holds t' e he i hi hle b hb
  · intro t' e he m l gen offset hm hslot hoff
    rcases update_cases he with ⟨rfl, rfl⟩ | ⟨hne, he⟩
    · simp only [Function.update_self]
      rcases (hplaced m l gen hm hslot).2 with ⟨-, hno⟩ | ⟨offset', hoff', -, himage⟩
      · exact absurd hoff (hno offset)
      · rw [show w.offset l = _ from hoff] at hoff'
        cases hoff'
        exact himage
    · simp only [Function.update_of_ne hne]
      exact h.statics t' e he m l gen offset hm hslot hoff

theorem Good.exit (h : Good w) (hd : w.active t = some d) :
    Good { w with
      active := Function.update w.active t none
      cached := Function.update w.cached t (w.active t) } := by
  have hactive : ∀ t' e, Function.update w.active t none t' = some e → w.active t' = some e := by
    intro t' e he
    by_cases heq : t' = t
    · subst heq
      simp at he
    · rwa [Function.update_of_ne heq] at he
  refine ⟨h.numbered, h.gens, h.apart, ?_, fun t' e he => h.counter t' e (hactive t' e he),
    fun t' e he => h.current t' e (hactive t' e he), fun t' e he => h.holds t' e (hactive t' e he),
    ?_, h.freed, fun t' e he => h.statics t' e (hactive t' e he)⟩
  · intro t'
    by_cases heq : t' = t
    · subst heq
      exact Or.inl (Function.update_self ..)
    · simp only [Function.update_of_ne heq]
      exact h.exclusive t'
  · intro t' e he
    by_cases heq : t' = t
    · subst heq
      change Function.update w.cached t' (w.active t') t' = some e at he
      rw [Function.update_self, hd] at he
      cases he
      exact h.holds t' d hd
    · change Function.update w.cached t (w.active t) t' = some e at he
      rw [Function.update_of_ne heq] at he
      exact h.cachedHolds t' e he

omit [DecidableEq τ] in
theorem Good.allocateStatic [DecidableEq α] (h : Good w) {l : α} {gen offset : ℕ}
    (hl : l ∈ w.tls.startup ++ w.tls.loaded) (hoff : w.offset l = .none)
    (hfree : ∀ l' ∈ w.tls.startup ++ w.tls.loaded, w.offset l' ≠ .static offset)
    (hslot : w.tls.slots[w.tls.modid l]? = some ⟨gen, some l⟩) :
    Good { w with
      offset := Function.update w.offset l (.static offset)
      image := fun t => if (w.active t).isSome
        then Function.update (w.image t) offset (some (l, gen)) else w.image t } := by
  have hother : ∀ l', l' ≠ l → Function.update w.offset l (.static offset) l' = w.offset l' :=
    fun l' hne => Function.update_of_ne hne _ _
  refine ⟨h.numbered, h.gens, ?_, h.exclusive, h.counter, ?_, h.holds, h.cachedHolds, h.freed, ?_⟩
  · intro l₁ hl₁ l₂ hl₂ o h₁ h₂
    by_cases heq₁ : l₁ = l <;> by_cases heq₂ : l₂ = l
    · rw [heq₁, heq₂]
    · simp only [heq₁, Function.update_self] at h₁
      cases h₁
      simp only [hother l₂ heq₂] at h₂
      exact absurd h₂ (hfree l₂ hl₂)
    · simp only [heq₂, Function.update_self] at h₂
      cases h₂
      simp only [hother l₁ heq₁] at h₁
      exact absurd h₁ (hfree l₁ hl₁)
    · simp only [hother l₁ heq₁] at h₁
      simp only [hother l₂ heq₂] at h₂
      exact h.apart l₁ hl₁ l₂ hl₂ o h₁ h₂
  · intro t d hd m l' gen' hm hslot' hgen
    obtain ⟨hlen, hentry⟩ := h.current t d hd m l' gen' hm hslot' hgen
    exact ⟨hlen, hentry.decided hoff (fun _ _ hb => hb) hother⟩
  · intro t d hd m l' gen' o hm hslot' ho
    simp only [show (w.active t).isSome = true by rw [show w.active t = some d from hd]; rfl,
      if_true]
    by_cases heq : l' = l
    · subst heq
      simp only [Function.update_self] at ho
      cases ho
      have hid := (h.live hm hslot').2
      rw [hid, show w.tls.slots[m]? = _ from hslot'] at hslot
      cases hslot
      exact Function.update_self ..
    · simp only [hother l' heq] at ho
      have hne : o ≠ offset := by
        rintro rfl
        exact hfree l' (h.live hm hslot').1 ho
      rw [Function.update_of_ne hne]
      exact h.statics t d hd m l' gen' o hm hslot' ho

end Threads
end AwaitGlibc.ThreadTls

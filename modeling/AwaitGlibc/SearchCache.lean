import Mathlib
import AwaitGlibc.LibraryOrder

/-!
# Looking up a library in the cache

`search_cache` finds an entry with the name by binary search, goes back to the first
one and then forward through all of them. The entries of subdirectories of
`glibc-hwcaps` ("named") compete by their priorities; the first other entry ends the
search if anything was found, and an entry that is found with the default flags ends
it as well. So the outcome depends on which entries come first in the table. An `int`
that overflows and a read outside the table are undefined results here.
-/
namespace AwaitGlibc.SearchCache
open LibraryOrder

/-- `struct file_entry_new`. In the old format the last two fields are missing. -/
structure FileEntry where
  flags : BitVec 32
  key : ℕ
  value : ℕ
  osversion : BitVec 32
  hwcap : BitVec 64

/-- What `search_cache` is called with; `extended` if `entry_size` is that of the new
format, and `string i` is the string at `string_table + i`. -/
structure Table where
  libs : List FileEntry
  extended : Bool
  size : ℕ
  string : ℕ → CString

/-- The machine. `_dl_cache_check_flags` accepts `_DL_CACHE_DEFAULT_ID`, on some machines
also 1; `glibc_hwcaps_priority` is a table. -/
structure Setting where
  platforms : Bool
  hwcapPlatform : BitVec 64
  stringPlatform : Option ℕ
  dlHwcap : BitVec 64
  hwcapMask : BitVec 64
  dlOsversion : BitVec 32
  isaLevelCompatible : BitVec 64 → Bool
  priority : BitVec 32 → ℕ
  defaultId : BitVec 32
  elfToo : Bool

structure Best where
  path : Option ℕ
  priority : ℕ

def Table.verifyPtr (T : Table) (ptr : ℕ) : Bool := ptr < T.size

/-- `dl_cache_hwcap_extension`, where there is a `hwcap` field. -/
def Table.named (T : Table) (lib : FileEntry) : Bool :=
  T.extended && (lib.hwcap >>> 32 &&& ~~~0x3ff#64) == 1#64 <<< 30

namespace Setting
variable (S : Setting)

def checkFlags (flags : BitVec 32) : Bool := flags == S.defaultId || S.elfToo && flags == 1

def platform : BitVec 64 := S.stringPlatform.elim (BitVec.allOnes 64) (1#64 <<< ·)

def hwcapExclude : BitVec 64 := ~~~(S.dlHwcap &&& S.hwcapMask ||| S.hwcapPlatform ||| 1#64 <<< 63)

/-- The tests on `osversion` and the platform. -/
def runs (lib : FileEntry) : Bool :=
  !(S.dlOsversion != 0 && S.dlOsversion < lib.osversion) &&
    !(S.platforms && lib.hwcap &&& S.hwcapPlatform != 0 && lib.hwcap &&& S.hwcapPlatform != S.platform)

def entryPriority (lib : FileEntry) : ℕ := S.priority (lib.hwcap.setWidth 32)

/-- Takes an entry that is not named: `best = string_table + lib->value`. -/
def take (lib : FileEntry) (best : Best) : Bool × Best :=
  (lib.flags == S.defaultId, { best with path := some lib.value })

/-- The loop body for an entry with the name: whether the loop ends, and the best entry. -/
def consider (T : Table) (lib : FileEntry) (best : Best) : Bool × Best :=
  if !(S.checkFlags lib.flags && T.verifyPtr lib.value) then (false, best)
  else if !T.extended then S.take lib best
  else if T.named lib then
    if !S.isaLevelCompatible lib.hwcap then (false, best)
    else if !S.runs lib then (false, best)
    else if S.entryPriority lib = 0 then (false, best)
    else if best.path.isNone || S.entryPriority lib < best.priority then
      (false, ⟨some lib.value, S.entryPriority lib⟩)
    else (false, best)
  else if best.path.isSome then (true, best)
  else if lib.hwcap &&& S.hwcapExclude != 0 then (false, best)
  else if !S.runs lib then (false, best)
  else S.take lib best

/-- The test whether the forward loop has left the entries with the name, which those up to
`left` are known to have. -/
def leaves (T : Table) (name : CString) (left : ℤ) (middle : ℕ) (lib : FileEntry) : Option Bool :=
  if (middle : ℤ) ≤ left then some false
  else if !T.verifyPtr lib.key then some true
  else (dlCacheLibcmp name (T.string lib.key)).map (· != 0)

def scan (T : Table) (name : CString) (left right : ℤ) : ℕ → List FileEntry → Best → Option (Option ℕ)
  | _, [], _ => none
  | middle, lib :: rest, best => do
    let done ← leaves T name left middle lib
    if done then some best.path
    else
      let next := S.consider T lib best
      if next.1 then some next.2.path
      else if (middle : ℤ) + 1 ≤ right then scan T name left right (middle + 1) rest next.2
      else some next.2.path

end Setting

/-- The loop back to the first entry with the name. -/
def Table.walkBack (T : Table) (name : CString) : ℕ → Option ℕ
  | 0 => some 0
  | middle + 1 => do
    let lib ← T.libs[middle]?
    if !T.verifyPtr lib.key then some (middle + 1)
    else
      let res ← dlCacheLibcmp name (T.string lib.key)
      if res ≠ 0 then some (middle + 1) else T.walkBack name middle

/-- The binary search; the fuel bounds its rounds. -/
def Setting.searchLoop (S : Setting) (T : Table) (name : CString) : ℕ → ℤ → ℤ → Option (Option ℕ)
  | 0, _, _ => none
  | fuel + 1, left, right =>
    if right < left then some none
    else if 2 ^ 31 ≤ left + right then none
    else do
      let middle := (left + right) / 2
      let lib ← T.libs[middle.toNat]?
      if !T.verifyPtr lib.key then some none
      else
        let cmpres ← dlCacheLibcmp name (T.string lib.key)
        if cmpres = 0 then
          let first ← T.walkBack name middle.toNat
          S.scan T name middle right first (T.libs.drop first) ⟨none, 0⟩
        else if cmpres < 0 then S.searchLoop T name fuel (middle + 1) right
        else S.searchLoop T name fuel left (middle - 1)

/-- `search_cache`: the offset of the path found. -/
def Setting.searchCache (S : Setting) (T : Table) (name : CString) : Option (Option ℕ) :=
  S.searchLoop T name (T.libs.length + 1) 0 (T.libs.length - 1)

/-! ## What is looked for -/

def Table.withName (T : Table) (name : CString) : List FileEntry :=
  T.libs.filter fun lib => dlCacheLibcmp name (T.string lib.key) = some 0

namespace Setting
variable (S : Setting)

def admits (T : Table) (lib : FileEntry) : Bool := S.checkFlags lib.flags && T.verifyPtr lib.value

def usable (T : Table) (lib : FileEntry) : Bool :=
  S.admits T lib && (!T.extended || S.runs lib &&
    if T.named lib then S.isaLevelCompatible lib.hwcap && S.entryPriority lib != 0
    else lib.hwcap &&& S.hwcapExclude == 0)

/-- A usable named entry of least priority, otherwise the first usable entry with the
default flags, otherwise the last usable one. -/
def preferred (T : Table) (libs : List FileEntry) : Option FileEntry :=
  let found := libs.filter (S.usable T)
  (found.filter T.named).argmin S.entryPriority <|>
    found.find? (·.flags == S.defaultId) <|> found.getLast?

/-- The first usable entry. If it is named, a usable one of least priority among the named
entries from it to the next entry that is not. -/
def chosen (T : Table) (libs : List FileEntry) : Option FileEntry :=
  match (libs.filter (S.admits T)).dropWhile (!S.usable T ·) with
  | [] => none
  | lib :: rest =>
    if T.named lib then (lib :: (rest.takeWhile T.named).filter (S.usable T)).argmin S.entryPriority
    else some lib

end Setting

/-- The entry of the cache as it was before it was written. -/
structure Stored (T : Table) (e : Entry) (lib : FileEntry) : Prop where
  name : T.string lib.key = e.lib
  flags : lib.flags = e.flags
  named : T.named lib = e.hwcaps.isSome

/-- The table is sorted by `compare` of `ldconfig`, its strings are in the string table,
and the comparisons with the name do not overflow. -/
structure Table.Sorted (T : Table) (name : CString) : Prop where
  sorted : ∃ entries : List (Entry × FileEntry), entries.map Prod.snd = T.libs ∧
    (∀ e ∈ entries, Stored T e.1 e.2) ∧
    entries.Pairwise fun e1 e2 => ∃ res, compareEntries e1.1 e2.1 = some res ∧ res ≤ 0
  inRange : ∀ lib ∈ T.libs, lib.key < T.size ∧ lib.value < T.size
  compares : ∀ lib ∈ T.libs, (dlCacheLibcmp name (T.string lib.key)).isSome
  length_le : T.libs.length ≤ 2 ^ 30

/-! ## The entries with the name are a block -/

def Table.side (T : Table) (name : CString) (lib : FileEntry) : Ordering :=
  compare (tokens none name.bytes) (tokens none (T.string lib.key).bytes)

variable {name : CString} {res : ℤ} {T : Table}

theorem Table.sign_eq_side (T : Table) {lib : FileEntry}
    (h : dlCacheLibcmp name (T.string lib.key) = some res) : sign res = T.side name lib :=
  libcmpLoop_spec _ name.zero_notMem (T.string lib.key).zero_notMem h

/-- The entries of larger names, those with the name and those of smaller names. -/
structure Table.Blocks (T : Table) (name : CString) (before after : List FileEntry) : Prop where
  libs : T.libs = before ++ (T.withName name ++ after)
  before : ∀ lib ∈ before, T.side name lib = .lt
  after : ∀ lib ∈ after, T.side name lib = .gt

/-- What the order says of an entry `b` behind `a`. -/
structure Follows (T : Table) (a b : FileEntry) : Prop where
  name_le : (compare (tokens none (T.string b.key).bytes) (tokens none (T.string a.key).bytes)).isLE
  named : tokens none (T.string b.key).bytes = tokens none (T.string a.key).bytes →
    b.flags = a.flags → T.named b = true → T.named a = true

theorem Stored.follows {e1 e2 : Entry} {a b : FileEntry} (h1 : Stored T e1 a) (h2 : Stored T e2 b)
    (hres : compareEntries e1 e2 = some res) (hle : res ≤ 0) : Follows T a b := by
  have hsign := compareEntries_spec hres
  have hisLE : (order e1 e2).isLE := by
    rw [← hsign, sign, Ordering.isLE_iff_ne_gt]
    exact compare_le_iff_le.mpr hle
  rw [order, compareLex, Ordering.isLE_then_iff_or] at hisLE
  constructor
  case name_le =>
    rw [h1.name, h2.name]
    cases hisLE with
    | inl hlt => exact (congrArg Ordering.isLE hlt).trans rfl
    | inr heq => exact (congrArg Ordering.isLE heq.1).trans rfl
  case named =>
    intro hname hflags hnamed
    rw [h1.name, h2.name] at hname
    rw [h1.flags, h2.flags] at hflags
    rw [h2.named] at hnamed
    rw [h1.named]
    by_contra hregular
    cases hisLE with
    | inl hlt =>
      rw [byName, compareOn, hname] at hlt
      exact absurd (Std.ReflCmp.compare_self.symm.trans hlt) (by decide)
    | inr heq =>
      have hkind : byKind e1 e2 = .gt := by
        rw [byKind, compareOn, hflags, compare_cons_self, if_pos hnamed, if_neg hregular]
        exact compare_cons_gt Int.one_pos _ _
      rw [compareLex, hkind] at heq
      cases heq.2

theorem Table.Sorted.follows (h : T.Sorted name) : T.libs.Pairwise (Follows T) := by
  obtain ⟨entries, hlibs, hstored, hsorted⟩ := h.sorted
  rw [← hlibs, List.pairwise_map]
  refine hsorted.imp_of_mem ?_
  rintro a b ha hb ⟨res, hres, hle⟩
  exact (hstored a ha).follows (hstored b hb) hres hle

theorem Follows.side_gt {a b : FileEntry} (h : Follows T a b) (ha : T.side name a = .gt) :
    T.side name b = .gt := by
  rw [Table.side, Std.OrientedCmp.gt_iff_lt] at ha ⊢
  exact Std.TransCmp.lt_of_isLE_of_lt h.name_le ha

theorem Follows.side_lt {a b : FileEntry} (h : Follows T a b) (hb : T.side name b = .lt) :
    T.side name a = .lt :=
  Std.TransCmp.lt_of_lt_of_isLE hb h.name_le

theorem Table.Sorted.libcmp (h : T.Sorted name) {lib : FileEntry} (hlib : lib ∈ T.libs) :
    ∃ res, dlCacheLibcmp name (T.string lib.key) = some res ∧ sign res = T.side name lib := by
  obtain ⟨res, hres⟩ := Option.isSome_iff_exists.mp (h.compares lib hlib)
  exact ⟨res, hres, T.sign_eq_side hres⟩

theorem sign_eq_iff : sign res = .eq ↔ res = 0 := by
  rw [sign, compare_eq_iff_eq]

theorem Table.Sorted.withName_eq (h : T.Sorted name) :
    T.withName name = T.libs.filter fun lib => T.side name lib = .eq := by
  refine List.filter_congr fun lib hlib => ?_
  obtain ⟨res, hres, hsign⟩ := h.libcmp hlib
  simp [hres, ← hsign, sign_eq_iff]

theorem blocks_of_pairwise {α : Type} (side : α → Ordering) {l : List α}
    (h : l.Pairwise fun a b => (side a = .gt → side b = .gt) ∧ (side b = .lt → side a = .lt)) :
    ∃ before after, l = before ++ ((l.filter fun x => side x = .eq) ++ after) ∧
      (∀ x ∈ before, side x = .lt) ∧ ∀ x ∈ after, side x = .gt := by
  induction l with
  | nil => exact ⟨[], [], rfl, by simp, by simp⟩
  | cons a l ih =>
    rw [List.pairwise_cons] at h
    obtain ⟨before, after, hl, hbefore, hafter⟩ := ih h.2
    cases ha : side a with
    | lt =>
      refine ⟨a :: before, after, ?_, ?_, hafter⟩
      · rw [List.filter_cons_of_neg (by simp [ha]), List.cons_append, ← hl]
      · exact List.forall_mem_cons.mpr ⟨ha, hbefore⟩
    | eq =>
      have hnil : before = [] := by
        refine List.eq_nil_iff_forall_not_mem.mpr fun b hb => ?_
        have := (h.1 b (hl ▸ List.mem_append_left _ hb)).2 (hbefore b hb)
        simp [ha] at this
      refine ⟨[], after, ?_, by simp, hafter⟩
      rw [List.filter_cons_of_pos (by simp [ha])]
      simpa [hnil] using hl
    | gt =>
      have hall : ∀ b ∈ l, side b = .gt := fun b hb => (h.1 b hb).1 ha
      refine ⟨[], a :: l, ?_, by simp, List.forall_mem_cons.mpr ⟨ha, hall⟩⟩
      rw [List.filter_eq_nil_iff.mpr]
      · rfl
      · simpa [ha] using fun b hb => by simp [hall b hb]

theorem Table.Sorted.blocks (h : T.Sorted name) : ∃ before after, T.Blocks name before after := by
  obtain ⟨before, after, hlibs, hbefore, hafter⟩ :=
    blocks_of_pairwise (T.side name) (h.follows.imp fun hf => ⟨hf.side_gt, hf.side_lt⟩)
  exact ⟨before, after, h.withName_eq ▸ hlibs, hbefore, hafter⟩

/-! ## The search finds the block -/

namespace Setting
variable (S : Setting)

def considerAll (T : Table) : List FileEntry → Best → Best
  | [], best => best
  | lib :: rest, best =>
    if (S.consider T lib best).1 then (S.consider T lib best).2
    else considerAll T rest (S.consider T lib best).2

end Setting

section Search
variable {S : Setting} {T : Table} {name : CString} {before after : List FileEntry}

variable {lib : FileEntry}

section
variable (h : T.Sorted name)
include h

theorem Table.Sorted.libcmp_eq (hlib : lib ∈ T.libs)
    (hside : T.side name lib = .eq) : dlCacheLibcmp name (T.string lib.key) = some 0 := by
  obtain ⟨res, hres, hsign⟩ := h.libcmp hlib
  rw [hres, sign_eq_iff.mp (hsign.trans hside)]

theorem Table.Sorted.verify (hlib : lib ∈ T.libs) : T.verifyPtr lib.key = true :=
  decide_eq_true (h.inRange lib hlib).1

theorem Table.Sorted.side_withName (hlib : lib ∈ T.withName name) : T.side name lib = .eq := by
  rw [h.withName_eq] at hlib
  simpa using (List.mem_filter.mp hlib).2

theorem Table.walkBack_eq (hblocks : T.Blocks name before after) {k : ℕ}
    (hk : k < (T.withName name).length) :
    T.walkBack name (before.length + k) = some before.length := by
  induction k with
  | zero =>
    cases hlen : before.length with
    | zero => rfl
    | succ n =>
      have hget : T.libs[n]? = before[n]? := by
        rw [hblocks.libs, List.getElem?_append_left (by omega)]
      have hn : n < before.length := by omega
      rw [List.getElem?_eq_getElem hn] at hget
      have hmem := List.mem_of_getElem? hget
      have hside := hblocks.before _ (List.getElem_mem hn)
      obtain ⟨res, hres, hsign⟩ := h.libcmp hmem
      have hne : res ≠ 0 := by
        intro hzero
        rw [sign_eq_iff.mpr hzero, hside] at hsign
        cases hsign
      change (T.libs[n]? >>= _) = _
      rw [hget]
      simp [h.verify hmem, hres, hne]
  | succ k ih =>
    have hget : T.libs[before.length + k]? = (T.withName name)[k]? := by
      rw [hblocks.libs, List.getElem?_append_right (by omega), List.getElem?_append_left (by omega)]
      congr 1
      omega
    have hlt : k < (T.withName name).length := by omega
    rw [List.getElem?_eq_getElem hlt] at hget
    have hmem := List.mem_of_getElem? hget
    have hside := h.side_withName (List.getElem_mem hlt)
    change (T.libs[before.length + k]? >>= _) = _
    rw [hget]
    simp [h.verify hmem, h.libcmp_eq hmem hside, ih (by omega)]

theorem scan_eq {left right : ℤ} {middle : ℕ} {libs after : List FileEntry} {best : Best}
    (hlibs : ∀ lib ∈ libs ++ after, lib ∈ T.libs) (heq : ∀ lib ∈ libs, T.side name lib = .eq)
    (hafter : ∀ lib ∈ after, T.side name lib = .gt) (hleft : left < (middle : ℤ) + libs.length)
    (hle : (middle : ℤ) ≤ right) (hright : (middle : ℤ) + libs.length ≤ right + 1)
    (hlast : right < (middle : ℤ) + libs.length + after.length) :
    S.scan T name left right middle (libs ++ after) best = some (S.considerAll T libs best).path := by
  induction libs generalizing middle best with
  | nil =>
    cases after with
    | nil =>
      simp only [List.length_nil] at hlast
      omega
    | cons lib after =>
      have hmem := hlibs lib (by simp)
      have hside := hafter lib List.mem_cons_self
      obtain ⟨res, hres, hsign⟩ := h.libcmp hmem
      have hne : res ≠ 0 := by
        intro hzero
        rw [sign_eq_iff.mpr hzero, hside] at hsign
        cases hsign
      have hnot : ¬(middle : ℤ) ≤ left := by simpa using hleft
      simp [Setting.scan, Setting.leaves, hnot, h.verify hmem, hres, hne, Setting.considerAll]
  | cons lib libs ih =>
    have hmem := hlibs lib (by simp)
    have hzero := h.libcmp_eq hmem (heq lib List.mem_cons_self)
    have hdone : Setting.leaves T name left middle lib = some false := by
      simp [Setting.leaves, h.verify hmem, hzero]
    rw [List.cons_append, Setting.scan, hdone, Setting.considerAll]
    simp only [Option.bind_eq_bind, Option.bind_some, Bool.false_eq_true, if_false]
    simp only [List.length_cons, Nat.cast_add, Nat.cast_one] at hleft hright hlast
    split_ifs with hstop hmore
    · rfl
    · refine ih (fun lib hlib => hlibs lib (List.mem_cons_of_mem _ hlib))
        (fun lib hlib => heq lib (List.mem_cons_of_mem _ hlib)) ?_ ?_ ?_ ?_ <;> push_cast <;> omega
    · have hnil : libs = [] := List.length_eq_zero_iff.mp (by omega)
      rw [hnil]
      rfl

theorem Table.Blocks.side_getElem? (hblocks : T.Blocks name before after)
    {m : ℕ} (hm : T.libs[m]? = some lib) :
    m < before.length ∧ T.side name lib = .lt ∨
      before.length ≤ m ∧ m < before.length + (T.withName name).length ∧ T.side name lib = .eq ∨
      before.length + (T.withName name).length ≤ m ∧ T.side name lib = .gt := by
  rw [hblocks.libs] at hm
  by_cases hbefore : m < before.length
  · rw [List.getElem?_append_left hbefore] at hm
    exact .inl ⟨hbefore, hblocks.before lib (List.mem_of_getElem? hm)⟩
  · rw [List.getElem?_append_right (by omega)] at hm
    by_cases hname : m - before.length < (T.withName name).length
    · rw [List.getElem?_append_left hname] at hm
      exact .inr (.inl ⟨by omega, by omega, h.side_withName (List.mem_of_getElem? hm)⟩)
    · rw [List.getElem?_append_right (by omega)] at hm
      exact .inr (.inr ⟨by omega, hblocks.after lib (List.mem_of_getElem? hm)⟩)

/-- The window of the binary search holds the block. -/
theorem searchLoop_eq (hblocks : T.Blocks name before after) {fuel : ℕ}
    {left right : ℤ} (hzero : 0 ≤ left) (hleft : left ≤ before.length)
    (hright : (before.length : ℤ) + (T.withName name).length ≤ right + 1)
    (hlast : right < T.libs.length) (hfuel : right + 1 - left < fuel) :
    S.searchLoop T name fuel left right =
      some (S.considerAll T (T.withName name) ⟨none, 0⟩).path := by
  induction fuel generalizing left right with
  | zero =>
    omega
  | succ fuel ih =>
    rw [Setting.searchLoop]
    have hlength := h.length_le
    by_cases hend : right < left
    · have hnil : T.withName name = [] := List.length_eq_zero_iff.mp (by omega)
      rw [if_pos hend, hnil]
      rfl
    · rw [if_neg hend, if_neg (by omega)]
      obtain ⟨m, hm⟩ := Int.eq_ofNat_of_zero_le (show 0 ≤ (left + right) / 2 by omega)
      have hlt : m < T.libs.length := by omega
      have hget := List.getElem?_eq_getElem hlt
      have hmem := List.mem_of_getElem? hget
      obtain ⟨res, hres, hsign⟩ := h.libcmp hmem
      simp only [hm, Int.toNat_natCast, hget, Option.bind_eq_bind, Option.bind_some, h.verify hmem,
        Bool.not_true, Bool.false_eq_true, if_false, hres]
      obtain ⟨hpos, hside⟩ | ⟨hpos, hpos', hside⟩ | ⟨hpos, hside⟩ := hblocks.side_getElem? h hget
      · have hneg : res < 0 := compare_lt_iff_lt.mp (hsign.trans hside)
        rw [if_neg (by omega), if_pos hneg]
        exact ih (by omega) (by omega) hright hlast (by omega)
      · obtain ⟨k, rfl⟩ := Nat.exists_eq_add_of_le hpos
        rw [if_pos (sign_eq_iff.mp (hsign.trans hside)), Table.walkBack_eq h hblocks (by omega),
          Option.bind_some, hblocks.libs, List.drop_left]
        have hlibs := congrArg List.length hblocks.libs
        simp only [List.length_append] at hlibs
        apply scan_eq h
        case hlibs => exact fun lib hlib => hblocks.libs ▸ List.mem_append_right _ hlib
        case heq => exact fun lib hlib => h.side_withName hlib
        case hafter => exact hblocks.after
        all_goals omega
      · have hgt : 0 < res := compare_gt_iff_gt.mp (hsign.trans hside)
        rw [if_neg (by omega), if_neg (by omega)]
        exact ih hzero hleft (by omega) (by omega) (by omega)

end

end Search

/-! ## Which of them is taken -/

namespace Setting
variable {S : Setting} {T : Table} {lib : FileEntry} {best : Best}

theorem consider_of_not_admits (h : S.admits T lib = false) : S.consider T lib best = (false, best) := by
  rw [admits] at h
  simp [consider, h]

theorem consider_of_not_extended (h : S.admits T lib = true) (ht : T.extended = false) :
    S.consider T lib best = S.take lib best := by
  rw [admits] at h
  simp [consider, h, ht]

theorem consider_named (h : S.admits T lib = true) (ht : T.extended = true) (hn : T.named lib = true) :
    S.consider T lib best =
      (false, if S.usable T lib ∧ (best.path = none ∨ S.entryPriority lib < best.priority) then
        ⟨some lib.value, S.entryPriority lib⟩ else best) := by
  have hflags := h
  rw [admits] at hflags
  simp only [consider, hflags, ht, hn, usable, h]
  cases S.isaLevelCompatible lib.hwcap <;> cases S.runs lib <;>
    by_cases hp : S.entryPriority lib = 0 <;> simp [hp, apply_ite (Prod.mk false)]

theorem consider_regular (h : S.admits T lib = true) (ht : T.extended = true) (hn : T.named lib = false) :
    S.consider T lib best =
      if best.path.isSome then (true, best) else if S.usable T lib then S.take lib best
      else (false, best) := by
  have hflags := h
  rw [admits] at hflags
  simp only [consider, hflags, ht, hn, usable, h]
  cases S.runs lib <;> by_cases hx : lib.hwcap &&& S.hwcapExclude = 0 <;> simp [hx]

theorem considerAll_found (ht : T.extended = true) (libs : List FileEntry) (best : Best)
    (hbest : best.path.isSome) (hzero : best.priority = 0) : S.considerAll T libs best = best := by
  induction libs with
  | nil => rfl
  | cons lib libs ih =>
    rw [considerAll]
    cases ha : S.admits T lib with
    | false => simpa [consider_of_not_admits ha] using ih
    | true =>
      cases hn : T.named lib with
      | true =>
        have hsome : best.path ≠ none := Option.isSome_iff_ne_none.mp hbest
        simpa [consider_named ha ht hn, hsome, hzero] using ih
      | false => simp [consider_regular ha ht hn, hbest]

theorem argmin_cons_cons {α : Type} (f : α → ℕ) (a b : α) (l : List α) :
    (a :: b :: l).argmin f = ((if f b < f a then b else a) :: l).argmin f := by
  simp only [List.argmin, List.foldl_cons, List.argAux]
  split_ifs <;> rfl

theorem considerAll_named (ht : T.extended = true) (libs : List FileEntry) (u : FileEntry) :
    (S.considerAll T libs ⟨some u.value, S.entryPriority u⟩).path =
      ((u :: (((libs.filter (S.admits T)).takeWhile T.named).filter (S.usable T))).argmin
        S.entryPriority).map FileEntry.value := by
  induction libs generalizing u with
  | nil => rfl
  | cons lib libs ih =>
    rw [considerAll]
    cases ha : S.admits T lib with
    | false => simpa [consider_of_not_admits ha, ha] using ih u
    | true =>
      cases hn : T.named lib with
      | false => simp [consider_regular ha ht hn, ha, hn]
      | true =>
        cases hu : S.usable T lib with
        | false => simpa [consider_named ha ht hn, hu, ha, hn] using ih u
        | true =>
          rw [List.filter_cons_of_pos ha, List.takeWhile_cons_of_pos hn, List.filter_cons_of_pos hu,
            argmin_cons_cons, consider_named ha ht hn]
          simp only [hu, true_and, reduceCtorEq, false_or, Bool.false_eq_true, if_false]
          split_ifs
          · exact ih lib
          · exact ih u

theorem considerAll_chosen (ht : T.extended = true) (libs : List FileEntry) :
    (S.considerAll T libs ⟨none, 0⟩).path = (S.chosen T libs).map FileEntry.value := by
  induction libs with
  | nil => rfl
  | cons lib libs ih =>
    rw [considerAll, chosen]
    cases ha : S.admits T lib with
    | false =>
      rw [consider_of_not_admits ha, List.filter_cons_of_neg (by simp [ha])]
      exact ih
    | true =>
      rw [List.filter_cons_of_pos ha]
      cases hu : S.usable T lib with
      | false =>
        cases hn : T.named lib with
        | true => simpa [consider_named ha ht hn, hu, chosen] using ih
        | false => simpa [consider_regular ha ht hn, hu, chosen] using ih
      | true =>
        cases hn : T.named lib with
        | true =>
          rw [consider_named ha ht hn]
          simpa [hu, hn] using considerAll_named ht libs lib
        | false =>
          have hfound := considerAll_found (S := S) ht libs ⟨some lib.value, 0⟩ rfl rfl
          simp [consider_regular ha ht hn, hu, take, hn, hfound]

/-- The old format: all that is admitted can be used, and nothing is named. -/
theorem considerAll_preferred (ht : T.extended = false) (libs : List FileEntry) (path : Option ℕ) :
    (S.considerAll T libs ⟨path, 0⟩).path =
      ((S.preferred T libs).map FileEntry.value <|> path) := by
  have husable : S.usable T = S.admits T := by
    funext lib
    simp [usable, ht]
  have hnamed : ∀ l : List FileEntry, l.filter T.named = [] := by
    intro l
    simp [List.filter_eq_nil_iff, Table.named, ht]
  simp only [preferred, hnamed, husable, List.argmin_nil, Option.orElse_eq_orElse, Option.orElse_none]
  induction libs generalizing path with
  | nil => rfl
  | cons lib libs ih =>
    rw [considerAll]
    cases ha : S.admits T lib with
    | false => simpa [consider_of_not_admits ha, ha] using ih path
    | true =>
      rw [consider_of_not_extended ha ht, take, List.filter_cons_of_pos ha]
      by_cases hflags : lib.flags = S.defaultId
      · simp [hflags]
      · simp only [beq_false_of_ne hflags, Bool.false_eq_true, if_false, ih]
        rw [List.find?_cons_of_neg (by simp [hflags])]
        cases libs.filter (S.admits T) with
        | nil => rfl
        | cons x xs =>
          cases List.find? (fun lib => lib.flags == S.defaultId) (x :: xs) with
          | none => rfl
          | some y => rfl

theorem takeWhile_eq_filter {α : Type} {p : α → Bool} {l : List α}
    (h : l.Pairwise fun a b => p b = true → p a = true) : l.takeWhile p = l.filter p := by
  induction l with
  | nil => rfl
  | cons a l ih =>
    rw [List.pairwise_cons] at h
    cases ha : p a with
    | true => rw [List.takeWhile_cons_of_pos ha, List.filter_cons_of_pos ha, ih h.2]
    | false =>
      rw [List.takeWhile_cons_of_neg (by simp [ha]), List.filter_cons_of_neg (by simp [ha])]
      refine (List.filter_eq_nil_iff.mpr fun b hb hpb => ?_).symm
      simp [h.1 b hb hpb] at ha

theorem chosen_eq_preferred (libs : List FileEntry)
    (hkind : (libs.filter (S.admits T)).Pairwise fun a b => T.named b = true → T.named a = true)
    (hflags : ∀ lib ∈ libs.filter (S.admits T), lib.flags = S.defaultId) :
    S.chosen T libs = S.preferred T libs := by
  have husable : libs.filter (S.usable T) = (libs.filter (S.admits T)).filter (S.usable T) := by
    rw [List.filter_filter]
    refine List.filter_congr fun lib _ => ?_
    cases ha : S.admits T lib <;> simp [usable, ha]
  rw [chosen, preferred, husable]
  generalize libs.filter (S.admits T) = admitted at hkind hflags
  induction admitted with
  | nil => rfl
  | cons lib rest ih =>
    rw [List.pairwise_cons] at hkind
    cases hu : S.usable T lib with
    | false =>
      rw [List.dropWhile_cons_of_pos (by simp [hu]), List.filter_cons_of_neg (by simp [hu])]
      exact ih hkind.2 fun lib hlib => hflags lib (List.mem_cons_of_mem _ hlib)
    | true =>
      rw [List.dropWhile_cons_of_neg (by simp [hu]), List.filter_cons_of_pos hu]
      cases hn : T.named lib with
      | true =>
        rw [List.filter_cons_of_pos hn, List.filter_comm, ← takeWhile_eq_filter hkind.2]
        simp only [hn, if_true]
        cases hmin : List.argmin S.entryPriority
            (lib :: List.filter (S.usable T) (rest.takeWhile T.named)) with
        | none => simp at hmin
        | some m => rfl
      | false =>
        have hnone : (rest.filter (S.usable T)).filter T.named = [] := by
          refine List.filter_eq_nil_iff.mpr fun b hb hnamed => ?_
          simp [hkind.1 b (List.mem_of_mem_filter hb) hnamed] at hn
        rw [List.filter_cons_of_neg (by simp [hn]), hnone,
          List.find?_cons_of_pos (by simp [hflags lib List.mem_cons_self])]
        simp [hn]

end Setting

/-- `search_cache` returns the path a linear scan of all entries with the name chooses. Where
all entries with the name and admitted flags have the default flags, it is a usable named
entry of least priority if there is one, and otherwise the first usable entry. -/
theorem searchCache_eq (S : Setting) (T : Table) (name : CString) (h : T.Sorted name) :
    S.searchCache T name = some ((if T.extended then S.chosen T (T.withName name)
        else S.preferred T (T.withName name)).map FileEntry.value) ∧
      ((∀ lib ∈ T.withName name, S.admits T lib = true → lib.flags = S.defaultId) →
        S.searchCache T name = some ((S.preferred T (T.withName name)).map FileEntry.value)) := by
  have hscan : S.searchCache T name = some ((if T.extended then S.chosen T (T.withName name)
      else S.preferred T (T.withName name)).map FileEntry.value) := by
    obtain ⟨before, after, hblocks⟩ := h.blocks
    have hlibs := congrArg List.length hblocks.libs
    simp only [List.length_append] at hlibs
    rw [Setting.searchCache, searchLoop_eq h hblocks (le_refl _) (by omega) (by omega) (by omega)
      (by push_cast; omega)]
    cases ht : T.extended with
    | true => rw [Setting.considerAll_chosen ht, if_pos rfl]
    | false =>
      rw [Setting.considerAll_preferred ht]
      simp
  refine ⟨hscan, fun hflags => ?_⟩
  rw [hscan]
  split_ifs with ht
  · rw [Setting.chosen_eq_preferred]
    · have hfollows : (T.withName name).Pairwise (Follows T) := h.follows.sublist List.filter_sublist
      refine List.Pairwise.imp_of_mem ?_ (hfollows.sublist List.filter_sublist)
      intro a b ha hb hab
      obtain ⟨ha, hadm⟩ := List.mem_filter.mp ha
      obtain ⟨hb, hbdm⟩ := List.mem_filter.mp hb
      have haside := Std.LawfulEqCmp.compare_eq_iff_eq.mp (h.side_withName ha)
      have hbside := Std.LawfulEqCmp.compare_eq_iff_eq.mp (h.side_withName hb)
      exact hab.named (hbside.symm.trans haside) ((hflags b hb hbdm).trans (hflags a ha hadm).symm)
    · intro lib hlib
      exact hflags lib (List.mem_of_mem_filter hlib) (List.mem_filter.mp hlib).2
  · rfl

/-! ### Two entries without the default flags -/

def libX : CString := ⟨[120], by decide⟩

/-- A machine that admits the flags 1, with one hardware capability. -/
def elfMachine : Setting where
  platforms := false
  hwcapPlatform := 0
  stringPlatform := none
  dlHwcap := 1
  hwcapMask := 1
  dlOsversion := 0
  isaLevelCompatible _ := true
  priority _ := 0
  defaultId := 3
  elfToo := true

/-- Two entries for `libX`, of which the first needs the capability. -/
def elfTable : Table where
  libs := [⟨1, 0, 2, 0, 1⟩, ⟨1, 0, 4, 0, 0⟩]
  extended := true
  size := 6
  string _ := libX

def elfEntry (hwcap : BitVec 64) (bitsHwcap : ℕ) : Entry := ⟨libX, libX, 1, 0, 0, hwcap, bitsHwcap, none⟩

theorem elfTable_sorted : elfTable.Sorted libX := by
  constructor
  case sorted =>
    refine ⟨[(elfEntry 1 1, ⟨1, 0, 2, 0, 1⟩), (elfEntry 0 0, ⟨1, 0, 4, 0, 0⟩)], rfl, ?_, ?_⟩
    · simp only [List.forall_mem_cons, List.not_mem_nil, IsEmpty.forall_iff, implies_true, and_true]
      exact ⟨⟨rfl, rfl, by decide⟩, ⟨rfl, rfl, by decide⟩⟩
    · simp only [List.pairwise_cons, List.mem_singleton, forall_eq, List.not_mem_nil,
        IsEmpty.forall_iff, implies_true, List.Pairwise.nil, and_true]
      exact ⟨-1, by decide, by decide⟩
  case inRange => decide
  case compares => decide
  case length_le => decide

/-- The first of them is returned, not the last. -/
theorem first_without_default_flags : elfTable.Sorted libX ∧
    elfMachine.searchCache elfTable libX = some (some 2) ∧
    (elfMachine.preferred elfTable (elfTable.withName libX)).map FileEntry.value = some 4 :=
  ⟨elfTable_sorted, by decide, by decide⟩

theorem searchCache_eq_elfTable : elfMachine.searchCache elfTable libX =
    some ((elfMachine.chosen elfTable (elfTable.withName libX)).map FileEntry.value) :=
  (searchCache_eq elfMachine elfTable libX elfTable_sorted).1

end AwaitGlibc.SearchCache

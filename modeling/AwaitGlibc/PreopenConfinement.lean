import AwaitGlibc.Preopen

/-!
# Where a preopened descriptor comes from

`preopen` is meant to confine an open: the descriptor it returns is the one
listed for the file itself, or was opened below the descriptor listed for the
directory of the file. Here the meaning of "the file" is set apart from the
code: the components of its name, taken from the working directory when the
name is relative.

The file list keeps its promise for absolute entries with short components; the
comparison then is equality of texts. The directory list never does. The path
given to `openat` is the directory itself, and it is absolute, so a descriptor
obtained that way is the directory by name and not the file below it.
-/
namespace AwaitGlibc.PreopenConfinement
open CText CheckedArray SystemCalls PreopenPaths PreopenLists Preopen

section Names

/-- The components a path walks through: neither empty nor `.`. -/
def components (s : Text) : List Text := (strtok '/' s).filter (· ≠ ['.'])

theorem components_append (a b : Text) :
    components (a ++ '/' :: b) = components a ++ components b := by
  simp only [components, strtok, List.splitOn_append_cons_self, List.filter_append]

theorem components_dropLast {s : Text} (h : s.getLast? = some '/') :
    components s.dropLast = components s := by
  have hs := List.dropLast_append_getLast? '/' h
  conv_rhs => rw [← hs, components_append]
  exact (List.append_nil _).symm

theorem components_pathToAppend (file : Text) :
    components (pathToAppend file) = components file := by
  unfold pathToAppend
  split_ifs with h
  · conv_rhs => rw [← List.take_append_drop 2 file, h]
    exact (components_append ['.'] (file.drop 2)).symm
  · rfl

variable {φ : Type} (K : Kernel φ)

def absoluteName (file : Text) (events : List Event) : Option (List Text) :=
  if file.head? = some '/' then some (components file)
  else
    match K.getcwd events with
    | .error _ => none
    | .ok cwd => some (components cwd.path ++ components file)

section
variable {file t : Text} {events : List Event} (h : target K file events = some t)
include h

theorem absoluteName_of_target : absoluteName K file events = some (components t) := by
  unfold target at h
  unfold absoluteName
  by_cases habs : file.head? = some '/'
  · rw [if_neg (not_not.mpr habs)] at h
    rw [if_pos habs, Option.some.inj h]
  · rw [if_pos habs] at h
    rw [if_neg habs]
    cases hcwd : K.getcwd events with
    | error e => simp [hcwd] at h
    | ok cwd =>
      have hform : components (absoluteForm cwd file) = components cwd.path ++ components file := by
        rw [absoluteForm, components_append, components_pathToAppend]
      simp only [hcwd] at h ⊢
      split_ifs at h with hlong hlast
      · rw [← hform, ← Option.some.inj h, components_dropLast hlast]
      · rw [← hform, Option.some.inj h]

theorem head?_of_target : t.head? = some '/' := by
  unfold target at h
  split_ifs at h with habs
  · cases hcwd : K.getcwd events with
    | error e => simp [hcwd] at h
    | ok cwd =>
      obtain ⟨rest, hrest⟩ := List.head?_eq_some_iff.mp cwd.absolute
      have hform : absoluteForm cwd file = '/' :: (rest ++ '/' :: pathToAppend file) := by
        rw [absoluteForm, hrest, List.cons_append]
      simp only [hcwd, hform] at h
      split_ifs at h with hlong hlast
      · rw [← Option.some.inj h, List.dropLast_cons_of_ne_nil (by simp)]
        rfl
      · rw [← Option.some.inj h]
        rfl
  · rw [← Option.some.inj h]
    exact not_not.mp habs

end

theorem removeLastComponent_isPrefix (t : Text) :
    ∃ u, removeLastComponent (some t) = some u ∧ u <+: t := by
  have htrim : t.rdropWhile (· == '/') <+: t := List.rdropWhile_prefix _ _
  unfold removeLastComponent
  cases h : beforeLast '/' (t.rdropWhile (· == '/')) with
  | none => exact ⟨[], by simp [h], List.nil_prefix⟩
  | some u => exact ⟨u, by simp [h], (beforeLast_isPrefix h).trans htrim⟩

/-- What `openat` gets from `preopen_from_dir` is absolute, if it is a path. -/
theorem head?_of_dirTarget {file p : Text} {oflag : Flags} {events : List Event}
    (h : dirTarget K file oflag events = some p) (hne : p ≠ []) : p.head? = some '/' := by
  unfold dirTarget directoryOf at h
  cases ht : target K file events with
  | none => simp [ht, removeLastComponent] at h
  | some t =>
    have habs := head?_of_target K ht
    rw [ht] at h
    split_ifs at h with hdir
    · obtain ⟨u, hu, hpre⟩ := removeLastComponent_isPrefix t
      rw [hu, Option.some.injEq] at h
      subst h
      obtain ⟨v, rfl⟩ := hpre
      rwa [List.head?_append_of_ne_nil _ hne] at habs
    · rwa [← Option.some.inj h]

end Names

section Lists

def entries : Option Text → List Text
  | none => []
  | some v => strtok ':' v

def ListedAs (paths fds : Option Text) (entry : Text) (fd : ℤ) : Prop :=
  ∃ (i : ℕ) (t : Text), (entries paths)[i]? = some entry ∧ (entries fds)[i]? = some t ∧
    fd = digitsValue t

variable {φ : Type}

/-- Two lists that pair up: as many descriptors as paths, all of them open. -/
structure Paired (paths fds : Option Text) (w : World φ) : Prop where
  length_eq : (entries paths).length = (entries fds).length
  numeral : ∀ t ∈ entries fds, IsNumeral t
  inRange : ∀ t ∈ entries fds, (digitsValue t : ℤ) ≤ intMax
  isOpen : ∀ t ∈ entries fds, w.file? (digitsValue t) ≠ none

variable {paths fds : Option Text} {w : World φ}

theorem Paired.listedFd_eq (h : Paired paths fds w) {t : Text} (ht : t ∈ entries fds) :
    listedFd t = digitsValue t := by
  have hneg : (-2 ^ 31 : ℤ) ≤ digitsValue t := by omega
  unfold listedFd
  rw [strtol_of_isNumeral (h.numeral t ht) (h.inRange t ht)]
  exact toInt_of_range hneg (h.inRange t ht)

/-- Entry `e` at `i` is the first that agrees with `t` up to a component too long for
the comparison. -/
structure FirstAlike (paths t : Option Text) (i : ℕ) (e : Text) : Prop where
  entry : (entries paths)[i]? = some e
  alike : readFields t = readFields (some e)
  first : ∀ (j : ℕ) (e' : Text), j < i → (entries paths)[j]? = some e' →
    readFields t ≠ readFields (some e')

theorem exists_firstAlike_iff (p : Text) (t : Option Text) (i : ℕ) :
    (∃ e, FirstAlike (some p) t i e) ↔ matchIndex t (strtok ':' p) (strtok ':' p).length = some i := by
  unfold matchIndex closed
  rw [List.take_left' (List.length_map ..), List.findIdx?_map, List.findIdx?_eq_some_iff_getElem]
  constructor
  · rintro ⟨e, hentry, halike, hfirst⟩
    obtain ⟨hi, rfl⟩ := List.getElem?_eq_some_iff.mp hentry
    refine ⟨hi, decide_eq_true halike, fun j hj => ?_⟩
    exact mt of_decide_eq_true (hfirst j _ hj (List.getElem?_eq_getElem (hj.trans hi)))
  · rintro ⟨hi, halike, hfirst⟩
    refine ⟨_, List.getElem?_eq_getElem hi, of_decide_eq_true halike, fun j e' hj he' => ?_⟩
    obtain ⟨hj', rfl⟩ := List.getElem?_eq_some_iff.mp he'
    exact fun h => hfirst j hj (decide_eq_true h)

/-- In paired lists the search finds the number beside the first entry that looks like
the target, never the null pointer behind the entries. -/
theorem Paired.listed_eq_some_iff (h : Paired paths fds w) {t : Option Text} {d : ℤ} :
    listed paths fds t = some d ↔
      ∃ i e n, FirstAlike paths t i e ∧ (entries fds)[i]? = some n ∧ d = digitsValue n := by
  have hnone (hp : entries paths = []) :
      ¬ ∃ i e n, FirstAlike paths t i e ∧ (entries fds)[i]? = some n ∧ d = digitsValue n := by
    rintro ⟨i, e, n, halike, -, -⟩
    have hentry := halike.entry
    simp [hp] at hentry
  have hlen := h.length_eq
  cases paths with
  | none => simpa [listed] using hnone rfl
  | some p =>
    cases fds with
    | none => simpa [listed] using hnone (List.eq_nil_of_length_eq_zero hlen)
    | some f =>
      have hlen : (strtok ':' p).length = (strtok ':' f).length := hlen
      simp only [listed, ← hlen, Option.bind_eq_some_iff, ← exists_firstAlike_iff,
        Option.map_eq_some_iff]
      constructor
      · rintro ⟨i, ⟨e, halike⟩, n, hn, rfl⟩
        exact ⟨i, e, n, halike, hn, h.listedFd_eq (List.mem_of_getElem? hn)⟩
      · rintro ⟨i, e, n, halike, hn, rfl⟩
        exact ⟨i, ⟨e, halike⟩, n, hn, h.listedFd_eq (List.mem_of_getElem? hn)⟩

theorem Paired.isOpen_of_listedAs (h : Paired paths fds w) {entry : Text} {d : ℤ}
    (hd : ListedAs paths fds entry d) : w.file? d ≠ none := by
  obtain ⟨i, t, -, ht, rfl⟩ := hd
  exact h.isOpen t (List.mem_of_getElem? ht)

end Lists

section Confinement
variable {φ : Type} (K : Kernel φ) (env : Env)

/-- The descriptor is listed for an entry with the components of the file. -/
def ByFile (file : Text) (events : List Event) (fd : ℤ) : Prop :=
  ∃ entry, ListedAs (env .files) (env .fileFds) entry fd ∧
    absoluteName K file events = some (components entry)

def directoryName (oflag : Flags) (name : List Text) : List Text :=
  if oflag &&& oDirectory = 0 then name.dropLast else name

/-- The descriptor is the result of one `openat`, on the descriptor listed for
the directory, with a relative path that leads from there to the file. -/
def ByDirectory (file : Text) (oflag : Flags) (w : World φ) (fd : ℤ) (w' : World φ) : Prop :=
  ∃ entry dirfd path mode name, ListedAs (env .paths) (env .pathFds) entry dirfd ∧
    absoluteName K file w.events = some name ∧
    components entry = directoryName oflag name ∧
    w'.events = w.events ++ [⟨.openat dirfd (some path) oflag mode, fd⟩] ∧
    path.head? ≠ some '/' ∧ components entry ++ components path = name

def Confined (file : Text) (oflag : Flags) (w : World φ) (fd : ℤ) (w' : World φ) : Prop :=
  ByFile K env file w.events fd ∨ ByDirectory K env file oflag w fd w'

/-- The first entry of the file list that looks like the target is the file, unless its
number is not positive or another entry with that number is the file. -/
def HonestFiles (file : Text) (events : List Event) : Prop :=
  ∀ i e n, FirstAlike (env .files) (target K file events) i e →
    (entries (env .fileFds))[i]? = some n → 0 < digitsValue n →
    absoluteName K file events = some (components e) ∨
      ∃ (j : ℕ) (e' n' : Text), j ≠ i ∧ (entries (env .files))[j]? = some e' ∧
        (entries (env .fileFds))[j]? = some n' ∧ digitsValue n' = digitsValue n ∧
        absoluteName K file events = some (components e')

/-- Through the directory list the kernel opens nothing, or only descriptor 0,
which `preopen` does not pass on. -/
def SilentDirectories (file : Text) (oflag : Flags) (mode : ℤ) (w : World φ) : Prop :=
  (dirOpens K env file oflag mode w).isSome → w.file? 0 = none

variable {K env} {file : Text} {oflag : Flags} {mode : ℤ} {w : World φ}

theorem preopenAnswer_of_file (oflag : Flags) (mode : ℤ)
    (h : 0 < fileAnswer K env file w.events) :
    (preopenAnswer K env file oflag mode w).1 = fileAnswer K env file w.events ∧
      (preopenAnswer K env file oflag mode w).2.events = w.events := by
  simp only [preopenAnswer, if_pos h, afterSearch_events, and_self]

theorem confined_of_file_iff (h : 0 < fileAnswer K env file w.events) :
    Confined K env file oflag w (preopenAnswer K env file oflag mode w).1
        (preopenAnswer K env file oflag mode w).2 ↔
      ByFile K env file w.events (fileAnswer K env file w.events) := by
  obtain ⟨hfd, hevents⟩ := preopenAnswer_of_file oflag mode h
  unfold Confined ByDirectory
  rw [hfd, hevents]
  refine or_iff_left ?_
  rintro ⟨_, _, _, _, _, _, _, _, happend, _⟩
  simp at happend

/-- A descriptor from a directory is the answer to an `openat` with the absolute
path of that directory. -/
theorem preopenAnswer_of_dir (hfile : ¬ 0 < fileAnswer K env file w.events)
    (h : 0 < (preopenAnswer K env file oflag mode w).1) :
    (preopenAnswer K env file oflag mode w).1 = lowestFree w.fds ∧
      ∃ dirfd path, path.head? = some '/' ∧
        (preopenAnswer K env file oflag mode w).2.events = w.events ++
          [⟨.openat dirfd (some path) oflag (dirMode oflag mode),
            (preopenAnswer K env file oflag mode w).1⟩] := by
  simp only [preopenAnswer, if_neg hfile] at h ⊢
  cases hd : dirListed K env file oflag w.events with
  | none =>
    rw [hd] at h
    exact absurd h (show ¬ (0 : ℤ) < -1 by decide)
  | some dirfd =>
    simp only [hd] at h ⊢
    by_cases hpos : 0 < (sysOpenat K (beforeOpenat K env file w) dirfd
        (dirTarget K file oflag w.events) oflag (dirMode oflag mode)).1
    · simp only [hpos, if_true] at h ⊢
      simp only [sysOpenat] at hpos ⊢
      cases ha : openatAnswer K (beforeOpenat K env file w) dirfd
          (dirTarget K file oflag w.events) oflag (dirMode oflag mode) with
      | error e =>
        rw [ha] at hpos
        exact absurd hpos (show ¬ (0 : ℤ) < -1 by decide)
      | ok f =>
        have hpath : ∃ p, dirTarget K file oflag w.events = some p ∧ p ≠ [] := by
          cases hp : dirTarget K file oflag w.events with
          | none => rw [hp] at ha; cases ha
          | some p =>
            refine ⟨p, rfl, ?_⟩
            rintro rfl
            rw [hp] at ha
            cases ha
        obtain ⟨p, hp, hne⟩ := hpath
        simp only [World.answer, World.opened, beforeOpenat_fds, beforeOpenat_events, hp,
          true_and]
        exact ⟨dirfd, p, head?_of_dirTarget K hp hne, rfl⟩
    · simp only [hpos, if_false] at h
      exact absurd h (by decide)

/-- Such a descriptor is fresh and its path absolute, so it is not confined. -/
theorem not_confined_of_dir (hfiles : Paired (env .files) (env .fileFds) w)
    (hfile : ¬ 0 < fileAnswer K env file w.events)
    (h : 0 < (preopenAnswer K env file oflag mode w).1) :
    ¬ Confined K env file oflag w (preopenAnswer K env file oflag mode w).1
      (preopenAnswer K env file oflag mode w).2 := by
  obtain ⟨hfd, dirfd, path, habs, hevents⟩ := preopenAnswer_of_dir hfile h
  rintro (⟨entry, hlisted, -⟩ | ⟨_, _, path', _, _, -, -, -, hcall, hrel, -⟩)
  · refine hfiles.isOpen_of_listedAs hlisted ?_
    rw [hfd]
    exact file?_lowestFree w.fds
  · rw [hevents] at hcall
    have hsame := List.append_cancel_left hcall
    simp only [List.cons.injEq, Event.mk.injEq, Request.openat.injEq, Option.some.injEq] at hsame
    exact hrel (hsame.1.1.2.1 ▸ habs)

theorem fileAnswer_pos_iff (events : List Event) :
    0 < fileAnswer K env file events ↔
      ∃ d, listed (env .files) (env .fileFds) (target K file events) = some d ∧ 0 < d := by
  unfold fileAnswer
  cases listed (env .files) (env .fileFds) (target K file events) with
  | none => simp
  | some d => simp

theorem honestFiles_iff (hfiles : Paired (env .files) (env .fileFds) w) (events : List Event) :
    HonestFiles K env file events ↔
      ∀ d, listed (env .files) (env .fileFds) (target K file events) = some d → 0 < d →
        ByFile K env file events d := by
  have hby {i : ℕ} {e n : Text} (he : (entries (env .files))[i]? = some e)
      (hn : (entries (env .fileFds))[i]? = some n) :
      ByFile K env file events (digitsValue n) ↔
        absoluteName K file events = some (components e) ∨
          ∃ (j : ℕ) (e' n' : Text), j ≠ i ∧ (entries (env .files))[j]? = some e' ∧
            (entries (env .fileFds))[j]? = some n' ∧ digitsValue n' = digitsValue n ∧
            absoluteName K file events = some (components e') := by
    constructor
    · rintro ⟨e', ⟨j, n', he', hn', heq⟩, hname⟩
      by_cases hj : j = i
      · rw [hj, he, Option.some.injEq] at he'
        exact .inl (he' ▸ hname)
      · exact .inr ⟨j, e', n', hj, he', hn', (Int.ofNat.inj heq).symm, hname⟩
    · rintro (hname | ⟨j, e', n', -, he', hn', heq, hname⟩)
      · exact ⟨e, ⟨i, n, he, hn, rfl⟩, hname⟩
      · exact ⟨e', ⟨j, n', he', hn', by rw [heq]⟩, hname⟩
  simp only [HonestFiles, hfiles.listed_eq_some_iff]
  constructor
  · rintro h d ⟨i, e, n, halike, hn, rfl⟩ hpos
    exact (hby halike.entry hn).mpr (h i e n halike hn (Int.natCast_pos.mp hpos))
  · intro h i e n halike hn hpos
    exact (hby halike.entry hn).mp (h _ ⟨i, e, n, halike, hn, rfl⟩ (Int.natCast_pos.mpr hpos))

/-- Under paired lists `preopen` returns, with a confined descriptor or none, exactly
when the lists it reads fit its arrays, the file list is honest about the target and
the directory list stays silent. -/
theorem preopen_confined_iff (hfiles : Paired (env .files) (env .fileFds) w) :
    (∃ fd w', preopen K env file oflag mode w = .ok (fd, w') ∧
        (0 < fd → Confined K env file oflag w fd w')) ↔
      InBounds K env file oflag w.events ∧ HonestFiles K env file w.events ∧
        SilentDirectories K env file oflag mode w := by
  by_cases hin : InBounds K env file oflag w.events
  swap
  · obtain ⟨e, he⟩ := preopen_fault K env mode hin
    simp [hin, he]
  have hall : (∃ fd w', preopen K env file oflag mode w = .ok (fd, w') ∧
        (0 < fd → Confined K env file oflag w fd w')) ↔
      (0 < (preopenAnswer K env file oflag mode w).1 →
        Confined K env file oflag w (preopenAnswer K env file oflag mode w).1
          (preopenAnswer K env file oflag mode w).2) := by
    rw [preopen_eq K env mode hin]
    constructor
    · rintro ⟨fd, w', hr, h⟩
      rw [Except.ok.inj hr]
      exact h
    · exact fun h => ⟨_, _, rfl, h⟩
  rw [hall, and_iff_right hin, honestFiles_iff hfiles]
  have hzero := lowestFree_eq_zero_iff w.fds
  by_cases hfile : 0 < fileAnswer K env file w.events
  · have hdir : dirOpens K env file oflag mode w = none := by rw [dirOpens, if_pos hfile]
    rw [(preopenAnswer_of_file oflag mode hfile).1, imp_iff_right hfile,
      ← (preopenAnswer_of_file oflag mode hfile).1, confined_of_file_iff hfile]
    have hsilent : SilentDirectories K env file oflag mode w := by simp [SilentDirectories, hdir]
    rw [and_iff_left hsilent]
    obtain ⟨d, hd, hpos⟩ := (fileAnswer_pos_iff w.events).mp hfile
    unfold fileAnswer
    rw [hd]
    simp [hpos]
  · have hhonest : ∀ d, listed (env .files) (env .fileFds) (target K file w.events) = some d →
        0 < d → ByFile K env file w.events d :=
      fun d hd hpos => (hfile ((fileAnswer_pos_iff w.events).mpr ⟨d, hd, hpos⟩)).elim
    rw [and_iff_right hhonest]
    have hnever : (0 < (preopenAnswer K env file oflag mode w).1 →
        Confined K env file oflag w (preopenAnswer K env file oflag mode w).1
          (preopenAnswer K env file oflag mode w).2) ↔
        ¬ 0 < (preopenAnswer K env file oflag mode w).1 :=
      ⟨fun h hpos => not_confined_of_dir hfiles hfile hpos (h hpos), fun h hpos => (h hpos).elim⟩
    rw [hnever, preopenAnswer_fst, if_neg hfile]
    unfold SilentDirectories World.file?
    rw [← hzero]
    cases dirOpens K env file oflag mode w with
    | none => simp
    | some f =>
      by_cases h₀ : lowestFree w.fds = 0
      · simp [h₀]
      · simp [h₀, Nat.pos_of_ne_zero h₀]

/-- An absolute path whose components all fit the comparison buffer. -/
def Plain (s : Text) : Prop :=
  s.head? = some '/' ∧ ∀ f ∈ fields (some s), f.length < maxPathLen

theorem Plain.eq_of_readFields_eq {s t : Text} (hs : Plain s) (ht : Plain t)
    (h : readFields (some s) = readFields (some t)) : s = t := by
  have hread : ∀ {u : Text}, Plain u → readFields (some u) = (u.drop 1).splitOn '/' := by
    intro u hu
    exact List.takeWhile_eq_self_iff.mpr (by simpa using hu.2)
  have htext : ∀ {u : Text}, Plain u → '/' :: u.drop 1 = u := by
    intro u hu
    obtain ⟨v, rfl⟩ := List.head?_eq_some_iff.mp hu.1
    rfl
  rw [hread hs, hread ht] at h
  have hjoin := congrArg ['/'].intercalate h
  rw [List.intercalate_splitOn, List.intercalate_splitOn] at hjoin
  rw [← htext hs, ← htext ht, hjoin]

theorem honestFiles_of_plain (hentries : ∀ e ∈ entries (env .files), Plain e) {t : Text}
    (htarget : target K file w.events = some t) (ht : Plain t) :
    HonestFiles K env file w.events := by
  intro i e n halike hn _
  have he := hentries e (List.mem_of_getElem? halike.entry)
  have hread := halike.alike
  rw [htarget] at hread
  left
  rw [absoluteName_of_target K htarget, ht.eq_of_readFields_eq he hread]

end Confinement

section Runs

/-- A kernel that grants every request of a process working in `/a`. -/
def granting : Kernel Unit where
  openat _ _ _ _ _ := .ok ()
  openPath _ _ _ _ := .ok ()
  write _ _ data := .ok data.length
  close _ _ := none
  getcwd _ := .ok ⟨['/', 'a'], rfl, by decide⟩

def oneFile : Env
  | .files => some ['/', 'a', '/', 'b']
  | .fileFds => some ['2']
  | _ => none

theorem oneFile_paired : Paired (oneFile .files) (oneFile .fileFds) startWorld where
  length_eq := rfl
  numeral := by decide
  inRange := by decide
  isOpen := by decide

/-- A relative name that the file list has in its absolute form. -/
theorem oneFile_confined :
    Paired (oneFile .files) (oneFile .fileFds) startWorld ∧
      ∃ fd w', preopen granting oneFile ['b'] 0 0 startWorld = .ok (fd, w') ∧
        (0 < fd → Confined granting oneFile ['b'] 0 startWorld fd w') := by
  have hplain : Plain ['/', 'a', '/', 'b'] := ⟨rfl, by decide⟩
  refine ⟨oneFile_paired, (preopen_confined_iff oneFile_paired).mpr ⟨by decide +kernel, ?_, ?_⟩⟩
  · refine honestFiles_of_plain ?_ (by decide : _ = some ['/', 'a', '/', 'b']) hplain
    intro e he
    rw [List.mem_singleton.mp he]
    exact hplain
  · intro h
    exact absurd h (by decide +kernel)

def oneDirectory : Env
  | .paths => some ['/', 'a']
  | .pathFds => some ['2']
  | _ => none

/-- Asked for `/a/b`, `preopen` opens `/a` by its absolute name. -/
theorem oneDirectory_not_confined :
    Paired (oneDirectory .files) (oneDirectory .fileFds) startWorld ∧
      Paired (oneDirectory .paths) (oneDirectory .pathFds) startWorld ∧
      ¬ ∃ fd w', preopen granting oneDirectory ['/', 'a', '/', 'b'] 0 0 startWorld = .ok (fd, w') ∧
        (0 < fd → Confined granting oneDirectory ['/', 'a', '/', 'b'] 0 startWorld fd w') := by
  have hfiles : Paired (oneDirectory .files) (oneDirectory .fileFds) startWorld :=
    ⟨rfl, by decide, by decide, by decide⟩
  refine ⟨hfiles, ⟨rfl, by decide, by decide, by decide⟩, ?_⟩
  rintro ⟨fd, w', hrun, h⟩
  have hpos : 0 < (preopenAnswer granting oneDirectory ['/', 'a', '/', 'b'] 0 0 startWorld).1 := by
    decide +kernel
  rw [preopen_eq granting oneDirectory 0 (by decide +kernel), Except.ok.injEq, Prod.ext_iff] at hrun
  obtain ⟨rfl, rfl⟩ := hrun
  exact not_confined_of_dir hfiles (by decide +kernel) hpos (h hpos)

end Runs

end AwaitGlibc.PreopenConfinement

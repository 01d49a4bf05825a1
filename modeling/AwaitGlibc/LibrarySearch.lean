import AwaitGlibc.LibraryPaths

/-!
# The library search of `_dl_map_object`

For a name without a slash `_dl_map_object` consults its sources one after the
other: the descriptors of `LD_LIBRARY_PATH_FDS`, the RPATHs of the loading
object and of its loaders, the RPATH of the main program, `LD_LIBRARY_PATH`,
the RUNPATH of the loading object, the cache and the default directories. Every
source but one is guarded by `fd == -1`. The exception is the loop over the
RPATHs, which was the first source before the descriptors were put in front of
it.

The state of a search path is shared between calls: not yet computed, removed,
or a list of directories. Expansion of the tags, the cache lookup and the
system-dependent hook, which does nothing here, are parameters.
-/
namespace AwaitGlibc.LibrarySearch
open CText CheckedArray SystemCalls CandidateSearch OpenatPaths LibraryPaths

/-- A search path: `dirs` is NULL, -1 or a list that is not empty. -/
inductive SearchPath where
  | unset
  | removed
  | dirs (first : Text) (rest : List Text)
deriving DecidableEq, Repr

def SearchPath.toList : SearchPath → List Text
  | .dirs first rest => first :: rest
  | _ => []

/-- The parts of a link map the search reads. A tag is given by the directories
it expands to. `auditing` belongs to the first map of its namespace. -/
structure LinkMap where
  rpath : Option (List Text)
  runpath : Option (List Text)
  noDefaultLib : Bool
  isLoaded : Bool
  auditing : Bool

/-- One call: the loading map with its loaders, the first maps of the base
namespace and of the namespace of the call, the mode bits and global data. -/
structure Call where
  maps : ℕ → LinkMap
  chain : List ℕ
  mainMap : Option ℕ
  nsLoaded : Option ℕ
  rtldMap : LinkMap
  caps : List Text
  modeSecure : Bool
  modeAudit : Bool
  enableSecure : Bool
  inhibitCache : Bool
  loadCacheLookup : Text → Option Text
  systemDirs : List Text
  envPathList : SearchPath
  searchDirs : SearchPath
  chain_nodup : chain.Nodup

def Call.loader (c : Call) : Option ℕ := c.chain.head?

def Call.needsSuid (c : Call) : Bool := c.modeSecure && c.enableSecure

def Call.rules (c : Call) (loader : Option ℕ) : PathRules where
  caps := c.caps
  auditing := loader.any fun l => (c.maps l).auditing
  needsSuid := c.needsSuid

/-- What outlives a call besides the search itself. -/
structure Loader (φ : Type) where
  search : Search φ
  rpathDirs : ℕ → SearchPath
  runpathDirs : ℕ → SearchPath

/-- `cache_rpath`: compute a path that has not been computed. There are
directories to search exactly when the result is a list. -/
def cacheRpath (tag : Option (List Text)) : SearchPath → SearchPath
  | .unset =>
    match tag with
    | some (first :: rest) => .dirs first rest
    | _ => .removed
  | p => p

def Loader.setRpath {φ : Type} (σ : Loader φ) (l : ℕ) (p : SearchPath) : Loader φ :=
  { σ with rpathDirs := fun m => if m = l then p else σ.rpathDirs m }

def Loader.setRunpath {φ : Type} (σ : Loader φ) (l : ℕ) (p : SearchPath) : Loader φ :=
  { σ with runpathDirs := fun m => if m = l then p else σ.runpathDirs m }

def Loader.setSearch {φ : Type} (σ : Loader φ) (s : Search φ) : Loader φ := { σ with search := s }

def keepIf (any : Bool) (p : SearchPath) : SearchPath := if any then p else .removed

section Model
variable {φ : Type} (K : Kernel φ) (D : Disk φ) (c : Call) (name : Text)

/-- `open_path`, which is called before the paths are set up as well. -/
def openPath (loader : Option ℕ) (sps : SearchPath) (s : Search φ) :
    Except (Stop φ) (ℤ × Bool × Search φ) :=
  match sps with
  | .dirs first rest => openDirs K D (c.rules loader) name (first :: rest) false s
  | _ => .ok (-1, true, s)

/-- The descriptor list. A descriptor 0 is not verified. -/
def openatSource (openatPaths : Option (Block ℤ)) (s : Search φ) :
    Except (Stop φ) (ℤ × Search φ) :=
  match openatSearch K name openatPaths s.world with
  | .error f => .error (.fault f)
  | .ok (fd, w) =>
    if 0 < fd then do
      let (fd, s) ← openVerify K D name fd { s with world := w }
      return (fd, { s with realname := some name })
    else .ok (fd, { s with world := w })

/-- The loop over the loader and its loaders. The incoming descriptor is not
looked at. -/
def rpathLoop : List ℕ → ℤ → Bool → Loader φ → Except (Stop φ) (ℤ × Bool × Loader φ)
  | [], fd, didMainMap, σ => .ok (fd, didMainMap, σ)
  | l :: ls, fd, didMainMap, σ =>
    let p := cacheRpath (c.maps l).rpath (σ.rpathDirs l)
    if p.toList = [] then rpathLoop ls fd didMainMap (σ.setRpath l p)
    else do
      let (fd, any, s) ← openPath K D c name c.loader p σ.search
      let σ := (σ.setSearch s).setRpath l (keepIf any p)
      if fd ≠ -1 then return (fd, didMainMap, σ)
      rpathLoop ls fd (didMainMap || c.mainMap = some l) σ

/-- The RPATH of the main program, if it has not been searched yet. -/
def mainRpathSource (fd : ℤ) (didMainMap : Bool) (σ : Loader φ) :
    Except (Stop φ) (ℤ × Loader φ) :=
  match c.mainMap with
  | none => .ok (fd, σ)
  | some m =>
    let p := cacheRpath (c.maps m).rpath (σ.rpathDirs m)
    if fd = -1 ∧ didMainMap = false ∧ (c.maps m).isLoaded = false then
      if p.toList = [] then .ok (fd, σ.setRpath m p)
      else do
        let (fd, any, s) ← openPath K D c name (c.loader.or (some m)) p σ.search
        return (fd, (σ.setSearch s).setRpath m (keepIf any p))
    else .ok (fd, σ)

/-- For audit modules the RUNPATH of the main program counts, in a path that is
not kept. -/
def auditRunpathSource (fd : ℤ) (didMainMap : Bool) (σ : Loader φ) :
    Except (Stop φ) (ℤ × Loader φ) :=
  match c.mainMap with
  | none => .ok (fd, σ)
  | some m =>
    if c.modeAudit ∧ fd = -1 ∧ didMainMap = false ∧ (c.maps m).isLoaded = false then do
      let p := cacheRpath (c.maps m).runpath .unset
      let (fd, _, s) ← openPath K D c name (c.loader.or (some m)) p σ.search
      return (fd, σ.setSearch s)
    else .ok (fd, σ)

def Call.usesRpath (c : Call) : Bool :=
  match c.loader with
  | none => true
  | some l => (c.maps l).runpath.isNone

def rpathSource (fd : ℤ) (σ : Loader φ) : Except (Stop φ) (ℤ × Loader φ) :=
  if c.usesRpath then do
    let (fd, didMainMap, σ) ← rpathLoop K D c name c.chain fd false σ
    let (fd, σ) ← mainRpathSource K D c name fd didMainMap σ
    auditRunpathSource K D c name fd didMainMap σ
  else .ok (fd, σ)

def envSource (fd : ℤ) (σ : Loader φ) : Except (Stop φ) (ℤ × Loader φ) :=
  if fd = -1 then do
    let (fd, _, s) ← openPath K D c name (c.loader.or c.mainMap) c.envPathList σ.search
    return (fd, σ.setSearch s)
  else .ok (fd, σ)

def runpathSource (fd : ℤ) (σ : Loader φ) : Except (Stop φ) (ℤ × Loader φ) :=
  match c.loader with
  | none => .ok (fd, σ)
  | some l =>
    let p := cacheRpath (c.maps l).runpath (σ.runpathDirs l)
    if fd = -1 then
      if p.toList = [] then .ok (fd, σ.setRunpath l p)
      else do
        let (fd, any, s) ← openPath K D c name (some l) p σ.search
        return (fd, (σ.setSearch s).setRunpath l (keepIf any p))
    else .ok (fd, σ)

/-- The entry of the cache, unless the mode forbids it or it lies in a default
directory that the loading object must not use. -/
def Call.cacheEntry (c : Call) (name : Text) : Option Text :=
  if (c.modeSecure && c.enableSecure) || c.inhibitCache then none
  else
    (c.loadCacheLookup name).filter fun cached =>
      !((match c.loader.or c.mainMap with
          | some l => (c.maps l).noDefaultLib
          | none => c.rtldMap.noDefaultLib) &&
        c.systemDirs.any (fun dir => dir.isPrefixOf cached))

def cacheSource (fd : ℤ) (σ : Loader φ) : Except (Stop φ) (ℤ × Loader φ) :=
  if fd = -1 then
    match c.cacheEntry name with
    | none => .ok (fd, σ)
    | some cached => do
        let (fd, s) ← openVerify K D cached (-1) σ.search
        if fd ≠ -1 then return (fd, σ.setSearch { s with realname := some cached })
        return (fd, σ.setSearch s)
  else .ok (fd, σ)

/-- The default directories are for objects that do not opt out of them. -/
def Call.usesDefault (c : Call) : Bool :=
  match c.loader.or c.nsLoaded with
  | none => true
  | some l => !(c.maps l).noDefaultLib

def defaultSource (fd : ℤ) (σ : Loader φ) : Except (Stop φ) (ℤ × Loader φ) :=
  if fd = -1 ∧ c.usesDefault then do
    let (fd, _, s) ← openPath K D c name (c.loader.or c.nsLoaded) c.searchDirs σ.search
    return (fd, σ.setSearch s)
  else .ok (fd, σ)

def searchRest (fd : ℤ) (σ : Loader φ) : Except (Stop φ) (ℤ × Loader φ) := do
  let (fd, σ) ← rpathSource K D c name fd σ
  let (fd, σ) ← envSource K D c name fd σ
  let (fd, σ) ← runpathSource K D c name fd σ
  let (fd, σ) ← cacheSource K D c name fd σ
  defaultSource K D c name fd σ

/-- The header buffer and the name of the hit are locals of a call. -/
def freshSearch (s : Search φ) : Search φ :=
  { s with fb := none, realname := none, foundOtherClass := false }

/-- The search for a name without a slash. -/
def searchLibrary (openatPaths : Option (Block ℤ)) (σ : Loader φ) :
    Except (Stop φ) (ℤ × Loader φ) := do
  let (fd, s) ← openatSource K D name openatPaths (freshSearch σ.search)
  searchRest K D c name fd (σ.setSearch s)

end Model

section Candidates
variable {φ : Type} (c : Call) (name : Text) (σ : Loader φ)

def rpathDirsOf (l : ℕ) : List Text := (cacheRpath (c.maps l).rpath (σ.rpathDirs l)).toList

/-- The main program is among the loaders and its RPATH has been searched. -/
def searchedMain : Bool :=
  match c.mainMap with
  | none => false
  | some m => c.chain.contains m && !(rpathDirsOf c σ m).isEmpty

def rpathCandidates : List Candidate :=
  c.chain.flatMap fun l => pathCandidates c.caps (rpathDirsOf c σ l)

/-- The main program's paths count unless searched already, and only for a
program that the kernel has mapped. -/
def mainCandidates (dirs : ℕ → List Text) : List Candidate :=
  match c.mainMap with
  | none => []
  | some m =>
    if searchedMain c σ || (c.maps m).isLoaded then [] else pathCandidates c.caps (dirs m)

def auditDirs (m : ℕ) : List Text :=
  if c.modeAudit then (cacheRpath (c.maps m).runpath .unset).toList else []

def runpathCandidates : List Candidate :=
  match c.loader with
  | none => []
  | some l =>
    pathCandidates c.caps (cacheRpath (c.maps l).runpath (σ.runpathDirs l)).toList

def defaultCandidates : List Candidate :=
  if c.usesDefault then pathCandidates c.caps c.searchDirs.toList else []

/-- Where the library is looked for behind the descriptor list, in order. -/
def restCandidates : List Candidate :=
  (if c.usesRpath then
    rpathCandidates c σ ++
      (mainCandidates c σ (rpathDirsOf c σ) ++ mainCandidates c σ (auditDirs c))
  else []) ++
    (pathCandidates c.caps c.envPathList.toList ++
      (runpathCandidates c σ ++
        ((c.cacheEntry name).toList.map .cached ++ defaultCandidates c)))

variable {c name σ} {cand : Candidate}

theorem request_of_mem_pathCandidates {caps dirs : List Text} (h : cand ∈ pathCandidates caps dirs) :
    cand.request name = pathRequest (cand.realname name) := by
  obtain ⟨dir, -, hdir⟩ := List.mem_flatMap.mp h
  obtain ⟨cap, -, rfl⟩ := List.mem_map.mp hdir
  rfl

theorem request_of_mem_mainCandidates {dirs : ℕ → List Text} (h : cand ∈ mainCandidates c σ dirs) :
    cand.request name = pathRequest (cand.realname name) := by
  unfold mainCandidates at h
  split at h
  next => cases h
  next =>
    split_ifs at h
    · cases h
    · exact request_of_mem_pathCandidates h

theorem request_of_mem_restCandidates (h : cand ∈ restCandidates c name σ) :
    cand.request name = pathRequest (cand.realname name) := by
  simp only [restCandidates, List.mem_append] at h
  rcases h with h | h | h | h | h
  · split_ifs at h
    · simp only [rpathCandidates, List.mem_append, List.mem_flatMap] at h
      rcases h with ⟨l, -, h⟩ | h | h
      · exact request_of_mem_pathCandidates h
      · exact request_of_mem_mainCandidates h
      · exact request_of_mem_mainCandidates h
    · cases h
  · exact request_of_mem_pathCandidates h
  · unfold runpathCandidates at h
    split at h
    next => cases h
    next => exact request_of_mem_pathCandidates h
  · obtain ⟨file, -, rfl⟩ := List.mem_map.mp h
    rfl
  · unfold defaultCandidates at h
    split_ifs at h
    · exact request_of_mem_pathCandidates h
    · cases h

end Candidates

section Sources
variable {φ : Type} {fs : FileSystem φ} {c : Call} {name : Text} {known : Text → Text → Prop}
  {σ : Loader φ}

/-- The run returns, has searched the candidates from `s` on, and leaves a state
with `Q`. -/
def Finds (fs : FileSystem φ) (c : Call) (name : Text) (known : Text → Text → Prop)
    (Q : Loader φ → Prop) (cs : List Candidate) (s : Search φ)
    (run : Except (Stop φ) (ℤ × Loader φ)) : Prop :=
  ∃ fd σ', run = .ok (fd, σ') ∧ Q σ' ∧ Searched fs c.needsSuid name known cs s fd σ'.search

/-- A step of the search that is guarded by `fd == -1` continues one that found
nothing and leaves any other alone. -/
theorem searched_then {cs ds : List Candidate} {s : Search φ} {fd : ℤ}
    {run : Except (Stop φ) (ℤ × Loader φ)} {Q : Loader φ → Prop}
    (h : Searched fs c.needsSuid name known cs s fd σ.search) (hσ : Q σ)
    (hskip : fd ≠ -1 → run = .ok (fd, σ))
    (hnext : fd = -1 → Finds fs c name known Q ds σ.search run) :
    Finds fs c name known Q (cs ++ ds) s run := by
  by_cases hfd : fd = -1
  · obtain ⟨fd', σ', hrun, hkept, hsearched⟩ := hnext hfd
    exact ⟨fd', σ', hrun, hkept, h.append_of_none hfd hsearched⟩
  · exact ⟨fd, σ, hskip hfd, hσ, h.append_of_found hfd ds⟩

theorem openPath_searched (loader : Option ℕ) (sps : SearchPath) {s : Search φ}
    (hrec : Recorded fs c.needsSuid name known s) :
    ∃ fd any s', openPath fs.kernel fs.disk c name loader sps s = .ok (fd, any, s') ∧
      Searched fs c.needsSuid name known (pathCandidates c.caps sps.toList) s fd s' := by
  cases sps with
  | unset => exact ⟨-1, true, s, rfl, .nil hrec⟩
  | removed => exact ⟨-1, true, s, rfl, .nil hrec⟩
  | dirs first rest =>
    exact openDirs_searched (R := c.rules loader) (first :: rest) false hrec

theorem cacheRpath_cacheRpath (tag : Option (List Text)) (p : SearchPath) :
    cacheRpath tag (cacheRpath tag p) = cacheRpath tag p := by
  cases p with
  | unset =>
    rcases tag with _ | (_ | ⟨first, rest⟩) <;> rfl
  | removed => rfl
  | dirs first rest => rfl

theorem rpathDirsOf_setRpath_of_ne {l m : ℕ} (h : m ≠ l) (p : SearchPath) :
    rpathDirsOf c (σ.setRpath l p) m = rpathDirsOf c σ m := by
  simp only [rpathDirsOf, Loader.setRpath, if_neg h]

theorem rpathDirsOf_setRpath_cached (σ : Loader φ) (l m : ℕ) :
    rpathDirsOf c (σ.setRpath l (cacheRpath (c.maps l).rpath (σ.rpathDirs l))) m =
      rpathDirsOf c σ m := by
  by_cases hm : m = l
  · subst hm
    simp only [rpathDirsOf, Loader.setRpath, if_true, cacheRpath_cacheRpath]
  · exact rpathDirsOf_setRpath_of_ne hm _

/-- What the loop over the RPATHs leaves for the main program: maps that are not
in the chain, and those without directories, are as before. -/
def RpathKept (c : Call) (ls : List ℕ) (σ σ' : Loader φ) : Prop :=
  σ'.runpathDirs = σ.runpathDirs ∧
    ∀ m, m ∉ ls ∨ rpathDirsOf c σ m = [] → rpathDirsOf c σ' m = rpathDirsOf c σ m

/-- What the loop over the RPATHs finds and whether it has met the main program. -/
def LoopFinds (fs : FileSystem φ) (c : Call) (name : Text) (known : Text → Text → Prop)
    (ls : List ℕ) (did : Bool) (σ : Loader φ)
    (run : Except (Stop φ) (ℤ × Bool × Loader φ)) : Prop :=
  ∃ fd did' σ', run = .ok (fd, did', σ') ∧
    Searched fs c.needsSuid name known
      (ls.flatMap fun l => pathCandidates c.caps (rpathDirsOf c σ l)) σ.search fd σ'.search ∧
    RpathKept c ls σ σ' ∧
    (fd = -1 → (did' = true ↔
      did = true ∨ ∃ l ∈ ls, c.mainMap = some l ∧ rpathDirsOf c σ l ≠ []))

theorem LoopFinds.cons {l : ℕ} {ls : List ℕ} {did did₁ : Bool} {σ₁ : Loader φ}
    {run : Except (Stop φ) (ℤ × Bool × Loader φ)} (hl : l ∉ ls) (hkept : RpathKept c [l] σ σ₁)
    (hone : Searched fs c.needsSuid name known (pathCandidates c.caps (rpathDirsOf c σ l))
      σ.search (-1) σ₁.search)
    (hdid₁ : did₁ = true ↔ did = true ∨ c.mainMap = some l ∧ rpathDirsOf c σ l ≠ [])
    (h : LoopFinds fs c name known ls did₁ σ₁ run) :
    LoopFinds fs c name known (l :: ls) did σ run := by
  obtain ⟨fd, did', σ', hrun, hsearched, hkept', hdid⟩ := h
  have hrest : ∀ m ∈ ls, rpathDirsOf c σ₁ m = rpathDirsOf c σ m := by
    intro m hm
    refine hkept.2 m (.inl fun hml => hl ?_)
    rwa [← List.mem_singleton.mp hml]
  have hcands : (ls.flatMap fun m => pathCandidates c.caps (rpathDirsOf c σ₁ m)) =
      ls.flatMap fun m => pathCandidates c.caps (rpathDirsOf c σ m) :=
    List.flatMap_congr fun m hm => by rw [hrest m hm]
  rw [hcands] at hsearched
  refine ⟨fd, did', σ', hrun, ?_, ⟨hkept'.1.trans hkept.1, fun m hm => ?_⟩, fun hfd => ?_⟩
  · exact hone.append_of_none rfl hsearched
  · rw [List.mem_cons, not_or] at hm
    have hone := hkept.2 m (hm.imp_left fun h => by simpa using h.1)
    rw [hkept'.2 m (hm.imp And.right hone.trans), hone]
  · have hex : (∃ m ∈ ls, c.mainMap = some m ∧ rpathDirsOf c σ₁ m ≠ []) ↔
        ∃ m ∈ ls, c.mainMap = some m ∧ rpathDirsOf c σ m ≠ [] :=
      exists_congr fun m => and_congr_right fun hm => by rw [hrest m hm]
    rw [hdid hfd, hdid₁, hex]
    simp [or_assoc]

theorem rpathLoop_searched (ls : List ℕ) (hnodup : ls.Nodup) (did : Bool)
    (hrec : Recorded fs c.needsSuid name known σ.search) :
    LoopFinds fs c name known ls did σ (rpathLoop fs.kernel fs.disk c name ls (-1) did σ) := by
  induction ls generalizing did σ with
  | nil => exact ⟨-1, did, σ, rfl, .nil hrec, ⟨rfl, fun _ _ => rfl⟩, fun _ => by simp⟩
  | cons l ls ih =>
    obtain ⟨hl, hls⟩ := List.nodup_cons.mp hnodup
    change LoopFinds _ _ _ _ _ _ _ (if rpathDirsOf c σ l = [] then _ else _)
    by_cases hnil : rpathDirsOf c σ l = []
    · rw [if_pos hnil]
      refine LoopFinds.cons hl ?_ ?_ ?_ (ih hls did ?_)
      · exact ⟨rfl, fun m _ => rpathDirsOf_setRpath_cached σ l m⟩
      · rw [hnil]
        exact .nil hrec
      · simp [hnil]
      · exact hrec
    · obtain ⟨fd, any, s, hopen, hsearched⟩ := openPath_searched c.loader
        (cacheRpath (c.maps l).rpath (σ.rpathDirs l)) hrec
      have hother : ∀ {m : ℕ}, m ≠ l → rpathDirsOf c ((σ.setSearch s).setRpath l
          (keepIf any (cacheRpath (c.maps l).rpath (σ.rpathDirs l)))) m = rpathDirsOf c σ m :=
        fun hm => rpathDirsOf_setRpath_of_ne hm _
      rw [if_neg hnil, hopen]
      simp only [bind, Except.bind]
      by_cases hfd : fd = -1
      · rw [if_neg (not_not.mpr hfd), hfd]
        refine LoopFinds.cons hl ⟨?_, fun m hm => hother ?_⟩ ?_ ?_ (ih hls _ ?_)
        · rfl
        · rintro rfl
          exact hm.elim (fun h => h (List.mem_singleton_self m)) hnil
        · exact hfd ▸ hsearched
        · simp [hnil]
        · exact hsearched.recorded
      · rw [if_pos hfd]
        refine ⟨fd, did, _, rfl, ?_, ⟨rfl, fun m hm => hother ?_⟩, fun h => (hfd h).elim⟩
        · exact hsearched.append_of_found hfd _
        · rintro rfl
          exact hm.elim (fun h => h List.mem_cons_self) hnil

def mainUnless (c : Call) (did : Bool) (dirs : ℕ → List Text) : List Candidate :=
  match c.mainMap with
  | none => []
  | some m => if did || (c.maps m).isLoaded then [] else pathCandidates c.caps (dirs m)

section Recorded
variable (hrec : Recorded fs c.needsSuid name known σ.search)
include hrec

theorem envSource_searched :
    Finds fs c name known (·.runpathDirs = σ.runpathDirs)
      (pathCandidates c.caps c.envPathList.toList) σ.search
      (envSource fs.kernel fs.disk c name (-1) σ) := by
  obtain ⟨fd, any, s', hrun, hsearched⟩ :=
    openPath_searched (c.loader.or c.mainMap) c.envPathList hrec
  refine ⟨fd, σ.setSearch s', ?_, rfl, hsearched⟩
  simp only [envSource, if_true, hrun, bind, Except.bind, pure, Except.pure]

theorem defaultSource_searched :
    Finds fs c name known (fun _ => True) (defaultCandidates c) σ.search
      (defaultSource fs.kernel fs.disk c name (-1) σ) := by
  unfold defaultSource defaultCandidates
  cases c.usesDefault with
  | false => exact ⟨-1, σ, rfl, trivial, .nil hrec⟩
  | true =>
    obtain ⟨fd, any, s', hrun, hsearched⟩ :=
      openPath_searched (c.loader.or c.nsLoaded) c.searchDirs hrec
    refine ⟨fd, σ.setSearch s', ?_, trivial, hsearched⟩
    simp only [and_self, if_true, hrun, bind, Except.bind, pure, Except.pure]

theorem runpathSource_searched :
    Finds fs c name known (fun _ => True) (runpathCandidates c σ) σ.search
      (runpathSource fs.kernel fs.disk c name (-1) σ) := by
  unfold runpathSource runpathCandidates
  cases c.loader with
  | none => exact ⟨-1, σ, rfl, trivial, .nil hrec⟩
  | some l =>
    simp only [if_true]
    split_ifs with hnil
    · rw [hnil]
      exact ⟨-1, _, rfl, trivial, .nil hrec⟩
    · obtain ⟨fd, any, s', hrun, hsearched⟩ := openPath_searched (c := c) (some l)
        (cacheRpath (c.maps l).runpath (σ.runpathDirs l)) hrec
      rw [hrun]
      exact ⟨fd, _, rfl, trivial, hsearched⟩

theorem cacheSource_searched :
    Finds fs c name known (fun _ => True) ((c.cacheEntry name).toList.map .cached) σ.search
      (cacheSource fs.kernel fs.disk c name (-1) σ) := by
  unfold cacheSource
  cases c.cacheEntry name with
  | none => exact ⟨-1, σ, rfl, trivial, .nil hrec⟩
  | some cached =>
    obtain ⟨s', hverify, hsame, heffect⟩ := openVerify_path fs cached σ.search
    have hrec' : Recorded fs c.needsSuid name known s' := by
      intro d cap hdc
      exact hrec d cap (hsame ▸ hdc)
    have husable : fs.usable c.needsSuid name (.cached cached) =
        ((fs.file cached).filter fun f => !fs.wrongClass f).isSome := by
      simp only [FileSystem.usable, FileSystem.fileAt, Candidate.realname]
      cases fs.file cached with
      | none => rfl
      | some f => cases hclass : fs.wrongClass f <;> simp [Option.filter, hclass]
    simp only [if_true, hverify, bind, Except.bind, Option.toList_some, List.map_cons,
      List.map_nil]
    cases hfile : (fs.file cached).filter fun f => !fs.wrongClass f with
    | none =>
      rw [hfile] at heffect husable
      exact ⟨-1, _, rfl, trivial, Searched.of_untouched husable heffect hrec'⟩
    | some f =>
      rw [hfile] at heffect husable
      obtain ⟨hfb, hopens, htable⟩ := heffect
      exact ⟨_, _, rfl, trivial, Searched.of_found husable (Option.filter_eq_some_iff.mp hfile).1
        htable hopens hfb rfl hrec'⟩

theorem mainRpathSource_searched (did : Bool) :
    Finds fs c name known (·.runpathDirs = σ.runpathDirs) (mainUnless c did (rpathDirsOf c σ))
      σ.search (mainRpathSource fs.kernel fs.disk c name (-1) did σ) := by
  unfold mainRpathSource mainUnless
  cases c.mainMap with
  | none => exact ⟨-1, σ, rfl, rfl, .nil hrec⟩
  | some m =>
    cases did with
    | true => exact ⟨-1, σ, rfl, rfl, .nil hrec⟩
    | false =>
      cases hloaded : (c.maps m).isLoaded with
      | true => exact ⟨-1, σ, by simp [hloaded], rfl, by simpa [hloaded] using .nil hrec⟩
      | false =>
        simp only [hloaded, true_and, if_true, Bool.or_self, Bool.false_eq_true, if_false]
        split_ifs with hnil
        · rw [rpathDirsOf, hnil]
          exact ⟨-1, _, rfl, rfl, .nil hrec⟩
        · obtain ⟨fd, any, s, hopen, hsearched⟩ := openPath_searched (c := c)
            (c.loader.or (some m)) (cacheRpath (c.maps m).rpath (σ.rpathDirs m)) hrec
          rw [hopen]
          exact ⟨fd, _, rfl, rfl, hsearched⟩

theorem auditRunpathSource_searched (did : Bool) :
    Finds fs c name known (·.runpathDirs = σ.runpathDirs) (mainUnless c did (auditDirs c))
      σ.search (auditRunpathSource fs.kernel fs.disk c name (-1) did σ) := by
  unfold auditRunpathSource mainUnless auditDirs
  cases c.mainMap with
  | none => exact ⟨-1, σ, rfl, rfl, .nil hrec⟩
  | some m =>
    cases did with
    | true => exact ⟨-1, σ, by simp, rfl, .nil hrec⟩
    | false =>
      cases hloaded : (c.maps m).isLoaded with
      | true => exact ⟨-1, σ, by simp [hloaded], rfl, by simpa [hloaded] using .nil hrec⟩
      | false =>
        cases c.modeAudit with
        | false =>
          exact ⟨-1, σ, by simp, rfl, by simpa [hloaded, pathCandidates] using .nil hrec⟩
        | true =>
          obtain ⟨fd, any, s, hopen, hsearched⟩ := openPath_searched (c := c)
            (c.loader.or (some m)) (cacheRpath (c.maps m).runpath .unset) hrec
          simp only [hloaded, and_self, if_true, hopen, bind, Except.bind]
          exact ⟨fd, _, rfl, rfl, hsearched⟩

end Recorded

section Guards
variable {fd : ℤ} (hfd : fd ≠ -1) (σ : Loader φ)
include hfd

theorem mainRpathSource_skip (did : Bool) :
    mainRpathSource fs.kernel fs.disk c name fd did σ = .ok (fd, σ) := by
  unfold mainRpathSource
  cases c.mainMap <;> simp [hfd]

theorem auditRunpathSource_skip (did : Bool) :
    auditRunpathSource fs.kernel fs.disk c name fd did σ = .ok (fd, σ) := by
  unfold auditRunpathSource
  cases c.mainMap <;> simp [hfd]

theorem envSource_skip : envSource fs.kernel fs.disk c name fd σ = .ok (fd, σ) := by
  rw [envSource, if_neg hfd]

theorem runpathSource_skip : runpathSource fs.kernel fs.disk c name fd σ = .ok (fd, σ) := by
  unfold runpathSource
  cases c.loader <;> simp [hfd]

theorem cacheSource_skip : cacheSource fs.kernel fs.disk c name fd σ = .ok (fd, σ) := by
  rw [cacheSource, if_neg hfd]

theorem defaultSource_skip : defaultSource fs.kernel fs.disk c name fd σ = .ok (fd, σ) := by
  rw [defaultSource, if_neg (fun h => hfd h.1)]

end Guards

theorem searchedMain_iff (σ : Loader φ) :
    searchedMain c σ = true ↔ ∃ l ∈ c.chain, c.mainMap = some l ∧ rpathDirsOf c σ l ≠ [] := by
  unfold searchedMain
  cases c.mainMap with
  | none => simp
  | some m => simp

theorem mainUnless_eq {dirs dirs' : ℕ → List Text}
    (h : ∀ m, m ∉ c.chain ∨ rpathDirsOf c σ m = [] → dirs m = dirs' m) :
    mainUnless c (searchedMain c σ) dirs = mainCandidates c σ dirs' := by
  unfold mainUnless mainCandidates
  cases hm : c.mainMap with
  | none => rfl
  | some m =>
    cases hs : searchedMain c σ with
    | true => rfl
    | false =>
      have hnot : m ∉ c.chain ∨ rpathDirsOf c σ m = [] := by
        by_contra hboth
        rw [not_or, not_not] at hboth
        have := (searchedMain_iff σ).mpr ⟨m, hboth.1, hm, hboth.2⟩
        rw [hs] at this
        cases this
      simp only [h m hnot]

theorem rpathSource_searched (hrec : Recorded fs c.needsSuid name known σ.search) :
    Finds fs c name known (·.runpathDirs = σ.runpathDirs)
      (if c.usesRpath then
        rpathCandidates c σ ++
          (mainCandidates c σ (rpathDirsOf c σ) ++ mainCandidates c σ (auditDirs c))
      else []) σ.search (rpathSource fs.kernel fs.disk c name (-1) σ) := by
  unfold rpathSource
  cases c.usesRpath with
  | false => exact ⟨-1, σ, rfl, rfl, .nil hrec⟩
  | true =>
    obtain ⟨fd₁, did, σ₁, hloop, h₁, hkept, hdid⟩ :=
      rpathLoop_searched c.chain c.chain_nodup false hrec
    simp only [if_true, hloop, bind, Except.bind]
    by_cases hfd : fd₁ = -1
    · -- both uses of the main program depend on the flag the loop has set
      have hsame : did = searchedMain c σ := by
        rw [Bool.eq_iff_iff, hdid hfd, searchedMain_iff]
        simp
      subst hfd hsame
      obtain ⟨fd₂, σ₂, hrun₂, hkept₂, h₂⟩ := mainRpathSource_searched h₁.recorded (searchedMain c σ)
      rw [mainUnless_eq hkept.2] at h₂
      rw [hrun₂]
      obtain ⟨fd₃, σ₃, hrun₃, hkept₃, h₃⟩ := searched_then
        (Q := fun σ' => σ'.runpathDirs = σ₂.runpathDirs) h₂ rfl
        (fun h => auditRunpathSource_skip h σ₂ (searchedMain c σ))
        (fun hfd => hfd ▸ auditRunpathSource_searched h₂.recorded (searchedMain c σ))
      exact ⟨fd₃, σ₃, hrun₃, hkept₃.trans (hkept₂.trans hkept.1), h₁.append_of_none rfl h₃⟩
    · rw [mainRpathSource_skip hfd]
      exact ⟨fd₁, σ₁, auditRunpathSource_skip hfd σ₁ did, hkept.1, h₁.append_of_found hfd _⟩

theorem searchRest_searched (hrec : Recorded fs c.needsSuid name known σ.search) :
    ∃ fd σ', searchRest fs.kernel fs.disk c name (-1) σ = .ok (fd, σ') ∧
      Searched fs c.needsSuid name known (restCandidates c name σ) σ.search fd σ'.search := by
  unfold searchRest restCandidates
  obtain ⟨fd₁, σ₁, hrun₁, hkept₁, h₁⟩ := rpathSource_searched hrec
  obtain ⟨fd₂, σ₂, hrun₂, hkept₂, h₂⟩ :=
    searched_then (Q := fun σ' => σ'.runpathDirs = σ₁.runpathDirs) h₁ rfl
      (fun h => envSource_skip h σ₁) (fun hfd => hfd ▸ envSource_searched h₁.recorded)
  obtain ⟨fd₃, σ₃, hrun₃, -, h₃⟩ :=
    searched_then (Q := fun _ => True) h₂ trivial (fun h => runpathSource_skip h σ₂)
      (fun hfd => hfd ▸ runpathSource_searched h₂.recorded)
  obtain ⟨fd₄, σ₄, hrun₄, -, h₄⟩ :=
    searched_then (Q := fun _ => True) h₃ trivial (fun h => cacheSource_skip h σ₃)
      (fun hfd => hfd ▸ cacheSource_searched h₃.recorded)
  obtain ⟨fd₅, σ₅, hrun₅, -, h₅⟩ :=
    searched_then (Q := fun _ => True) h₄ trivial (fun h => defaultSource_skip h σ₄)
      (fun hfd => hfd ▸ defaultSource_searched h₄.recorded)
  have hrunpath : runpathCandidates c σ₂ = runpathCandidates c σ := by
    rw [runpathCandidates, hkept₂, hkept₁, runpathCandidates]
  simp only [hrun₁, hrun₂, hrun₃, hrun₄, bind, Except.bind]
  rw [hrunpath] at h₅
  simp only [List.append_assoc] at h₅
  exact ⟨fd₅, σ₅, hrun₅, h₅⟩

end Sources

section Overwriting
variable {φ : Type} {fs : FileSystem φ} {c : Call} {name : Text}

def SearchesRpath (c : Call) (σ : Loader φ) : Prop :=
  c.usesRpath = true ∧ ∃ l ∈ c.chain, rpathDirsOf c σ l ≠ []

variable (fs name) in
theorem rpathLoop_idle (ls : List ℕ) (fd : ℤ) (did : Bool) {σ : Loader φ}
    (h : ∀ l ∈ ls, rpathDirsOf c σ l = []) :
    ∃ σ', rpathLoop fs.kernel fs.disk c name ls fd did σ = .ok (fd, did, σ') ∧
      σ'.search = σ.search := by
  induction ls generalizing σ with
  | nil => exact ⟨σ, rfl, rfl⟩
  | cons l ls ih =>
    have hl : (cacheRpath (c.maps l).rpath (σ.rpathDirs l)).toList = [] := h l List.mem_cons_self
    rw [rpathLoop]
    simp only [hl, if_true]
    refine ih (fun m hm => ?_)
    rw [rpathDirsOf_setRpath_cached]
    exact h m (List.mem_cons_of_mem l hm)

/-- As soon as one map has an RPATH, the incoming descriptor is lost. -/
theorem rpathLoop_overwrites (ls : List ℕ) (fd : ℤ) (did : Bool) {σ : Loader φ}
    (h : ∃ l ∈ ls, rpathDirsOf c σ l ≠ []) :
    rpathLoop fs.kernel fs.disk c name ls fd did σ =
      rpathLoop fs.kernel fs.disk c name ls (-1) did σ := by
  induction ls generalizing σ with
  | nil => simp at h
  | cons l ls ih =>
    rw [rpathLoop, rpathLoop]
    by_cases hl : (cacheRpath (c.maps l).rpath (σ.rpathDirs l)).toList = []
    · simp only [hl, if_true]
      apply ih
      obtain ⟨m, hm, hdirs⟩ := h
      refine ⟨m, ?_, by rwa [rpathDirsOf_setRpath_cached]⟩
      rcases List.mem_cons.mp hm with rfl | hm
      · exact (hdirs hl).elim
      · exact hm
    · simp only [hl, if_false]

variable (fs name) in
theorem searchRest_idle {fd : ℤ} (hfd : fd ≠ -1) {σ : Loader φ} (h : ¬ SearchesRpath c σ) :
    ∃ σ', searchRest fs.kernel fs.disk c name fd σ = .ok (fd, σ') ∧ σ'.search = σ.search := by
  have hrpath : ∃ σ', rpathSource fs.kernel fs.disk c name fd σ = .ok (fd, σ') ∧
      σ'.search = σ.search := by
    unfold rpathSource
    cases huses : c.usesRpath with
    | false => exact ⟨σ, rfl, rfl⟩
    | true =>
      have hnone : ∀ l ∈ c.chain, rpathDirsOf c σ l = [] := by
        intro l hl
        by_contra hne
        exact h ⟨huses, l, hl, hne⟩
      obtain ⟨σ', hloop, hsearch⟩ := rpathLoop_idle fs name c.chain fd false hnone
      refine ⟨σ', ?_, hsearch⟩
      simp only [if_true, hloop, bind, Except.bind, mainRpathSource_skip hfd,
        auditRunpathSource_skip hfd]
  obtain ⟨σ', hrun, hsearch⟩ := hrpath
  refine ⟨σ', ?_, hsearch⟩
  simp only [searchRest, hrun, bind, Except.bind, envSource_skip hfd, runpathSource_skip hfd,
    cacheSource_skip hfd, defaultSource_skip hfd]

theorem searchRest_overwrites (fd : ℤ) {σ : Loader φ} (h : SearchesRpath c σ) :
    searchRest fs.kernel fs.disk c name fd σ = searchRest fs.kernel fs.disk c name (-1) σ := by
  simp only [searchRest, rpathSource, h.1, if_true, rpathLoop_overwrites c.chain fd false h.2]

end Overwriting

section Descriptors
variable {φ : Type} {fs : FileSystem φ} {name : Text}

def fdCandidates (fds : List ℤ) : List Candidate := fds.map .descriptor

theorem sysOpenat_absent {d : ℤ} (h : fs.openat d name = none) (w : World φ) :
    sysOpenat fs.kernel w d (some name) oRdonly none =
      w.fail (.openat d (some name) oRdonly none) enoent := by
  rw [sysOpenat, fs.openatAnswer_eq, h]
  rfl

theorem sysOpenat_present {d : ℤ} {f : φ} (h : fs.openat d name = some f) (w : World φ) :
    sysOpenat fs.kernel w d (some name) oRdonly none =
      w.opened (.openat d (some name) oRdonly none) f := by
  rw [sysOpenat, fs.openatAnswer_eq, h]
  rfl

theorem firstOpen_absent {fds : List ℤ} (h : ∀ d ∈ fds, fs.openat d name = none) (w : World φ) :
    firstOpen fs.kernel name fds w = none := by
  induction fds generalizing w with
  | nil => rfl
  | cons d fds ih =>
    rw [firstOpen, sysOpenat_absent (h d List.mem_cons_self)]
    rw [ih (fun e he => h e (List.mem_cons_of_mem d he))]
    rfl

theorem tryInOrder_found {pre : List ℤ} (post : List ℤ) {d : ℤ} {f : φ}
    (hpre : ∀ e ∈ pre, fs.openat e name = none) (hd : fs.openat d name = some f) (w : World φ) :
    (firstOpen fs.kernel name (pre ++ d :: post) w).isSome ∧
      ∃ w' : World φ, tryInOrder fs.kernel name (pre ++ d :: post) w = ((lowestFree w.fds : ℤ), w') ∧
        (∀ n, w'.file? n = if n = lowestFree w.fds then some f else w.file? n) ∧
        w'.openRequests = w.openRequests ++ (fdCandidates (pre ++ [d])).map (Candidate.request name) := by
  induction pre generalizing w with
  | nil =>
    rw [List.nil_append, firstOpen, tryInOrder, sysOpenat_present hd]
    exact ⟨rfl, _, rfl, file?_install w.fds f, World.openRequests_answer rfl (.ok f)⟩
  | cons e pre ih =>
    obtain ⟨hopen, w', hrun, htable, hrequests⟩ := ih
      (fun e' he => hpre e' (List.mem_cons_of_mem e he))
      (w.fail (.openat e (some name) oRdonly none) enoent).2
    rw [List.cons_append, firstOpen, tryInOrder, sysOpenat_absent (hpre e List.mem_cons_self)]
    have hfd : ¬ (w.fail (.openat e (some name) oRdonly none) enoent).1 ≠ -1 := by
      simp [World.fail]
    simp only [if_neg hfd, Option.isSome_map]
    refine ⟨hopen, w', hrun, htable, ?_⟩
    have hone : (w.fail (.openat e (some name) oRdonly none) enoent).2.openRequests =
        w.openRequests ++ [.openat e (some name) oRdonly none] :=
      World.openRequests_answer rfl (.error enoent)
    rw [hrequests, hone, List.append_assoc]
    rfl

end Descriptors

end AwaitGlibc.LibrarySearch

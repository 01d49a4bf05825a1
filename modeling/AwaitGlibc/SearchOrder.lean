import AwaitGlibc.LibrarySearch

/-!
# The order of the library search

The sources of `_dl_map_object` are meant to be one ordered list of candidates,
of which the first usable one is mapped. Behind the descriptor list this is so.
The descriptor list itself fits in only in a few cases: it must contain a
directory with the name, or be empty; the descriptor must not be 0; a hit of the
other class must be in the last directory, since the rest are not tried; and
after a usable hit there must be no RPATH to search, since that search replaces
the descriptor. `searchesInOrder_iff` says that nothing else can go wrong.
-/
namespace AwaitGlibc.SearchOrder
open CText CheckedArray SystemCalls CandidateSearch OpenatPaths LibraryPaths LibrarySearch

variable {φ : Type} {fs : FileSystem φ} {c : Call} {name : Text}

theorem openatSource_absent {fds : List ℤ} (hpos : ∀ d ∈ fds, 0 < d) (hne : fds ≠ [])
    (h : ∀ d ∈ fds, fs.openat d name = none) (s : Search φ) :
    ∃ f, openatSource fs.kernel fs.disk name (pathsBlock fds) s = .error (.fault f) := by
  have hsearch := openatSearch_eq fs.kernel name hpos s.world
  rw [firstOpen_absent h, if_neg (by simp [hne])] at hsearch
  obtain ⟨f, hf⟩ := hsearch
  exact ⟨f, by simp only [openatSource, hf]⟩

def verifiedHit (name : Text) (f : φ) (w : World φ) (s : Search φ) : Search φ :=
  { s with world := { w with errno := 0 }, fb := some f, realname := some name }

def otherClassHit (fs : FileSystem φ) (name : Text) (f : φ) (w : World φ) (s : Search φ) :
    Search φ :=
  { s with
    world := discard fs.kernel w (lowestFree s.world.fds), fb := some f, foundOtherClass := true,
    realname := some name }

variable {pre : List ℤ} {d : ℤ} {f : φ}

/-- The descriptor list when one of its directories has the name: unless the
descriptor is 0 the file is verified, and the loop is not resumed. -/
theorem openatSource_found {post : List ℤ}
    (hpos : ∀ e ∈ pre ++ d :: post, 0 < e) (hpre : ∀ e ∈ pre, fs.openat e name = none)
    (hd : fs.openat d name = some f) (s : Search φ) :
    ∃ w : World φ, (∀ n, w.file? n = if n = lowestFree s.world.fds then some f else s.world.file? n) ∧
      w.openRequests =
        s.world.openRequests ++ (fdCandidates (pre ++ [d])).map (Candidate.request name) ∧
      openatSource fs.kernel fs.disk name (pathsBlock (pre ++ d :: post)) s =
        .ok (if lowestFree s.world.fds = 0 then (0, { s with world := w })
          else if fs.wrongClass f then (-1, otherClassHit fs name f w s)
          else ((lowestFree s.world.fds : ℤ), verifiedHit name f w s)) := by
  obtain ⟨hopen, w, hrun, htable, hrequests⟩ := tryInOrder_found post hpre hd s.world
  have hsearch := openatSearch_eq fs.kernel name hpos s.world
  rw [if_pos (.inr hopen), hrun] at hsearch
  refine ⟨w, htable, hrequests, ?_⟩
  simp only [openatSource, hsearch]
  by_cases hzero : lowestFree s.world.fds = 0
  · simp [hzero]
  · have hfd : 0 < (lowestFree s.world.fds : ℤ) := by omega
    have hfile : w.file? (lowestFree s.world.fds) = some f := (htable _).trans (if_pos rfl)
    simp only [hzero, if_false, if_pos hfd]
    rw [openVerify_taken (by omega) hfile]
    cases fs.wrongClass f <;> rfl

/-- The first usable object is found where the order of the sources has it, and
the search leaves nothing else behind. -/
def SearchesInOrder (fs : FileSystem φ) (c : Call) (name : Text) (llpf : Option Text)
    (σ : Loader φ) : Prop :=
  ∃ openatPaths fd σ', dlInitOpenatPaths llpf none = .ok openatPaths ∧
    searchLibrary fs.kernel fs.disk c name openatPaths σ = .ok (fd, σ') ∧
    Searched fs c.needsSuid name (fun dir cap => σ.search.status dir cap = .nonexisting)
      (fdCandidates (storedFds llpf) ++ restCandidates c name σ) σ.search fd σ'.search

/-- The cases in which the descriptor list does not disturb the search. -/
def FdsHarmless (fs : FileSystem φ) (c : Call) (name : Text) (fds : List ℤ) (σ : Loader φ) :
    Prop :=
  fds = [] ∨ ∃ pre d post f, fds = pre ++ d :: post ∧ (∀ e ∈ pre, fs.openat e name = none) ∧
    fs.openat d name = some f ∧ σ.search.world.file? 0 ≠ none ∧
    if fs.wrongClass f then post = [] else ¬ SearchesRpath c σ

theorem exists_first_of_not_absent {fds : List ℤ} (h : ¬ ∀ d ∈ fds, fs.openat d name = none) :
    ∃ pre d post f, fds = pre ++ d :: post ∧ (∀ e ∈ pre, fs.openat e name = none) ∧
      fs.openat d name = some f := by
  induction fds with
  | nil => simp at h
  | cons d fds ih =>
    cases hd : fs.openat d name with
    | some f => exact ⟨[], d, fds, f, rfl, by simp, hd⟩
    | none =>
      obtain ⟨pre, e, post, f, rfl, hpre, he⟩ := ih (fun hall => h (by simpa [hd] using hall))
      exact ⟨d :: pre, e, post, f, rfl, by simpa [hd] using hpre, he⟩

section Usable
variable {needsSuid : Bool}

theorem usable_descriptor_of_absent (h : fs.openat d name = none) :
    fs.usable needsSuid name (.descriptor d) = false := by
  simp only [FileSystem.usable, FileSystem.fileAt, h]

theorem usable_descriptor (h : fs.openat d name = some f) :
    fs.usable needsSuid name (.descriptor d) = !fs.wrongClass f := by
  simp only [FileSystem.usable, FileSystem.fileAt, h, Bool.and_true]

theorem find?_fdCandidates_absent (h : ∀ e ∈ pre, fs.openat e name = none) :
    (fdCandidates pre).find? (fs.usable needsSuid name) = none := by
  rw [List.find?_eq_none]
  intro cand hcand
  obtain ⟨e, he, rfl⟩ := List.mem_map.mp hcand
  simp [usable_descriptor_of_absent (h e he)]

theorem fileAt_of_usable {cand : Candidate} (h : fs.usable needsSuid name cand = true) :
    fs.fileAt name cand ≠ none := by
  intro hnone
  simp [FileSystem.usable, hnone] at h

section Hit
variable (hpre : ∀ e ∈ pre, fs.openat e name = none) (hd : fs.openat d name = some f)
include hpre hd

theorem find?_fdCandidates (post : List ℤ) (hclass : fs.wrongClass f = false) :
    (fdCandidates (pre ++ d :: post)).find? (fs.usable needsSuid name) = some (.descriptor d) := by
  rw [fdCandidates, List.map_append, List.find?_append]
  change ((fdCandidates pre).find? _).or _ = _
  rw [find?_fdCandidates_absent hpre, Option.none_or, List.map_cons,
    List.find?_cons_of_pos (by rw [usable_descriptor hd, hclass]; rfl)]

theorem find?_fdCandidates_wrongClass (hclass : fs.wrongClass f = true) :
    (fdCandidates (pre ++ [d])).find? (fs.usable needsSuid name) = none := by
  rw [fdCandidates, List.map_append, List.find?_append]
  change ((fdCandidates pre).find? _).or _ = _
  rw [find?_fdCandidates_absent hpre, Option.none_or]
  simp [usable_descriptor hd, hclass]

variable {known : Text → Text → Prop} {s : Search φ} {w : World φ}
  (htable : ∀ n, w.file? n = if n = lowestFree s.world.fds then some f else s.world.file? n)
  (hopens : w.openRequests =
    s.world.openRequests ++ (fdCandidates (pre ++ [d])).map (Candidate.request name))
  (hrec : Recorded fs needsSuid name known s)
include htable hopens hrec

/-- A hit of the other class in the last directory ends the list as if the name
were absent. -/
theorem searched_wrongClass (hclass : fs.wrongClass f = true) :
    Searched fs needsSuid name known (fdCandidates (pre ++ [d])) s (-1)
      (otherClassHit fs name f w s) := by
  have hfind : (fdCandidates (pre ++ [d])).find? (fs.usable needsSuid name) = none :=
    find?_fdCandidates_wrongClass hpre hd hclass
  refine ⟨by rw [hfind]; rfl, fun n => ?_, by simp [hfind],
    ⟨(fdCandidates (pre ++ [d])).map (Candidate.request name), ?_, ?_⟩, hrec⟩
  · rw [hfind]
    exact discard_file? htable n
  · rw [upTo_of_none hfind]
    exact Tried.all (Candidate.request name) _
  · exact (discard_openRequests fs.kernel w _).trans hopens

theorem searched_usable (post : List ℤ) (hclass : fs.wrongClass f = false) :
    Searched fs needsSuid name known (fdCandidates (pre ++ d :: post)) s
      (lowestFree s.world.fds) (verifiedHit name f w s) := by
  have hfind : (fdCandidates (pre ++ d :: post)).find? (fs.usable needsSuid name) = _ :=
    find?_fdCandidates hpre hd post hclass
  refine ⟨by rw [hfind]; rfl, fun n => ?_, fun cand hcand => ?_, ⟨_, ?_, hopens⟩, hrec⟩
  · rw [hfind]
    simp only [FileSystem.foundFile, FileSystem.fileAt, hd]
    exact htable n
  · rw [hfind] at hcand
    cases hcand
    exact ⟨hd.symm, rfl⟩
  · have hupTo : upTo (fs.usable needsSuid name) (fdCandidates (pre ++ d :: post)) =
        fdCandidates (pre ++ [d]) := by
      rw [fdCandidates, fdCandidates, List.map_append, List.map_append]
      change upTo _ (fdCandidates pre ++ _) = fdCandidates pre ++ _
      rw [upTo_append_of_none (find?_fdCandidates_absent hpre), List.map_cons, upTo,
        if_pos (by rw [usable_descriptor hd, hclass]; rfl)]
      rfl
    rw [hupTo]
    exact Tried.all (Candidate.request name) _

end Hit

theorem searched_of_fresh {known : Text → Text → Prop} {cs : List Candidate} {s s' : Search φ}
    {fd : ℤ} (h : Searched fs needsSuid name known cs (freshSearch s) fd s') :
    Searched fs needsSuid name known cs s fd s' :=
  { h with }

end Usable

section Order
variable {σ : Loader φ} {llpf : Option Text}

/-- A file that another search opened before this one and that is not its result
is neither found nor closed by it. -/
theorem not_searched_of_lost {needsSuid : Bool} {known known' : Text → Text → Prop}
    {cs ds : List Candidate} {s s₁ s' : Search φ} {fd : ℤ}
    (hlost : s₁.world.file? (lowestFree s.world.fds) = some f)
    (hrest : Searched fs needsSuid name known ds s₁ fd s') :
    ¬ Searched fs needsSuid name known' cs s fd s' := by
  intro h
  have hne : lowestFree s₁.world.fds ≠ lowestFree s.world.fds := by
    intro heq
    have hfree := file?_lowestFree s₁.world.fds
    rw [heq] at hfree
    cases hlost.symm.trans hfree
  have hfd := h.fd_eq.symm.trans hrest.fd_eq
  have hfile := (h.table (lowestFree s.world.fds)).symm.trans
    (hrest.table (lowestFree s.world.fds))
  cases hcs : cs.find? (fs.usable needsSuid name) with
  | none =>
    rw [hcs] at hfile
    have hnone : fs.foundFile name s.world none (lowestFree s.world.fds) = none :=
      file?_lowestFree s.world.fds
    rw [hnone] at hfile
    cases hds : ds.find? (fs.usable needsSuid name) with
    | none =>
      rw [hds] at hfile
      cases hfile.trans hlost
    | some cand =>
      rw [hds, FileSystem.foundFile, if_neg (by omega)] at hfile
      cases hfile.trans hlost
  | some cand =>
    rw [hcs] at hfd
    cases hds : ds.find? (fs.usable needsSuid name) with
    | none =>
      rw [hds] at hfd
      simp only [foundFd] at hfd
      omega
    | some cand' =>
      rw [hds] at hfd
      simp only [foundFd] at hfd
      omega

theorem recorded_start
    (hrec : ∀ dir cap, σ.search.status dir cap = .nonexisting → fs.file (dir ++ cap ++ name) = none) :
    Recorded fs c.needsSuid name (fun dir cap => σ.search.status dir cap = .nonexisting) σ.search := by
  intro dir cap h
  refine ⟨.inl h, ?_⟩
  simp only [FileSystem.usable, FileSystem.fileAt, Candidate.realname, hrec dir cap h]

theorem searchLibrary_eq (openatPaths : Option (Block ℤ)) {fd : ℤ} {s : Search φ}
    (h : openatSource fs.kernel fs.disk name openatPaths (freshSearch σ.search) = .ok (fd, s)) :
    searchLibrary fs.kernel fs.disk c name openatPaths σ =
      searchRest fs.kernel fs.disk c name fd (σ.setSearch s) := by
  simp only [searchLibrary, h, bind, Except.bind]

theorem searchesInOrder_of_harmless
    (hrec : ∀ dir cap, σ.search.status dir cap = .nonexisting → fs.file (dir ++ cap ++ name) = none)
    (h : FdsHarmless fs c name (storedFds llpf) σ) : SearchesInOrder fs c name llpf σ := by
  have hstart := recorded_start (c := c) hrec
  refine ⟨pathsBlock (storedFds llpf), ?_⟩
  rcases h with hnil | ⟨pre, d, post, f, hfds, hpre, hd, hzero, hcase⟩
  · have hsource : openatSource fs.kernel fs.disk name (pathsBlock (storedFds llpf))
        (freshSearch σ.search) = .ok (-1, freshSearch σ.search) := by
      rw [hnil]
      rfl
    obtain ⟨fd, σ', hrun, hsearched⟩ :=
      searchRest_searched (c := c) (σ := σ.setSearch (freshSearch σ.search)) hstart
    refine ⟨fd, σ', dlInitOpenatPaths_eq llpf, (searchLibrary_eq _ hsource).trans hrun, ?_⟩
    rw [hnil]
    exact searched_of_fresh hsearched
  · have hpos := storedFds_pos llpf
    rw [hfds] at hpos ⊢
    obtain ⟨w, htable, hopens, hsource⟩ := openatSource_found hpos hpre hd (freshSearch σ.search)
    have hfree : lowestFree (freshSearch σ.search).world.fds ≠ 0 :=
      mt (lowestFree_eq_zero_iff _).mp hzero
    rw [if_neg hfree] at hsource
    cases hclass : fs.wrongClass f with
    | true =>
      rw [hclass, if_pos rfl] at hcase hsource
      have hfirst := searched_wrongClass hpre hd htable hopens hstart hclass
      obtain ⟨fd, σ', hrun, hsearched⟩ := searchRest_searched (c := c)
        (σ := σ.setSearch (otherClassHit fs name f w (freshSearch σ.search))) hfirst.recorded
      have hall := hfirst.append_of_none rfl hsearched
      rw [← hcase, ← hfds] at hall
      refine ⟨fd, σ', by rw [← hfds]; exact dlInitOpenatPaths_eq llpf,
        (searchLibrary_eq _ hsource).trans hrun, ?_⟩
      rw [← hfds]
      exact searched_of_fresh hall
    | false =>
      rw [hclass] at hcase hsource
      have hfirst := searched_usable hpre hd htable hopens hstart post hclass
      have hfd : (lowestFree (freshSearch σ.search).world.fds : ℤ) ≠ -1 := by omega
      obtain ⟨σ', hrun, hsame⟩ := searchRest_idle fs name hfd (c := c)
        (σ := σ.setSearch (verifiedHit name f w (freshSearch σ.search))) hcase
      have hall := hfirst.append_of_found hfd (restCandidates c name σ)
      refine ⟨_, σ', by rw [← hfds]; exact dlInitOpenatPaths_eq llpf,
        (searchLibrary_eq _ hsource).trans hrun, ?_⟩
      rw [hsame]
      exact searched_of_fresh hall

theorem not_searchesInOrder_of_absent (hne : storedFds llpf ≠ [])
    (h : ∀ d ∈ storedFds llpf, fs.openat d name = none) : ¬ SearchesInOrder fs c name llpf σ := by
  rintro ⟨openatPaths, fd, σ', hinit, hrun, -⟩
  cases (dlInitOpenatPaths_eq llpf).symm.trans hinit
  obtain ⟨f, hf⟩ := openatSource_absent (storedFds_pos llpf) hne h (freshSearch σ.search)
  simp only [searchLibrary, hf, bind, Except.bind] at hrun
  cases hrun

/-- The requests of a search that gave up the descriptor list after `pre` and
`d` do not contain the next descriptor. -/
theorem not_searched_of_skipped {needsSuid : Bool} {known known' : Text → Text → Prop}
    {post : List ℤ} {e : ℤ} {s s₁ s' : Search φ} {fd : ℤ}
    (hpre : ∀ e ∈ pre, fs.openat e name = none) (hd : fs.openat d name = some f)
    (hclass : fs.wrongClass f = true) (hopens : s₁.world.openRequests =
      s.world.openRequests ++ (fdCandidates (pre ++ [d])).map (Candidate.request name))
    (hrest : Searched fs needsSuid name known (restCandidates c name σ) s₁ fd s') :
    ¬ Searched fs needsSuid name known'
      (fdCandidates (pre ++ d :: e :: post) ++ restCandidates c name σ) s fd s' := by
  intro h
  have hsplit : fdCandidates (pre ++ d :: e :: post) ++ restCandidates c name σ =
      fdCandidates (pre ++ [d]) ++
        (.descriptor e :: (fdCandidates post ++ restCandidates c name σ)) := by
    simp [fdCandidates]
  obtain ⟨rs, htried, hrs⟩ := h.opens
  rw [hsplit, upTo_append_of_none (find?_fdCandidates_wrongClass hpre hd hclass)] at htried
  obtain ⟨qs, rfl, hqs⟩ := htried.of_append (fun cand hcand hmissing => by
    obtain ⟨d', -, rfl⟩ := List.mem_map.mp hcand
    exact hmissing)
  have hfirst : ∃ tail, upTo (fs.usable needsSuid name)
      (.descriptor e :: (fdCandidates post ++ restCandidates c name σ)) = [.descriptor e] ++ tail := by
    rw [upTo]
    split_ifs
    · exact ⟨[], rfl⟩
    · exact ⟨_, rfl⟩
  obtain ⟨tail, htail⟩ := hfirst
  rw [htail] at hqs
  obtain ⟨qs', rfl, -⟩ := hqs.of_append (fun cand hcand hmissing => by
    rw [List.mem_singleton.mp hcand] at hmissing
    exact hmissing)
  obtain ⟨rs', htried', hrs'⟩ := hrest.opens
  rw [hrs', hopens, List.append_assoc, List.append_cancel_left_eq,
    List.append_cancel_left_eq] at hrs
  obtain ⟨cand, hcand, hreq⟩ := htried'.mem (r := .openat e (some name) oRdonly none)
    (by rw [hrs]; exact List.mem_cons_self)
  rw [request_of_mem_restCandidates (upTo_subset cand hcand)] at hreq
  cases hreq

/-- With a descriptor in hand the remaining sources either keep it, or lose it
to the RPATHs. -/
theorem searched_of_searchRest {known : Text → Text → Prop} {fd fd' : ℤ} (hfd : fd ≠ -1)
    {σ₁ σ' : Loader φ} (hrun : searchRest fs.kernel fs.disk c name fd σ₁ = .ok (fd', σ'))
    (hrec : Recorded fs c.needsSuid name known σ₁.search) :
    (¬ SearchesRpath c σ₁ ∧ fd' = fd ∧ σ'.search = σ₁.search) ∨
      (SearchesRpath c σ₁ ∧
        Searched fs c.needsSuid name known (restCandidates c name σ₁) σ₁.search fd' σ'.search) := by
  by_cases hrpath : SearchesRpath c σ₁
  · obtain ⟨fd₂, σ₂, hrest, hsearched⟩ := searchRest_searched hrec
    rw [searchRest_overwrites fd hrpath, hrest] at hrun
    cases hrun
    exact .inr ⟨hrpath, hsearched⟩
  · obtain ⟨σ₂, hidle, hsame⟩ := searchRest_idle fs name hfd hrpath
    rw [hidle] at hrun
    cases hrun
    exact .inl ⟨hrpath, rfl, hsame⟩

theorem harmless_of_searchesInOrder
    (hrec : ∀ dir cap, σ.search.status dir cap = .nonexisting → fs.file (dir ++ cap ++ name) = none)
    (h : SearchesInOrder fs c name llpf σ) : FdsHarmless fs c name (storedFds llpf) σ := by
  by_cases hnil : storedFds llpf = []
  · exact .inl hnil
  by_cases habsent : ∀ d ∈ storedFds llpf, fs.openat d name = none
  · exact (not_searchesInOrder_of_absent hnil habsent h).elim
  obtain ⟨pre, d, post, f, hfds, hpre, hd⟩ := exists_first_of_not_absent habsent
  have hstart := recorded_start (c := c) hrec
  have hpos := storedFds_pos llpf
  obtain ⟨openatPaths, fd, σ', hinit, hrun, hsearched⟩ := h
  cases (dlInitOpenatPaths_eq llpf).symm.trans hinit
  rw [hfds] at hpos hrun hsearched
  obtain ⟨w, htable, hopens, hsource⟩ := openatSource_found hpos hpre hd (freshSearch σ.search)
  have hopened : w.file? (lowestFree σ.search.world.fds) = some f := (htable _).trans (if_pos rfl)
  refine .inr ⟨pre, d, post, f, hfds, hpre, hd, ?_⟩
  by_cases hzero : lowestFree (freshSearch σ.search).world.fds = 0
  · -- descriptor 0 is not verified, so either the buffer is unset or the file is lost
    rw [if_pos hzero] at hsource
    rw [searchLibrary_eq _ hsource] at hrun
    rcases searched_of_searchRest (show (0 : ℤ) ≠ -1 by decide) hrun hstart with ⟨-, rfl, hsame⟩ | ⟨-, hrest⟩
    · cases hfind : (fdCandidates (pre ++ d :: post) ++ restCandidates c name σ).find?
          (fs.usable c.needsSuid name) with
      | none => cases hsearched.fd_eq_neg_one_iff.mpr hfind
      | some cand =>
        have hfb := (hsearched.verified cand hfind).1
        rw [hsame] at hfb
        exact (fileAt_of_usable (List.find?_some hfind) hfb.symm).elim
    · exact (not_searched_of_lost hopened hrest hsearched).elim
  rw [if_neg hzero] at hsource
  refine ⟨mt (lowestFree_eq_zero_iff _).mpr hzero, ?_⟩
  cases hclass : fs.wrongClass f with
  | true =>
    rw [hclass] at hsource
    rw [searchLibrary_eq _ hsource] at hrun
    obtain ⟨fd₁, σ₁, hrest, hsearched₁⟩ := searchRest_searched (c := c)
      (σ := σ.setSearch (otherClassHit fs name f w (freshSearch σ.search))) hstart
    rw [hrest] at hrun
    cases hrun
    cases post with
    | nil => rfl
    | cons e post =>
      exact (not_searched_of_skipped hpre hd hclass
        ((discard_openRequests fs.kernel w _).trans hopens) hsearched₁ hsearched).elim
  | false =>
    rw [hclass] at hsource
    rw [searchLibrary_eq _ hsource] at hrun
    intro hrpath
    have hfd : (lowestFree (freshSearch σ.search).world.fds : ℤ) ≠ -1 := by omega
    rcases searched_of_searchRest hfd hrun hstart with ⟨hnot, -⟩ | ⟨-, hrest⟩
    · exact hnot hrpath
    · exact not_searched_of_lost hopened hrest hsearched

/-- The library is found where the order of the sources has it exactly when the
descriptor list is harmless. -/
theorem searchesInOrder_iff
    (hrec : ∀ dir cap, σ.search.status dir cap = .nonexisting → fs.file (dir ++ cap ++ name) = none) :
    SearchesInOrder fs c name llpf σ ↔ FdsHarmless fs c name (storedFds llpf) σ :=
  ⟨harmless_of_searchesInOrder hrec, searchesInOrder_of_harmless hrec⟩

end Order

section Copies

/-- Descriptor 3 is a directory with the library, and `/r/` has another copy. -/
def twoCopies : FileSystem ℕ where
  openat d name := if d = 3 ∧ name = ['x'] then some 1 else none
  file path := if path = ['/', 'r', '/', 'x'] then some 2 else none
  isDir _ := true
  wrongClass _ := false
  isSuid _ := false
  openat_nil := by simp
  file_nil := by decide

/-- A call for the only map of the process, which is also the main program. -/
def callFrom (rpath runpath : Option (List Text)) : Call where
  maps _ := ⟨rpath, runpath, false, false, false⟩
  chain := [0]
  mainMap := some 0
  nsLoaded := some 0
  rtldMap := ⟨none, none, false, false, false⟩
  caps := [[]]
  modeSecure := false
  modeAudit := false
  enableSecure := false
  inhibitCache := false
  loadCacheLookup _ := none
  systemDirs := []
  envPathList := .removed
  searchDirs := .removed
  chain_nodup := by decide

/-- Before the first search of a process with descriptors 0 to 3 open. -/
def firstSearch : Loader ℕ where
  search := ⟨⟨0, [some 0, some 0, some 0, some 0], []⟩, none, none, false, fun _ _ => .unknown⟩
  rpathDirs _ := .unset
  runpathDirs _ := .unset

theorem runpath_keeps_descriptor :
    SearchesInOrder twoCopies (callFrom none (some [['/', 'r', '/']])) ['x'] (some ['3'])
      firstSearch := by
  have hstored : storedFds (some ['3']) = [3] := by decide +kernel
  refine (searchesInOrder_iff (fun _ _ h => by cases h)).mpr (.inr ⟨[], 3, [], 1, hstored, ?_⟩)
  exact ⟨by simp, rfl, by decide, fun h => absurd h.1 (by decide)⟩

/-- The object of descriptor 3 is found first, and the one in the RPATH is
returned, on the next descriptor. -/
theorem rpath_replaces_descriptor :
    ¬ SearchesInOrder twoCopies (callFrom (some [['/', 'r', '/']]) none) ['x'] (some ['3'])
      firstSearch := by
  have hstored : storedFds (some ['3']) = [3] := by decide +kernel
  rintro ⟨openatPaths, fd, σ', hinit, hrun, hsearched⟩
  rw [dlInitOpenatPaths_eq, hstored] at hinit
  cases hinit
  have hfd : (searchLibrary twoCopies.kernel twoCopies.disk
      (callFrom (some [['/', 'r', '/']]) none) ['x'] (pathsBlock [3])
        firstSearch).toOption.map Prod.fst = some 5 := by decide +kernel
  rw [hrun] at hfd
  cases hfd
  have hfound := hsearched.fd_eq
  revert hfound
  decide +kernel

end Copies

end AwaitGlibc.SearchOrder

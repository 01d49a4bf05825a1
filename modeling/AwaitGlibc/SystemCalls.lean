import AwaitGlibc.CText

/-!
# System calls over a table of descriptors

The kernel is seen through the calls a process makes. Its answers are supplied
by a function of everything asked before, so every sequence of answers is some
kernel. What is fixed is documented behaviour: an open takes the lowest free
descriptor, a failing call returns -1 and sets `errno`, a successful one leaves
`errno` alone, closing a descriptor that is not open is `EBADF`, a null path is
`EFAULT` and an empty one `ENOENT`, and `close` releases an open descriptor also
when it reports an error. The type of open files is arbitrary.
-/
namespace AwaitGlibc.SystemCalls
open CText

abbrev Errno := ℕ
abbrev Flags := BitVec 32

def enoent : Errno := 2
def ebadf : Errno := 9
def eacces : Errno := 13
def efault : Errno := 14

def pathMax : ℕ := 4096

/-- What a successful `getcwd` leaves in a buffer of `pathMax` bytes: an
absolute path that fits together with its NUL. -/
structure Cwd where
  path : Text
  absolute : path.head? = some '/'
  fits : path.length + 1 ≤ pathMax

inductive Request where
  | openat (dirfd : ℤ) (path : Option Text) (oflag : Flags) (mode : Option ℤ)
  | openPath (path : Text) (oflag : Flags) (mode : Option ℤ)
  | write (fd : ℤ) (data : Text)
  | close (fd : ℤ)
deriving DecidableEq, Repr

/-- The calls that add a descriptor when they succeed. -/
def isOpen : Request → Bool
  | .openat .. => true
  | .openPath .. => true
  | _ => false

structure Event where
  request : Request
  result : ℤ
deriving DecidableEq, Repr

structure World (φ : Type) where
  errno : Errno
  fds : List (Option φ)
  events : List Event
deriving DecidableEq, Repr

/-- All answers of a kernel. `close` only supplies the error reported while an
open descriptor is released. -/
structure Kernel (φ : Type) where
  openat : List Event → ℤ → Text → Flags → Option ℤ → Except Errno φ
  openPath : List Event → Text → Flags → Option ℤ → Except Errno φ
  write : List Event → ℤ → Text → Except Errno ℕ
  close : List Event → ℤ → Option Errno
  getcwd : List Event → Except Errno Cwd

section Table
variable {φ : Type}

def file? (t : List (Option φ)) (fd : ℤ) : Option φ :=
  if fd < 0 then none else (t[fd.toNat]?).join

def lowestFree (t : List (Option φ)) : ℕ := t.findIdx (·.isNone)

def install (t : List (Option φ)) (f : φ) : List (Option φ) :=
  if lowestFree t < t.length then t.set (lowestFree t) (some f) else t ++ [some f]

def installed (t : List (Option φ)) : Option φ → List (Option φ)
  | none => t
  | some f => install t f

def release (t : List (Option φ)) (fd : ℤ) : List (Option φ) := t.set fd.toNat none

variable {t : List (Option φ)} {fd : ℤ}

@[simp] theorem file?_neg (h : fd < 0) : file? t fd = none := by
  rw [file?, if_pos h]

theorem file?_natCast (t : List (Option φ)) (n : ℕ) : file? t n = (t[n]?).join := by
  rw [file?, if_neg (by omega), Int.toNat_natCast]

theorem lowestFree_le (t : List (Option φ)) : lowestFree t ≤ t.length :=
  List.findIdx_le_length

theorem file?_lowestFree (t : List (Option φ)) : file? t (lowestFree t) = none := by
  rw [file?_natCast]
  cases h : t[lowestFree t]? with
  | none => rfl
  | some o =>
    obtain ⟨hi, ho⟩ := List.getElem?_eq_some_iff.mp h
    have hn := List.findIdx_getElem (p := fun o : Option φ => o.isNone) (w := hi)
    change (t[lowestFree t]).isNone = true at hn
    rw [ho] at hn
    simpa using hn

theorem lowestFree_eq_zero_iff (t : List (Option φ)) : lowestFree t = 0 ↔ file? t 0 = none := by
  constructor
  · intro h
    have := file?_lowestFree t
    rwa [h] at this
  · intro h
    cases t with
    | nil => rfl
    | cons o t =>
      cases o with
      | none => rfl
      | some f => simp [file?] at h

theorem file?_ne_none_of_lt {n : ℕ} (h : n < lowestFree t) : file? t n ≠ none := by
  have hlen : n < t.length := lt_of_lt_of_le h (lowestFree_le t)
  have hsome := List.not_of_lt_findIdx (p := fun o : Option φ => o.isNone) h
  rw [file?_natCast, List.getElem?_eq_getElem hlen]
  intro hnone
  change t[n] = none at hnone
  rw [hnone] at hsome
  cases hsome

theorem lowestFree_congr {u : List (Option φ)} (h : ∀ n, file? t n = file? u n) :
    lowestFree t = lowestFree u := by
  apply le_antisymm
  · by_contra hlt
    exact file?_ne_none_of_lt (not_le.mp hlt) ((h _).trans (file?_lowestFree u))
  · by_contra hlt
    exact file?_ne_none_of_lt (not_le.mp hlt) ((h _).symm.trans (file?_lowestFree t))

theorem file?_install (t : List (Option φ)) (f : φ) (fd : ℤ) :
    file? (install t f) fd = if fd = lowestFree t then some f else file? t fd := by
  by_cases hneg : fd < 0
  · rw [file?_neg hneg, file?_neg hneg, if_neg (by omega)]
  obtain ⟨n, rfl⟩ := Int.eq_ofNat_of_zero_le (not_lt.mp hneg)
  rw [file?_natCast, file?_natCast]
  have hle := lowestFree_le t
  unfold install
  split_ifs with h₁ h₂ h₂
  · have hn : n = lowestFree t := by exact_mod_cast h₂
    subst hn
    rw [List.getElem?_set_self h₁]
    rfl
  · rw [List.getElem?_set_ne (fun e => h₂ (by exact_mod_cast e.symm))]
  · have hn : n = t.length := by
      omega
    subst hn
    rw [List.getElem?_concat_length]
    rfl
  · rcases lt_or_ge n t.length with hn | hn
    · rw [List.getElem?_append_left hn]
    · rw [List.getElem?_eq_none (by simp; omega), List.getElem?_eq_none (by omega)]

theorem file?_installed_of_some {f : φ} (h : file? t fd = some f) (opened : Option φ) :
    file? (installed t opened) fd = some f := by
  cases opened with
  | none => exact h
  | some g =>
    refine (file?_install t g fd).trans ((if_neg fun hfd => ?_).trans h)
    rw [hfd, file?_lowestFree] at h
    cases h

theorem file?_installed_ne_none {opened : Option φ} (h : file? (installed t opened) fd ≠ none) :
    file? t fd ≠ none ∨ opened.isSome ∧ fd = lowestFree t := by
  cases opened with
  | none => exact .inl h
  | some g =>
    by_cases hfd : fd = lowestFree t
    · exact .inr ⟨rfl, hfd⟩
    · exact .inl (((file?_install t g fd).trans (if_neg hfd)).symm.trans_ne h)

theorem file?_release (t : List (Option φ)) (fd fd' : ℤ) (h : 0 ≤ fd) :
    file? (release t fd) fd' = if fd' = fd then none else file? t fd' := by
  by_cases hneg : fd' < 0
  · rw [file?_neg hneg, file?_neg hneg, ite_self]
  obtain ⟨n, rfl⟩ := Int.eq_ofNat_of_zero_le (not_lt.mp hneg)
  obtain ⟨m, rfl⟩ := Int.eq_ofNat_of_zero_le h
  rw [file?_natCast, file?_natCast, release, Int.toNat_natCast]
  split_ifs with he
  · have hn : n = m := by exact_mod_cast he
    subst hn
    rcases lt_or_ge n t.length with hn | hn
    · rw [List.getElem?_set_self hn]
      rfl
    · rw [List.getElem?_eq_none (by simpa using hn)]
      rfl
  · rw [List.getElem?_set_ne (fun e => he (by exact_mod_cast e.symm))]

end Table

section Calls
variable {φ : Type} (K : Kernel φ) (w : World φ)

def World.file? (w : World φ) (fd : ℤ) : Option φ := SystemCalls.file? w.fds fd

def World.fail (w : World φ) (r : Request) (e : Errno) : ℤ × World φ :=
  (-1, { w with errno := e, events := w.events ++ [⟨r, -1⟩] })

/-- A successful open: the lowest free descriptor now refers to `f`. -/
def World.opened (w : World φ) (r : Request) (f : φ) : ℤ × World φ :=
  (lowestFree w.fds,
    { w with fds := install w.fds f, events := w.events ++ [⟨r, lowestFree w.fds⟩] })

def World.answer (w : World φ) (r : Request) : Except Errno φ → ℤ × World φ
  | .error e => w.fail r e
  | .ok f => w.opened r f

/-- The kernel's answer to `openat`, with the two answers no kernel is free in. -/
def openatAnswer (dirfd : ℤ) (path : Option Text) (oflag : Flags) (mode : Option ℤ) :
    Except Errno φ :=
  match path with
  | none => .error efault
  | some [] => .error enoent
  | some p => K.openat w.events dirfd p oflag mode

def sysOpenat (dirfd : ℤ) (path : Option Text) (oflag : Flags) (mode : Option ℤ) : ℤ × World φ :=
  w.answer (.openat dirfd path oflag mode) (openatAnswer K w dirfd path oflag mode)

def openPathAnswer (path : Text) (oflag : Flags) (mode : Option ℤ) : Except Errno φ :=
  match path with
  | [] => .error enoent
  | p => K.openPath w.events p oflag mode

def sysOpen (path : Text) (oflag : Flags) (mode : Option ℤ) : ℤ × World φ :=
  w.answer (.openPath path oflag mode) (openPathAnswer K w path oflag mode)

def sysWrite (fd : ℤ) (data : Text) : ℤ × World φ :=
  match K.write w.events fd data with
  | .error e => w.fail (.write fd data) e
  | .ok n => (n, { w with events := w.events ++ [⟨.write fd data, n⟩] })

def sysClose (fd : ℤ) : ℤ × World φ :=
  match w.file? fd with
  | none => w.fail (.close fd) ebadf
  | some _ =>
    let w' := { w with fds := release w.fds fd }
    match K.close w.events fd with
    | some e => w'.fail (.close fd) e
    | none => (0, { w' with events := w.events ++ [⟨.close fd, 0⟩] })

variable {K w}

variable {fd : ℤ}

theorem World.file?_neg (h : fd < 0) : w.file? fd = none := SystemCalls.file?_neg h

theorem World.fst_answer (r : Request) (a : Except Errno φ) :
    (w.answer r a).1 = match a with | .error _ => -1 | .ok _ => (lowestFree w.fds : ℤ) := by
  cases a <;> rfl

theorem World.fds_answer (r : Request) (a : Except Errno φ) :
    (w.answer r a).2.fds = installed w.fds a.toOption := by
  cases a <;> rfl

theorem World.file?_answer_of_ne {r : Request} {a : Except Errno φ} (h : fd ≠ (w.answer r a).1) :
    (w.answer r a).2.file? fd = w.file? fd := by
  cases a with
  | error e => rfl
  | ok f => exact (file?_install w.fds f fd).trans (if_neg h)

def World.openRequests (w : World φ) : List Request :=
  (w.events.map (·.request)).filter isOpen

theorem World.openRequests_answer {r : Request} (hr : isOpen r = true) (a : Except Errno φ) :
    (w.answer r a).2.openRequests = w.openRequests ++ [r] := by
  cases a <;> simp [World.answer, World.fail, World.opened, World.openRequests, hr]

theorem sysClose_openRequests (fd : ℤ) :
    (sysClose K w fd).2.openRequests = w.openRequests := by
  unfold sysClose
  cases w.file? fd with
  | none => simp [World.fail, World.openRequests, isOpen]
  | some f =>
    cases K.close w.events fd <;> simp [World.fail, World.openRequests, isOpen]

theorem sysWrite_fds (fd : ℤ) (data : Text) : (sysWrite K w fd data).2.fds = w.fds := by
  unfold sysWrite
  split <;> rfl

theorem sysClose_of_not_open (h : w.file? fd = none) :
    sysClose K w fd = w.fail (.close fd) ebadf := by
  unfold sysClose
  rw [h]

theorem sysClose_file? (fd fd' : ℤ) :
    (sysClose K w fd).2.file? fd' = if fd' = fd then none else w.file? fd' := by
  unfold sysClose
  cases h : w.file? fd with
  | none =>
    change w.file? fd' = _
    split_ifs with he
    · rw [he, h]
    · rfl
  | some f =>
    have h₀ : 0 ≤ fd := by
      by_contra hn
      rw [World.file?_neg (by omega)] at h
      cases h
    have hr := file?_release w.fds fd fd' h₀
    cases hc : K.close w.events fd <;> exact hr

/-- A kernel that refuses every open with one error. -/
def refusing (e : Errno) : Kernel φ where
  openat _ _ _ _ _ := .error e
  openPath _ _ _ _ := .error e
  write _ _ _ := .error e
  close _ _ := none
  getcwd _ := .error e

def startWorld : World Unit := ⟨0, [some (), some (), some ()], []⟩

end Calls

end AwaitGlibc.SystemCalls

import AwaitGlibc.LibrarySearch

/-!
# Mapping an object

`_dl_map_object` first looks for the name among the objects that are already
loaded. If it is not there the object file is found, by the library search or,
for a name with a slash, through the name itself after expansion of its tokens,
and `_dl_map_object_from_fd` maps it and closes the descriptor. The descriptor
of an executable, once set by `dl_main`, takes the place of the open for every
name with a slash.

What is in an object file beyond its header is a parameter: the identity of the
file, and whether its segments can be mapped.
-/
namespace AwaitGlibc.MapObject
open CText CheckedArray SystemCalls OpenatPaths LibraryPaths LibrarySearch

/-- Device and inode; both are zero for the executable of an explicit call. -/
abbrev FileId := ℕ × ℕ

/-- The parts of a link map by which a loaded object is recognised. -/
structure Object where
  lName : Text
  libNames : List Text
  soname : Option Text
  sonameAdded : Bool
  faked : Bool
  removed : Bool
  fileId : FileId
deriving DecidableEq, Repr

/-- `_dl_name_match_p`. -/
def Object.nameMatch (name : Text) (o : Object) : Bool := o.lName == name || o.libNames.contains name

def Object.addName (name : Text) (o : Object) : Object :=
  if o.libNames.contains name then o else { o with libNames := o.libNames ++ [name] }

/-- One call of `_dl_map_object`. The expansion of tokens is that of the loader. -/
structure MapCall where
  call : Call
  name : Text
  expand : Text → Option Text
  nsid : ℕ
  openexec : Bool
  noload : Bool
  traceMode : Bool

/-- What the rest of an object file decides. A file that can be mapped may have
an soname. -/
structure Images (φ : Type) where
  fileId : φ → Except Errno FileId
  load : MapCall → φ → Except (Errno × Text) (Option Text)

/-- The loader's data between calls. `execFd` is `GL(dl_exec_fd)`. -/
structure Rtld (φ : Type) where
  loader : Loader φ
  loaded : ℕ → List Object
  rtldMap : Object
  openatPaths : Option (Block ℤ)
  execFd : ℤ

def cannotStatSharedObject : Text := "cannot stat shared object".toList
def cannotCloseFileDescriptor : Text := "cannot close file descriptor".toList
def cannotOpenSharedObjectFile : Text := "cannot open shared object file".toList
def wrongElfClass : Text := "wrong ELF class: ELFCLASS32".toList

/-- The first object that a test accepts, and the list with it in its new form. -/
def updateFirst (accept : Object → Option Object) : List Object → Option (Object × List Object)
  | [] => none
  | o :: os =>
    match accept o with
    | some o' => some (o', o' :: os)
    | none => (updateFirst accept os).map fun r => (r.1, o :: r.2)

/-- A loaded object is used when one of its names or its soname is asked for. -/
def acceptName (name : Text) (o : Object) : Option Object :=
  if o.faked || o.removed then none
  else if o.nameMatch name then some o
  else if !o.sonameAdded && o.soname == some name then
    some { o.addName name with sonameAdded := true }
  else none

def acceptFile (id : FileId) (name : Text) (o : Object) : Option Object :=
  if !o.removed && o.fileId == id then some (o.addName name) else none

section Model
variable {φ : Type} (K : Kernel φ) (D : Disk φ) (I : Images φ)

def Rtld.world (p : Rtld φ) : World φ := p.loader.search.world

def Rtld.setWorld (p : Rtld φ) (w : World φ) : Rtld φ :=
  { p with loader := p.loader.setSearch { p.loader.search with world := w } }

def Rtld.setLoaded (p : Rtld φ) (nsid : ℕ) (os : List Object) : Rtld φ :=
  { p with loaded := fun n => if n = nsid then os else p.loaded n }

/-- `_dl_add_to_namespace_list`. -/
def Rtld.addToNamespace (p : Rtld φ) (nsid : ℕ) (o : Object) : Rtld φ :=
  p.setLoaded nsid (p.loaded nsid ++ [o])

/-- `_dl_new_object`: the name of an executable is not recorded. -/
def newObject (m : MapCall) (realname : Text) (soname : Option Text) (id : FileId) : Object where
  lName := if m.openexec then [] else realname
  libNames := [if m.openexec then [] else m.name]
  soname := soname
  sonameAdded := false
  faked := false
  removed := false
  fileId := id

/-- An error after which the descriptor is closed. -/
def lose {α : Type} (m : MapCall) (fd : ℤ) (w : World φ) (errval : Errno) (errstring : Text) :
    Except (Stop φ) α :=
  .error (.signal (sysClose K w fd).2 errval m.name errstring)

/-- The segments are mapped and the object is entered in its namespace. When the
close fails it is repeated. -/
def mapSegments (m : MapCall) (fd : ℤ) (f : φ) (realname : Text) (id : FileId) (p : Rtld φ) :
    Except (Stop φ) (Option Object × Rtld φ) :=
  match I.load m f with
  | .error (errval, errstring) => lose K m fd p.world errval errstring
  | .ok soname =>
    let r := sysClose K p.world fd
    if r.1 ≠ 0 then lose K m fd r.2 r.2.errno cannotCloseFileDescriptor
    else
      let o := newObject m realname soname id
      .ok (some o, (p.setWorld r.2).addToNamespace m.nsid o)

def mapObjectFromFd (m : MapCall) (fd : ℤ) (f : φ) (realname : Text) (p : Rtld φ) :
    Except (Stop φ) (Option Object × Rtld φ) :=
  let closed := p.setWorld (sysClose K p.world fd).2
  if m.openexec then
    if m.noload then .ok (none, closed) else mapSegments K I m fd f realname (0, 0) p
  else
    match I.fileId f with
    | .error e => lose K m fd p.world e cannotStatSharedObject
    | .ok id =>
      match updateFirst (acceptFile id m.name) (p.loaded m.nsid) with
      | some (o, os) => .ok (some o, closed.setLoaded m.nsid os)
      | none =>
        -- there is only one copy of the loader itself
        if m.nsid ≠ 0 ∧ (id = p.rtldMap.fileId ∨ p.rtldMap.nameMatch m.name) then
          let o := newObject m realname none (0, 0)
          .ok (some o, closed.addToNamespace m.nsid o)
        else if m.noload then .ok (none, closed)
        else mapSegments K I m fd f realname id p

/-- The name of the file: without a loader there is nothing to expand. -/
def MapCall.realname (m : MapCall) : Option Text :=
  match m.call.loader with
  | none => some m.name
  | some _ => m.expand m.name

def findFile (m : MapCall) (p : Rtld φ) : Except (Stop φ) (ℤ × Loader φ) :=
  if '/' ∉ m.name then searchLibrary K D m.call m.name p.openatPaths p.loader
  else
    match m.realname with
    | none => .ok (-1, p.loader.setSearch (freshSearch p.loader.search))
    | some realname => do
        let (fd, s) ← openVerify K D realname (if 0 < p.execFd then p.execFd else -1)
          (freshSearch p.loader.search)
        return (fd, p.loader.setSearch { s with realname := some realname })

/-- No file: an entry is faked when libraries are only listed. -/
def noFile (m : MapCall) (p : Rtld φ) : Except (Stop φ) (Option Object × Rtld φ) :=
  if m.traceMode then
    let o := { newObject m m.name none (0, 0) with faked := true }
    .ok (some o, p.addToNamespace m.nsid o)
  else if p.loader.search.foundOtherClass then .error (.signal p.world 0 m.name wrongElfClass)
  else .error (.signal p.world p.world.errno m.name cannotOpenSharedObjectFile)

/-- What is done with the file found. A descriptor that was not verified leaves
the header buffer and the name of the file unset. -/
def mapFound (m : MapCall) (fd : ℤ) (p : Rtld φ) : Except (Stop φ) (Option Object × Rtld φ) :=
  if fd = -1 then noFile m p
  else
    match p.loader.search.fb, p.loader.search.realname with
    | some f, some realname => mapObjectFromFd K I m fd f realname p
    | _, _ => .error (.fault .unsetField)

variable {K I} in
theorem mapFound_of_file {m : MapCall} {fd : ℤ} {f : φ} {realname : Text} {p : Rtld φ}
    (hfd : fd ≠ -1) (hfb : p.loader.search.fb = some f)
    (hname : p.loader.search.realname = some realname) :
    mapFound K I m fd p = mapObjectFromFd K I m fd f realname p := by
  simp only [mapFound, if_neg hfd, hfb, hname]

def mapObject (m : MapCall) (p : Rtld φ) : Except (Stop φ) (Option Object × Rtld φ) :=
  match updateFirst (acceptName m.name) (p.loaded m.nsid) with
  | some (o, os) => .ok (some o, p.setLoaded m.nsid os)
  | none => do
      let (fd, σ) ← findFile K D m p
      mapFound K I m fd { p with loader := σ }

end Model

end AwaitGlibc.MapObject

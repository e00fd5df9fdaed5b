import Mathlib.Tactic

/-!
Who may do what to an inode, and the dentries.  A section of code under one lock is one function
here.
-/

namespace Ferrix.Vfs.Dentries

inductive Errno where
  | perm | noent | access | busy | exist | xdev | notdir | isdir | inval | nospc | nomem | rofs
  | loop | nametoolong | notempty | again | toobig | badf
  deriving DecidableEq

inductive FileType where
  | regular | directory | symlink | charDevice | blockDevice | fifo | socket
  deriving DecidableEq

structure Metadata where
  kind : FileType
  permissions : BitVec 32
  uid : Nat
  gid : Nat
  deriving DecidableEq

def mayWrite : BitVec 32 := 2
def mayExec : BitVec 32 := 1
def sticky : BitVec 32 := 0o1000

structure Access where
  uid : Nat
  gid : Nat
  groups : List Nat
  deriving DecidableEq

namespace Access

def root : Access := ⟨0, 0, []⟩

def privileged (who : Access) : Bool := who.uid = 0

def inGroup (who : Access) (gid : Nat) : Bool := who.gid = gid || who.groups.contains gid

/-- Whether every access in `want` is allowed on an object: the owner's bits apply to the owner even
where the group's allow more, and root lacks only execute without a bit for it. -/
def permitted (who : Access) (object : Metadata) (want : BitVec 32) : Bool :=
  let mode := object.permissions
  let bits :=
    if who.uid = object.uid then (mode >>> 6) &&& 7
    else if who.inGroup object.gid then (mode >>> 3) &&& 7
    else mode &&& 7
  if want &&& ~~~bits &&& 7 = 0 then true
  else if !who.privileged then false
  else object.kind = .directory || want &&& mayExec = 0 || mode &&& 0o111 ≠ 0

def require (who : Access) (object : Metadata) (want : BitVec 32) : Except Errno Unit :=
  if who.permitted object want then .ok () else .error .access

def mayCreate (who : Access) (dir : Metadata) : Except Errno Unit :=
  who.require dir (mayWrite ||| mayExec)

/-- Write and search on the directory, and in a sticky one ownership of the victim or of the
directory. -/
def mayDelete (who : Access) (dir victim : Metadata) : Except Errno Unit := do
  who.require dir (mayWrite ||| mayExec)
  let isSticky : Bool := dir.permissions &&& sticky ≠ 0
  if isSticky && who.uid ≠ victim.uid && who.uid ≠ dir.uid && !who.privileged then
    throw .perm

end Access

abbrev Name := List UInt8
abbrev Ino := Nat
abbrev DentryId := Nat

/-- One name in the tree.  `alive` says that something holds it, so that a weak reference to it
can still be upgraded; `children` are weak references. -/
structure Dentry where
  name : Name
  parent : Option DentryId
  inode : Option Ino
  unhashed : Bool
  children : Name → Option DentryId
  generation : Nat
  mounts : Nat
  alive : Bool

namespace Dentry

def blank : Dentry where
  name := []
  parent := none
  inode := none
  unhashed := false
  children := fun _ => none
  generation := 0
  mounts := 0
  alive := false

def new (name : Name) (parent : Option DentryId) (inode : Option Ino) : Dentry where
  name := name
  parent := parent
  inode := inode
  unhashed := false
  children := fun _ => none
  generation := 0
  mounts := 0
  alive := true

end Dentry

structure Dcache where
  dentries : DentryId → Dentry
  next : Nat

namespace Dcache

variable (cache : Dcache)

def update (d : DentryId) (f : Dentry → Dentry) : Dcache :=
  { cache with dentries := Function.update cache.dentries d (f (cache.dentries d)) }

def add (dentry : Dentry) : Dcache where
  dentries := Function.update cache.dentries cache.next dentry
  next := cache.next + 1

def addMount (d : DentryId) : Dcache :=
  cache.update d fun dentry => { dentry with mounts := dentry.mounts + 1 }

def removeMount (d : DentryId) : Dcache :=
  cache.update d fun dentry => { dentry with mounts := dentry.mounts - 1 }

def upgrade (weak : Option DentryId) : Option DentryId :=
  weak.filter fun d => (cache.dentries d).alive

def cachedChild (dir : DentryId) (name : Name) : Option DentryId :=
  cache.upgrade ((cache.dentries dir).children name)

def hash (dir : DentryId) (name : Name) (child : DentryId) : Dcache :=
  cache.update dir fun dentry =>
    { dentry with children := Function.update dentry.children name (some child) }

def bump (dir : DentryId) : Dcache :=
  cache.update dir fun dentry => { dentry with generation := dentry.generation + 1 }

def retain (dir : DentryId) : Dcache :=
  cache.update dir fun dentry =>
    { dentry with children := fun name => cache.upgrade (dentry.children name) }

/-- Record what a lookup found, if nothing changed meanwhile: the dentry to use and whether it is
new, or nothing if the answer may be stale. -/
def insertLookedUp (dir : DentryId) (name : Name) (inode : Option Ino) (generation : Nat) :
    Option (DentryId × Bool) × Dcache :=
  match cache.cachedChild dir name with
  | some existing => (some (existing, false), cache)
  | none =>
    if (cache.dentries dir).generation ≠ generation then (none, cache)
    else
      (some (cache.next, true),
        ((cache.add (.new name (some dir) inode)).retain dir).hash dir name cache.next)

def uncachedChild (dir : DentryId) (name : Name) (inode : Option Ino) : DentryId × Dcache :=
  (cache.next, cache.add (.new name (some dir) inode))

end Dcache

end Ferrix.Vfs.Dentries

import Ferrix.Foundations.Programs
import Ferrix.Foundations.SortedMaps
import Ferrix.Foundations.ParentPointers
import Ferrix.Vfs.Dentries
import Mathlib.Data.Prod.Lex

/-!
Each namespace has a table of its mounts, keyed by the identifier of the mount a mount point is in
and that of the dentry it covers.  The calls that change a table run under the namespace's change
lock, one at a time.
-/

namespace Ferrix.Vfs.Mounts

open Foundations Programs SortedMaps ParentPointers Dentries Function

abbrev MountRef := Nat
abbrev TreeRef := Nat

structure Location where
  mount : MountRef
  dentry : DentryId
  deriving DecidableEq

structure Mount where
  id : Nat
  flags : BitVec 32
  sb : Nat
  root : DentryId
  parent : Option Location
  tree : Option TreeRef
  deriving DecidableEq

def detachedMount : Nat := 0

def Mount.blank : Mount where
  id := detachedMount
  flags := 0
  sb := 0
  root := 0
  parent := none
  tree := none

structure Inodes where
  metadata : Ino → Metadata
  lookup : Ino → Name → Except Errno Ino
  readLink : Ino → Except Errno (List UInt8)
  linkLocation : Ino → Option (Except Errno Location)
  cachesLookups : Ino → Bool
  cachesLookupOf : Ino → Name → Bool

abbrev Key := Nat ×ₗ Nat

abbrev Table := SortedMap Key MountRef

structure Namespace where
  root : MountRef
  table : Table

/-- The kernel's dentries, mounts and namespaces.  `charges` are the answers the memory accounting
gives to the requests to come: `true` refuses one. -/
structure World where
  cache : Dcache
  inodes : Inodes
  mounts : MountRef → Mount
  made : Nat
  nextMount : Nat
  spaces : TreeRef → Option Namespace
  spaceCount : Nat
  charges : List Bool

abbrev Call := Program World Errno

def mountMax : Nat := 4096

namespace World

variable (w : World)

def dentry (d : DentryId) : Dentry := w.cache.dentries d

def above (m : MountRef) : Option MountRef := (w.mounts m).parent.map Location.mount

def key (loc : Location) : Key := toLex ((w.mounts loc.mount).id, loc.dentry)

def setCache (cache : Dcache) : World := { w with cache := cache }

def setMount (m : MountRef) (mount : Mount) : World :=
  { w with mounts := update w.mounts m mount }

def setParent (m : MountRef) (parent : Option Location) : World :=
  w.setMount m { w.mounts m with parent := parent }

def setTable (t : TreeRef) (table : Table) : World :=
  let space := (w.spaces t).map fun space => { space with table := table }
  { w with spaces := update w.spaces t space }

def table (t : TreeRef) : Table := ((w.spaces t).map Namespace.table).getD ∅

def isMountRoot (loc : Location) : Bool := loc.dentry = (w.mounts loc.mount).root

/-- Whether a mount is in a namespace's tree: its root, or in its table on the place its parent
pointer names. -/
def owns (t : TreeRef) (m : MountRef) : Bool :=
  match w.spaces t with
  | none => false
  | some space =>
    if m = space.root then true
    else if (w.mounts m).tree ≠ some t then false
    else
      match (w.mounts m).parent with
      | none => false
      | some place => space.table.get? (w.key place) = some m

def isAncestorOf (d other : DentryId) : Bool :=
  go w.cache.next other
where
  go : Nat → DentryId → Bool
    | 0, here => d = here
    | fuel + 1, here =>
      d = here ||
        match (w.dentry here).parent with
        | none => false
        | some parent => go fuel parent

/-- `..` from a place, never above `root` if there is one: at the root of a mount it is `..` of the
place the mount is on, possibly several mounts up. -/
def up (loc : Location) (root : Option Location) : Location :=
  go (w.made + 1) loc
where
  go : Nat → Location → Location
    | 0, here => here
    | fuel + 1, here =>
      if root = some here then here
      else if here.dentry = (w.mounts here.mount).root then
        match (w.mounts here.mount).parent with
        | some place => go fuel place
        | none => here
      else
        match (w.dentry here.dentry).parent with
        | some parent => ⟨here.mount, parent⟩
        | none => here

def reaches (source target : Location) : Bool :=
  go ((w.made + 1) * (w.cache.next + 1)) source
where
  go : Nat → Location → Bool
    | 0, here => here = target
    | fuel + 1, here =>
      if here = target then true
      else
        let above := w.up here none
        if above = here then false else go fuel above

def mountedOn (loc : Location) : Option MountRef :=
  (w.mounts loc.mount).tree.bind fun t => (w.spaces t).bind fun space =>
    space.table.get? (w.key loc)

/-- Step onto whatever is mounted on a place, repeatedly. -/
def descendMounts (loc : Location) : Location :=
  go (w.made + 1) loc
where
  go : Nat → Location → Location
    | 0, here => here
    | fuel + 1, here =>
      if (w.dentry here.dentry).mounts = 0 then here
      else
        match w.mountedOn here with
        | none => here
        | some m => go fuel ⟨m, (w.mounts m).root⟩

end World

open Program

def charge : Call Unit := fun w =>
  match w.charges with
  | [] => (.ok (), w)
  | refused :: rest => (if refused then .error .nomem else .ok (), { w with charges := rest })

def tryReserve : Call Unit := charge

def inode (loc : Location) : Call Ino := do
  ofOption (← view fun w => (w.dentry loc.dentry).inode) .noent

def kind (loc : Location) : Call FileType := do
  let ino ← inode loc
  view fun w => (w.inodes.metadata ino).kind

def dentryRoot (name : Name) (ino : Ino) : Call DentryId := do
  charge
  let d ← view fun w => w.cache.next
  modify fun w => w.setCache (w.cache.add (.new name none (some ino)))
  pure d

def nextId : Call Nat := do
  let id ← view World.nextMount
  modify fun w => { w with nextMount := id + 1 }
  pure id

def newMount (mount : Mount) : Call MountRef := do
  let m ← view World.made
  modify fun w => { w.setMount m mount with made := m + 1 }
  pure m

def detached (name : Name) (ino : Ino) : Call Location := do
  charge
  let d ← dentryRoot name ino
  let sb ← view World.made
  let m ← newMount
    { id := detachedMount, flags := 0, sb := sb, root := d, parent := none, tree := none }
  pure ⟨m, d⟩

def place (t : TreeRef) (m : MountRef) : Option Location → Call Unit
  | none => pure ()
  | some loc => modify fun w =>
    (w.setTable t ((w.table t).insert (w.key loc) m)).setCache (w.cache.addMount loc.dentry)

def attach (t : TreeRef) (mounts : List MountRef) : Call Unit := do
  tryReserve
  let placed ← view fun w => mounts.map fun m => (w.mounts m).parent
  let busy ← view fun w =>
    match placed.head? with
    | some (some loc) => ((w.table t).get? (w.key loc)).isSome
    | _ => false
  require (!busy) .busy
  require (← view fun w => decide ((w.table t).size + 1 + mounts.length ≤ mountMax)) .nospc
  each (fun (entry : MountRef × Option Location) => place t entry.1 entry.2) (mounts.zip placed)

def mountWith (t : TreeRef) (fs : Ino) (loc : Location) (flags : BitVec 32) : Call MountRef := do
  require ((← kind loc) = .directory) .notdir
  require (← view fun w => w.owns t loc.mount) .inval
  charge
  let root ← dentryRoot [47] fs
  let id ← nextId
  let sb ← view World.made
  let m ← newMount
    { id := id, flags := flags, sb := sb, root := root, parent := some loc, tree := some t }
  attach t [m]
  pure m

def snapshot (t : TreeRef) : Call (List MountRef) := do
  tryReserve
  view fun w => (w.table t).entries.map Prod.snd

/-- The mounts below `top`, each after its parent: those on it whose mount point is at or below
`within`, and then everything on those. -/
def descendants (t : TreeRef) (top : MountRef) (within : Option DentryId) :
    Call (List MountRef) := do
  let all ← snapshot t
  tryReserve
  view fun w =>
    let inside (m : MountRef) : Bool :=
      match (w.mounts m).parent, within with
      | none, _ => false
      | some _, none => true
      | some place, some d => w.isAncestorOf d place.dentry
    gather (below w.above all) all.length ((below w.above all top).filter inside)

def copyOf (like : MountRef) (root : DentryId) (parent : Option Location) (t : TreeRef) :
    Call MountRef := do
  charge
  let id ← nextId
  let original ← view fun w => w.mounts like
  newMount
    { id := id, flags := original.flags, sb := original.sb, root := root, parent := parent,
      tree := some t }

/-- The copies of `originals`, each on the copy of its parent: `made` are the copies of the mounts
of `before`, in their order. -/
def bindCopies (t : TreeRef) : List MountRef → List MountRef → List MountRef → Call (List MountRef)
  | _, made, [] => pure made
  | before, made, original :: rest => do
    let parent ← ofOption (← view fun w => (w.mounts original).parent) .inval
    let copiedAbove ← ofOption ((before.idxOf? parent.mount).bind (made[·]?)) .inval
    let root ← view fun w => (w.mounts original).root
    let copy ← copyOf original root (some ⟨copiedAbove, parent.dentry⟩) t
    bindCopies t (before ++ [original]) (made ++ [copy]) rest

def taken (t : TreeRef) (top : MountRef) (within : Option DentryId) (all : Bool) :
    Call (List MountRef) :=
  if all then do
    let below ← descendants t top within
    tryReserve
    pure below
  else pure []

def bind (t : TreeRef) (source target : Location) (recursive : Bool) : Call MountRef := do
  let sourceDir := (← kind source) = .directory
  let targetDir := (← kind target) = .directory
  require (decide sourceDir == decide targetDir) .notdir
  require (← view fun w => w.owns t source.mount && w.owns t target.mount) .inval
  tryReserve
  let below ← taken t source.mount (some source.dentry) recursive
  tryReserve
  let first ← copyOf source.mount source.dentry (some target) t
  let made ← bindCopies t [source.mount] [first] below
  attach t made
  pure first

def disconnect (t : TreeRef) (m : MountRef) : Call Unit := do
  match ← view fun w => (w.mounts m).parent with
  | none => pure ()
  | some loc => modify fun w =>
    (w.setTable t ((w.table t).erase (w.key loc))).setCache (w.cache.removeMount loc.dentry)
  modify fun w => w.setParent m none

def unmountWith (t : TreeRef) (loc : Location) (detach : Bool) : Call Unit := do
  require (← view fun w => w.isMountRoot loc) .inval
  let parent ← ofOption (← view fun w => (w.mounts loc.mount).parent) .inval
  require (← view fun w => w.owns t loc.mount) .inval
  require (← view fun w => decide ((w.spaces t).map Namespace.root ≠ some parent.mount)) .busy
  tryReserve
  let inside ← taken t loc.mount none detach
  tryReserve
  require (← view fun w => detach || !(w.table t).entries.any fun entry =>
    (ofLex entry.1).1 = (w.mounts loc.mount).id) .busy
  each (disconnect t) (loc.mount :: inside)

/-- The copies of `originals` and the table they make, for the tree `copy` of a new namespace:
`index` leads from an original's identifier to its place among the copies made. -/
def copyMounts (copy : TreeRef) : (Nat → Option Nat) → List MountRef → Table → List MountRef →
    Call ((Nat → Option Nat) × List MountRef × Table)
  | index, made, table, [] => pure (index, made, table)
  | index, made, table, original :: rest => do
    let parent ← match ← view fun w => (w.mounts original).parent with
      | none => pure none
      | some loc => do
        let id ← view fun w => (w.mounts loc.mount).id
        let copiedAbove ← ofOption ((index id).bind (made[·]?)) .inval
        pure (some (⟨copiedAbove, loc.dentry⟩ : Location))
    let root ← view fun w => (w.mounts original).root
    let m ← copyOf original root parent copy
    let table' ← view fun w =>
      match parent with
      | none => table
      | some loc => table.insert (w.key loc) m
    let id ← view fun w => (w.mounts original).id
    copyMounts copy (update index id (some made.length)) (made ++ [m]) table' rest

def copy (t : TreeRef) (places : List Location) : Call (TreeRef × List Location) := do
  charge
  let root ← ofOption (← view fun w => (w.spaces t).map Namespace.root) .inval
  let below ← descendants t root none
  tryReserve
  let copy ← view World.spaceCount
  tryReserve
  let (index, made, table) ← copyMounts copy (fun _ => none) [] ∅ (root :: below)
  let newRoot ← ofOption made.head? .inval
  let moved ← view fun w => places.map fun place =>
    match (index (w.mounts place.mount).id).bind (made[·]?) with
    | some m => { place with mount := m }
    | none => place
  each (fun m => modify fun w =>
    match (w.mounts m).parent with
    | some loc => w.setCache (w.cache.addMount loc.dentry)
    | none => w) made.tail
  modify fun w => { w with
    spaces := update w.spaces copy (some ⟨newRoot, table⟩)
    spaceCount := copy + 1 }
  pure (copy, moved)

/-- What a pivot changes under the table's lock: the new root first, onto the old root's place, then
the old root onto `putOld`. -/
def exchange (t : TreeRef) (old new : MountRef) (putOld rootPlace exPlace : Location) :
    Call Unit := do
  modify fun w => (w.setTable t ((w.table t).erase (w.key exPlace))).setCache
    (w.cache.removeMount exPlace.dentry)
  modify fun w => w.setTable t ((w.table t).erase (w.key rootPlace))
  modify fun w => w.setParent new (some rootPlace)
  modify fun w => w.setTable t ((w.table t).insert (w.key rootPlace) new)
  modify fun w => w.setParent old (some putOld)
  modify fun w => (w.setTable t ((w.table t).insert (w.key putOld) old)).setCache
    (w.cache.addMount putOld.dentry)

def pivotRoot (t : TreeRef) (root newRoot putOld : Location) : Call Unit := do
  require ((← kind newRoot) = .directory) .notdir
  require ((← kind putOld) = .directory) .notdir
  require (← view fun w => w.owns t root.mount && w.owns t newRoot.mount &&
    w.owns t putOld.mount) .inval
  require (!(← view fun w => (w.dentry newRoot.dentry).unhashed)) .noent
  require (newRoot.mount ≠ root.mount && putOld.mount ≠ root.mount) .busy
  let rootPlace ← ofOption (← view fun w => (w.mounts root.mount).parent) .inval
  let exPlace ← ofOption (← view fun w => (w.mounts newRoot.mount).parent) .inval
  require (← view fun w => w.isMountRoot root && w.isMountRoot newRoot &&
    w.reaches putOld newRoot && w.reaches newRoot root) .inval
  require (← view fun w => ((w.table t).get? (w.key putOld)).isNone) .busy
  exchange t root.mount newRoot.mount putOld rootPlace exPlace

def dropNamespace (t : TreeRef) : Call Unit := do
  let all ← view fun w => (w.table t).entries.map Prod.snd
  modify fun w => w.setTable t ∅
  each (fun m => modify fun w =>
    match (w.mounts m).parent with
    | some loc => w.setCache (w.cache.removeMount loc.dentry)
    | none => w) all
  each (fun m => modify fun w => w.setParent m none) all
  modify fun w => { w with spaces := update w.spaces t none }

end Ferrix.Vfs.Mounts

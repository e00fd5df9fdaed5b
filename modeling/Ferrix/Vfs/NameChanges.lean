import Ferrix.Vfs.Dentries

/-!
Any number of threads look names up, make, link, remove and rename.  A step is one section of code
under a lock; a call may be refused anywhere before it changes the filesystem.
-/

namespace Ferrix.Vfs.Dentries.Dcache

variable (cache : Dcache)

def fill (dir : DentryId) (name : Name) (walked : DentryId) (ino : Ino) : Dcache :=
  let target := (cache.cachedChild dir name).getD walked
  let positive := (cache.update target fun dentry => { dentry with unhashed := false }).update
    target fun dentry => { dentry with inode := some ino }
  let both := if target = walked then positive
    else positive.update walked fun dentry => { dentry with inode := some ino }
  (both.hash dir name target).bump dir

/-- Take a name out of a directory's children and unhash what held it: `remove_name` under the
children lock, before the generation is bumped. -/
def unhash (dir : DentryId) (name : Name) : Dcache :=
  let removed := cache.update dir fun dentry =>
    { dentry with children := Function.update dentry.children name none }
  match cache.cachedChild dir name with
  | none => removed
  | some child => removed.update child fun dentry => { dentry with unhashed := true }

def rehang (child newDir : DentryId) (newName : Name) : Dcache :=
  cache.update child fun dentry =>
    { dentry with name := newName, parent := some newDir, unhashed := false }

end Ferrix.Vfs.Dentries.Dcache

namespace Ferrix.Vfs.NameChanges

open Dentries

inductive New where
  | node (kind : FileType)
  | link (ino : Ino)

/-- A filesystem: what each directory's names lead to.  Inodes from `next` on have not been made. -/
structure Fs where
  names : Ino → Name → Option Ino
  metadata : Ino → Metadata
  next : Nat

namespace Fs

variable (fs : Fs)

def kind (ino : Ino) : FileType := (fs.metadata ino).kind

def set (dir : Ino) (name : Name) (ino : Option Ino) : Fs :=
  { fs with names := Function.update fs.names dir (Function.update (fs.names dir) name ino) }

def make (dir : Ino) (name : Name) (new : New) (metadata : Metadata) : Option (Fs × Ino) :=
  if (fs.names dir name).isSome then none
  else
    match new with
    | .node kind =>
      if metadata.kind = kind then
        some ({ fs.set dir name (some fs.next) with
          metadata := Function.update fs.metadata fs.next metadata
          next := fs.next + 1 }, fs.next)
      else none
    | .link ino =>
      if fs.kind ino = .directory then none else some (fs.set dir name (some ino), ino)

def Removable (dir : Ino) (name : Name) (directory : Bool) (ino : Ino) : Prop :=
  fs.names dir name = some ino ∧ (fs.kind ino = .directory ↔ directory = true) ∧
    (directory = true → ino ≠ dir ∧ ∀ entry, fs.names ino entry = none)

/-- What a rename may replace: nothing, or another inode of the same sort, if a directory an empty
one. -/
def Replaceable (old : Ino × Name) (new : Ino × Name) : Prop :=
  ∀ ino victim, fs.names old.1 old.2 = some ino → fs.names new.1 new.2 = some victim →
    victim ≠ ino → (fs.kind victim = .directory ↔ fs.kind ino = .directory) ∧
      (fs.kind victim = .directory → ∀ entry, fs.names victim entry = none)

def rename (old new : Ino × Name) : Option Fs :=
  match fs.names old.1 old.2 with
  | none => none
  | some ino =>
    if fs.names new.1 new.2 = some ino then some fs
    else some ((fs.set old.1 old.2 none).set new.1 new.2 (some ino))

end Fs

structure Bound where
  dir : DentryId
  name : Name
  walked : DentryId

abbrev Key := DentryId × Name

def Bound.key (b : Bound) : Key := (b.dir, b.name)

inductive Use where
  | lookup
  | make (new : New)
  | remove (directory : Bool)
  | renameOld
  | renameNew (old : Bound)

inductive Stage where
  | renamed
  | unhashedOld
  | bumpedOld
  | unhashedNew
  | bumpedNew
  | rehung

/-- Where a thread is.  From `seek` to `answered` it is in the loop that finds a directory's
child. -/
inductive Pc where
  | idle
  | seek (use : Use) (dir : DentryId) (ino : Ino) (name : Name)
  | missed (use : Use) (dir : DentryId) (ino : Ino) (name : Name)
  | asked (use : Use) (dir : DentryId) (ino : Ino) (name : Name) (generation : Nat)
  | answered (use : Use) (dir : DentryId) (ino : Ino) (name : Name) (generation : Nat)
      (found : Option Ino)
  | making (new : New) (b : Bound)
  | allowed (new : New) (b : Bound) (ino : Ino)
  | filling (b : Bound) (ino : Ino)
  | removing (directory : Bool) (b : Bound)
  | permitted (directory : Bool) (b : Bound) (ino : Ino)
  | unhashing (b : Bound)
  | bumping (b : Bound)
  | renamingOld (old : Bound)
  | renamePair (old new : Bound)
  | moving (old new : Bound) (ino : Ino) (victim : Option Ino)
  | moved (stage : Stage) (old new : Bound)

def Use.next : Use → Bound → Pc
  | .lookup, _ => .idle
  | .make new, b => .making new b
  | .remove directory, b => .removing directory b
  | .renameOld, b => .renamingOld b
  | .renameNew old, b => .renamePair old b

def Use.claims : Use → Key → Option Key
  | .lookup, _ => none
  | _, key => some key

def Use.bounds : Use → List Bound
  | .renameNew old => [old]
  | _ => []

namespace Pc

def bounds : Pc → List Bound
  | .idle => []
  | .seek use _ _ _ => use.bounds
  | .missed use _ _ _ => use.bounds
  | .asked use _ _ _ _ => use.bounds
  | .answered use _ _ _ _ _ => use.bounds
  | .making _ b => [b]
  | .allowed _ b _ => [b]
  | .filling b _ => [b]
  | .removing _ b => [b]
  | .permitted _ b _ => [b]
  | .unhashing b => [b]
  | .bumping b => [b]
  | .renamingOld old => [old]
  | .renamePair old new => [old, new]
  | .moving old new _ _ => [old, new]
  | .moved _ old new => [old, new]

def keys (pc : Pc) : List Key := pc.bounds.map Bound.key

/-- The names taken out of a directory's children and not yet given back: until the generation is
bumped, or until the moved dentry is there. -/
def emptied : Pc → List Key
  | .bumping b => [b.key]
  | .moved .unhashedOld old _ => [old.key]
  | .moved .unhashedNew _ new => [new.key]
  | .moved .bumpedNew _ new => [new.key]
  | .moved .rehung _ new => [new.key]
  | _ => []

def directory : Pc → Option DentryId
  | .seek _ dir _ _ => some dir
  | .missed _ dir _ _ => some dir
  | .asked _ dir _ _ _ => some dir
  | .answered _ dir _ _ _ _ => some dir
  | _ => none

def holds (pc : Pc) : List DentryId :=
  pc.directory.toList ++ pc.bounds.flatMap fun b => [b.dir, b.walked]

def early : Pc → Bool
  | .filling .. => false
  | .unhashing .. => false
  | .bumping .. => false
  | .moved .. => false
  | _ => true

end Pc

/-- The filesystem, the dentries and the threads.  `seen` is for the record alone: the metadata each
inode has had since the running call of a thread began. -/
structure State where
  fs : Fs
  cache : Dcache
  pc : Nat → Pc
  who : Nat → Access
  renameLock : Option Nat
  seen : Nat → Ino → Metadata → Prop

namespace State

variable (s : State)

def dentry (d : DentryId) : Dentry := s.cache.dentries d

def setPc (t : Nat) (pc : Pc) : State := { s with pc := Function.update s.pc t pc }

def setCache (cache : Dcache) : State := { s with cache := cache }

def current (ino : Ino) (metadata : Metadata) : Prop :=
  ino < s.fs.next ∧ s.fs.metadata ino = metadata

def setFs (fs : Fs) : State :=
  { s with
    fs := fs
    seen := fun t ino metadata =>
      s.seen t ino metadata ∨ ino < fs.next ∧ fs.metadata ino = metadata }

def finish (t : Nat) : State :=
  { s.setPc t .idle with renameLock := if s.renameLock = some t then none else s.renameLock }

def IsDir (d : DentryId) (ino : Ino) : Prop :=
  (s.dentry d).alive = true ∧ (s.dentry d).inode = some ino ∧ s.fs.kind ino = .directory

/-- The thread's caller may take a name away from an inode in a directory, by metadata they have had
during the call. -/
def MayTake (t : Nat) (dir ino : Ino) : Prop :=
  ∃ dirMetadata metadata, s.seen t dir dirMetadata ∧ s.seen t ino metadata ∧
    (s.who t).mayDelete dirMetadata metadata = .ok ()

end State

structure Act where
  claims : Option Key
  caches : Option Key

def Act.quiet : Act := ⟨none, none⟩

inductive Step : State → Nat → Act → State → Prop
  | start {s : State} {t : Nat} {d : DentryId} {ino : Ino} (use : Use) (name : Name)
      (hidle : s.pc t = .idle) (huse : use = .lookup ∨ (∃ kind, use = .make (.node kind)) ∨
        (∃ ino, use = .make (.link ino) ∧ ino < s.fs.next) ∨ ∃ directory, use = .remove directory)
      (hdir : s.IsDir d ino) :
      Step s t .quiet { s.setPc t (.seek use d ino name) with
        seen := Function.update s.seen t s.current }
  | startRename {s : State} {t : Nat} {d : DentryId} {ino : Ino} (name : Name)
      (hidle : s.pc t = .idle) (hfree : s.renameLock = none) (hdir : s.IsDir d ino) :
      Step s t .quiet { s.setPc t (.seek .renameOld d ino name) with
        renameLock := some t
        seen := Function.update s.seen t s.current }
  | hit {s : State} {t : Nat} {use : Use} {d child : DentryId} {ino : Ino} {name : Name}
      (hpc : s.pc t = .seek use d ino name) (hcached : s.cache.cachedChild d name = some child) :
      Step s t ⟨use.claims (d, name), none⟩ (s.setPc t (use.next ⟨d, name, child⟩))
  | miss {s : State} {t : Nat} {use : Use} {d : DentryId} {ino : Ino} {name : Name}
      (hpc : s.pc t = .seek use d ino name) (hcached : s.cache.cachedChild d name = none) :
      Step s t .quiet (s.setPc t (.missed use d ino name))
  | generation {s : State} {t : Nat} {use : Use} {d : DentryId} {ino : Ino} {name : Name}
      (hpc : s.pc t = .missed use d ino name) :
      Step s t .quiet (s.setPc t (.asked use d ino name (s.dentry d).generation))
  | ask {s : State} {t : Nat} {use : Use} {d : DentryId} {ino : Ino} {name : Name}
      {generation : Nat} (hpc : s.pc t = .asked use d ino name generation) :
      Step s t .quiet
        (s.setPc t (.answered use d ino name generation (s.fs.names ino name)))
  | existing {s : State} {t : Nat} {use : Use} {d child : DentryId} {ino : Ino} {name : Name}
      {generation : Nat} {found : Option Ino} {cache : Dcache}
      (hpc : s.pc t = .answered use d ino name generation found)
      (hinsert : s.cache.insertLookedUp d name found generation = (some (child, false), cache)) :
      Step s t ⟨use.claims (d, name), none⟩
        ((s.setCache cache).setPc t (use.next ⟨d, name, child⟩))
  | stale {s : State} {t : Nat} {use : Use} {d : DentryId} {ino : Ino} {name : Name}
      {generation : Nat} {found : Option Ino} {cache : Dcache}
      (hpc : s.pc t = .answered use d ino name generation found)
      (hinsert : s.cache.insertLookedUp d name found generation = (none, cache)) :
      Step s t .quiet ((s.setCache cache).setPc t (.seek use d ino name))
  | insert {s : State} {t : Nat} {use : Use} {d child : DentryId} {ino : Ino} {name : Name}
      {generation : Nat} {found : Option Ino} {cache : Dcache}
      (hpc : s.pc t = .answered use d ino name generation found)
      (hinsert : s.cache.insertLookedUp d name found generation = (some (child, true), cache)) :
      Step s t ⟨use.claims (d, name), some (d, name)⟩
        ((s.setCache cache).setPc t (use.next ⟨d, name, child⟩))
  | refuse {s : State} {t : Nat} (hearly : (s.pc t).early = true) : Step s t .quiet (s.finish t)
  | allow {s : State} {t : Nat} {new : New} {b : Bound} {ino : Ino}
      (hpc : s.pc t = .making new b) (hnegative : (s.dentry b.walked).inode = none)
      (hdir : (s.dentry b.dir).inode = some ino) (metadata : Metadata)
      (hseen : s.seen t ino metadata) (hcreate : (s.who t).mayCreate metadata = .ok ()) :
      Step s t .quiet (s.setPc t (.allowed new b ino))
  | make {s : State} {t : Nat} {new : New} {b : Bound} {dir ino : Ino} {metadata : Metadata}
      {fs : Fs} (hpc : s.pc t = .allowed new b dir)
      (hmake : s.fs.make dir b.name new metadata = some (fs, ino)) :
      Step s t .quiet ((s.setFs fs).setPc t (.filling b ino))
  | fill {s : State} {t : Nat} {b : Bound} {ino : Ino} (hpc : s.pc t = .filling b ino) :
      Step s t .quiet ((s.setCache (s.cache.fill b.dir b.name b.walked ino)).finish t)
  | permit {s : State} {t : Nat} {directory : Bool} {b : Bound} {dir ino : Ino}
      (hpc : s.pc t = .removing directory b) (hpositive : (s.dentry b.walked).inode = some ino)
      (hdir : (s.dentry b.dir).inode = some dir) (hmay : s.MayTake t dir ino) :
      Step s t .quiet (s.setPc t (.permitted directory b ino))
  | remove {s : State} {t : Nat} {directory : Bool} {b : Bound} {dir ino victim : Ino}
      (hpc : s.pc t = .permitted directory b ino) (hdir : (s.dentry b.dir).inode = some dir)
      (hremove : s.fs.Removable dir b.name directory victim) :
      Step s t .quiet ((s.setFs (s.fs.set dir b.name none)).setPc t (.unhashing b))
  | unhash {s : State} {t : Nat} {b : Bound} (hpc : s.pc t = .unhashing b) :
      Step s t .quiet ((s.setCache (s.cache.unhash b.dir b.name)).setPc t (.bumping b))
  | bump {s : State} {t : Nat} {b : Bound} (hpc : s.pc t = .bumping b) :
      Step s t .quiet ((s.setCache (s.cache.bump b.dir)).finish t)
  | renameNew {s : State} {t : Nat} {old : Bound} {d : DentryId} {ino : Ino} (name : Name)
      (hpc : s.pc t = .renamingOld old) (hdir : s.IsDir d ino) :
      Step s t .quiet (s.setPc t (.seek (.renameNew old) d ino name))
  | same {s : State} {t : Nat} {old new : Bound} (hpc : s.pc t = .renamePair old new)
      (hsame : (s.dentry new.walked).inode = (s.dentry old.walked).inode) :
      Step s t .quiet (s.finish t)
  | permitRename {s : State} {t : Nat} {old new : Bound} {dir dir' ino : Ino}
      {victim : Option Ino} (hpc : s.pc t = .renamePair old new)
      (hpositive : (s.dentry old.walked).inode = some ino)
      (hvictim : (s.dentry new.walked).inode = victim) (hne : victim ≠ some ino)
      (hdir : (s.dentry old.dir).inode = some dir) (hdir' : (s.dentry new.dir).inode = some dir')
      (hmay : s.MayTake t dir ino) (hmay' : ∀ ino', victim = some ino' → s.MayTake t dir' ino') :
      Step s t .quiet (s.setPc t (.moving old new ino victim))
  | rename {s : State} {t : Nat} {old new : Bound} {dir dir' ino : Ino} {victim : Option Ino}
      {fs : Fs} (hpc : s.pc t = .moving old new ino victim)
      (hdir : (s.dentry old.dir).inode = some dir) (hdir' : (s.dentry new.dir).inode = some dir')
      (hreplace : s.fs.Replaceable (dir, old.name) (dir', new.name))
      (hrename : s.fs.rename (dir, old.name) (dir', new.name) = some fs) :
      Step s t .quiet ((s.setFs fs).setPc t (.moved .renamed old new))
  | unhashOld {s : State} {t : Nat} {old new : Bound} (hpc : s.pc t = .moved .renamed old new) :
      Step s t .quiet
        ((s.setCache (s.cache.unhash old.dir old.name)).setPc t (.moved .unhashedOld old new))
  | bumpOld {s : State} {t : Nat} {old new : Bound}
      (hpc : s.pc t = .moved .unhashedOld old new) :
      Step s t .quiet ((s.setCache (s.cache.bump old.dir)).setPc t (.moved .bumpedOld old new))
  | unhashNew {s : State} {t : Nat} {old new : Bound}
      (hpc : s.pc t = .moved .bumpedOld old new) :
      Step s t .quiet
        ((s.setCache (s.cache.unhash new.dir new.name)).setPc t (.moved .unhashedNew old new))
  | bumpNew {s : State} {t : Nat} {old new : Bound}
      (hpc : s.pc t = .moved .unhashedNew old new) :
      Step s t .quiet ((s.setCache (s.cache.bump new.dir)).setPc t (.moved .bumpedNew old new))
  | rehang {s : State} {t : Nat} {old new : Bound} (hpc : s.pc t = .moved .bumpedNew old new) :
      Step s t .quiet ((s.setCache (s.cache.rehang old.walked new.dir new.name)).setPc t
        (.moved .rehung old new))
  | land {s : State} {t : Nat} {old new : Bound} (hpc : s.pc t = .moved .rehung old new) :
      Step s t .quiet
        ((s.setCache ((s.cache.hash new.dir new.name old.walked).bump new.dir)).finish t)
  | drop {s : State} {t : Nat} (d : DentryId) (hfree : ∀ u, d ∉ (s.pc u).holds)
      (hchildren : ∀ c, (s.dentry c).alive = true → (s.dentry c).parent ≠ some d) :
      Step s t .quiet (s.setCache (s.cache.update d fun dentry => { dentry with alive := false }))
  | setAttributes {s : State} {t : Nat} (ino : Ino) (metadata : Metadata)
      (hkind : metadata.kind = s.fs.kind ino) :
      Step s t .quiet (s.setFs { s.fs with
        metadata := Function.update s.fs.metadata ino metadata })

def boot (fs : Fs) (root : Ino) (who : Nat → Access) : State where
  fs := fs
  cache := (Dcache.mk (fun _ => .blank) 0).add (.new [47] none (some root))
  pc := fun _ => .idle
  who := who
  renameLock := none
  seen := fun _ _ _ => False

/-- A filesystem at the start: its inodes have been made, and a directory has one name, the root
none. -/
structure Fs.WellFormed (fs : Fs) (root : Ino) : Prop where
  bounded : ∀ d n i, fs.names d n = some i → i < fs.next
  single : ∀ i, fs.kind i = .directory → ∀ d n d' n', fs.names d n = some i →
    fs.names d' n' = some i → d = d' ∧ n = n'
  root_kind : fs.kind root = .directory
  root_lt : root < fs.next
  root_unnamed : ∀ d n, fs.names d n ≠ some root

/-- No two calls are at work on one name, and no lookup's answer is recorded under a name that a
call has taken out of the children and not yet given back. -/
def Orderly (s : State) (t : Nat) (act : Act) : Prop :=
  (∀ key, act.claims = some key → ∀ u, u ≠ t → key ∉ (s.pc u).keys) ∧
    ∀ key, act.caches = some key → ∀ u, key ∉ (s.pc u).emptied

end Ferrix.Vfs.NameChanges

import Ferrix.Vfs.Mounts

/-!
From the bytes of a path to a place in the tree.  A symbolic link's target is pushed on a stack of
fragments still to walk.
-/

namespace Ferrix.Vfs.Walks

open Foundations.Programs.Program Dentries Mounts List

def slash : UInt8 := 47

def nameMax : Nat := 255

def maxSymlinks : Nat := 40

inductive Component where
  | name (name : Name)
  | dot
  | dotDot

def checkName (name : Name) : Except Errno Unit :=
  if name.isEmpty then .error .noent
  else if name.length > nameMax then .error .nametoolong
  else if name.any fun b => b = slash || b = 0 then .error .inval
  else .ok ()

def classify (component : Name) : Component :=
  if component = [46] then .dot
  else if component = [46, 46] then .dotDot
  else .name component

def isAbsolute (path : List UInt8) : Bool := path.head? = some slash

def endsWithSlash (path : List UInt8) : Bool := path.getLast? = some slash

structure Fragment where
  rest : List UInt8
  mustBeDir : Bool

structure PathStep where
  component : Name
  isLast : Bool
  mustBeDir : Bool

/-- The next component of a stack of fragments, the top one first. -/
def next : List Fragment → Option (PathStep × List Fragment)
  | [] => none
  | fragment :: below =>
    let rest := fragment.rest.dropWhile (· = slash)
    if rest.isEmpty then next below
    else
      let after := rest.dropWhile (· ≠ slash)
      let fragments := { fragment with rest := after } :: below
      let isLast := fragments.all fun f => f.rest.all (· = slash)
      some ({ component := rest.takeWhile (· ≠ slash)
              isLast := isLast
              mustBeDir := isLast && (!after.isEmpty || fragment.mustBeDir) }, fragments)

def bytes (fragments : List Fragment) : Nat := (fragments.map fun f => f.rest.length).sum

lemma bytes_next {fragments fragments' : List Fragment} {step : PathStep}
    (hn : next fragments = some (step, fragments')) : bytes fragments' < bytes fragments := by
  induction fragments with
  | nil => cases hn
  | cons fragment below ih =>
    have hdrop : (fragment.rest.dropWhile (· = slash)).length ≤ fragment.rest.length :=
      (dropWhile_sublist _).length_le
    rw [next] at hn
    dsimp only at hn
    split_ifs at hn with he
    · have hlt := ih hn
      simp only [bytes, map_cons, sum_cons] at hlt ⊢
      omega
    · obtain ⟨-, rfl⟩ := Prod.mk.inj (Option.some.inj hn)
      simp only [bytes, map_cons, sum_cons]
      have hafter : ((fragment.rest.dropWhile (· = slash)).dropWhile (· ≠ slash)).length <
          (fragment.rest.dropWhile (· = slash)).length := by
        cases hrest : fragment.rest.dropWhile (· = slash) with
        | nil => exact absurd (by rw [hrest]; rfl) he
        | cons b rest =>
          have hb : b ≠ slash := by
            have hhead := head_dropWhile_not (· = slash) (l := fragment.rest)
              (by rw [hrest]; exact cons_ne_nil _ _)
            simpa [hrest] using hhead
          rw [dropWhile_cons_of_pos (by simpa using hb)]
          exact Nat.lt_succ_of_le (dropWhile_sublist _).length_le
      omega

structure Resolve where
  noXdev : Bool
  noMagicLinks : Bool
  noSymlinks : Bool
  beneath : Bool
  deriving DecidableEq

def Resolve.default : Resolve := ⟨false, false, false, false⟩

def Resolve.crosses (resolve : Resolve) (source target : Location) : Bool :=
  resolve.noXdev && decide (source.mount ≠ target.mount)

structure Context where
  root : Location
  cwd : Location
  who : Access

inductive LastPart where
  | name (name : Name)
  | dot
  | dotDot
  | root
  deriving DecidableEq

structure Walked where
  parent : Location
  last : LastPart
  found : Location
  mustBeDir : Bool
  deriving DecidableEq

structure Cursor where
  parent : Location
  current : Location
  last : LastPart
  mustBeDir : Bool
  links : Nat

def lookUp (dir : Ino) (name : Name) : Call (Option Ino) := do
  match ← view fun w => w.inodes.lookup dir name with
  | .ok found => pure (some found)
  | .error .noent => pure none
  | .error e => fail e

def insertLookedUp (dir : DentryId) (name : Name) (inode : Option Ino) (generation : Nat) :
    Call (Option (DentryId × Bool)) := do
  charge
  let answer ← view fun w => (w.cache.insertLookedUp dir name inode generation).1
  modify fun w => w.setCache (w.cache.insertLookedUp dir name inode generation).2
  pure answer

def uncachedChild (dir : DentryId) (name : Name) (inode : Option Ino) : Call DentryId := do
  charge
  let child ← view fun w => w.cache.next
  modify fun w => w.setCache (w.cache.uncachedChild dir name inode).2
  pure child

def lookedUpChild (dir : DentryId) (ino : Ino) (name : Name) : Call DentryId := do
  let generation ← view fun w => (w.dentry dir).generation
  let found ← lookUp ino name
  match ← insertLookedUp dir name found generation with
  | some (child, _) => pure child
  | none => fail .again

def child (dir : DentryId) (name : Name) : Call DentryId := do
  let ino ← ofOption (← view fun w => (w.dentry dir).inode) .noent
  let caches ← view fun w => w.inodes.cachesLookups ino || w.inodes.cachesLookupOf ino name
  if !caches then
    let found ← lookUp ino name
    uncachedChild dir name found
  else
    match ← view fun w => w.cache.cachedChild dir name with
    | some child => pure child
    | none => lookedUpChild dir ino name

section

variable (ctx : Context) (cur : Cursor) (step : PathStep) (followLast : Bool) (resolve : Resolve)

def followMagic (target : Except Errno Location) : Call (Cursor × Option (List UInt8)) := do
  require (!resolve.noMagicLinks) .loop
  let target ← ofExcept target
  require (!resolve.crosses cur.current target) .xdev
  let parent ← view fun w => w.up target (some ctx.root)
  pure ({ cur with parent := parent, current := target, last := .root, links := cur.links + 1 },
    none)

def followTarget (ino : Ino) : Call (Cursor × Option (List UInt8)) := do
  let target ← ofExcept (← view fun w => w.inodes.readLink ino)
  require (!target.isEmpty) .noent
  require (!(isAbsolute target && (resolve.beneath || resolve.crosses cur.current ctx.root))) .xdev
  let current := if isAbsolute target then ctx.root else cur.current
  pure ({ cur with parent := current, current := current, last := .root, links := cur.links + 1 },
    some target)

def followLink (ino : Ino) : Call (Cursor × Option (List UInt8)) := do
  require (!(decide (maxSymlinks < cur.links + 1) || resolve.noSymlinks)) .loop
  match ← view fun w => w.inodes.linkLocation ino with
  | some target => followMagic ctx cur resolve target
  | none => followTarget ctx cur resolve ino

/-- The name led to `next`, which is followed if it is a link the walk must follow. -/
def arrive (name : Name) (next : Location) : Option Ino → Call (Cursor × Option (List UInt8))
  | none => do
    require step.isLast .noent
    pure ({ cur with parent := cur.current, current := next, last := .name name }, none)
  | some ino => do
    let kind ← view fun w => (w.inodes.metadata ino).kind
    let follow := !step.isLast || followLast || step.mustBeDir
    if !follow || decide (kind ≠ .symlink) then
      pure ({ cur with parent := cur.current, current := next, last := .name name }, none)
    else followLink ctx cur resolve ino

/-- Take one step, answering a symbolic link's target when the step was onto a link the walk must
follow. -/
def advance : Call (Cursor × Option (List UInt8)) :=
  match classify step.component with
  | .dot => pure ({ cur with parent := cur.current, last := .dot }, none)
  | .dotDot => do
    require (!(resolve.beneath && decide (cur.current = ctx.root))) .xdev
    let above ← view fun w => w.up cur.current (some ctx.root)
    require (!resolve.crosses cur.current above) .xdev
    pure ({ cur with parent := cur.current, current := above, last := .dotDot }, none)
  | .name name => do
    ofExcept (checkName name)
    let found ← child cur.current.dentry name
    let next ← view fun w => w.descendMounts ⟨cur.current.mount, found⟩
    require (!resolve.crosses cur.current next) .xdev
    let inode ← view fun w => (w.dentry next.dentry).inode
    arrive ctx cur step followLast resolve name next inode

def requireDirectory (loc : Location) : Call Unit := do
  require ((← kind loc) = .directory) .notdir

def requireSearch (loc : Location) : Call Unit := do
  let ino ← inode loc
  let metadata ← view fun w => w.inodes.metadata ino
  ofExcept (ctx.who.require metadata mayExec)

def walkStep (cur : Cursor) (step : PathStep) : Call (Cursor × Option (List UInt8)) := do
  requireDirectory cur.current
  requireSearch ctx cur.current
  advance ctx { cur with mustBeDir := step.mustBeDir } step followLast resolve

def walkFragments (onLink : List Fragment → Cursor → Call Cursor) :
    Nat → List Fragment → Cursor → Call Cursor
  | 0, _, cur => pure cur
  | fuel + 1, fragments, cur =>
    match next fragments with
    | none => pure cur
    | some (step, fragments) => do
      let (cur, target) ← walkStep ctx followLast resolve cur step
      match target with
      | none => walkFragments onLink fuel fragments cur
      | some target => onLink (⟨target, step.mustBeDir⟩ :: fragments) cur

/-- Walk the fragments with `links` more symbolic links to follow; one more is refused where it is
met. -/
def walkLinks : Nat → List Fragment → Cursor → Call Cursor
  | 0, fragments, cur =>
    walkFragments ctx followLast resolve (fun _ _ => fail .loop) (bytes fragments) fragments cur
  | links + 1, fragments, cur =>
    walkFragments ctx followLast resolve (walkLinks links) (bytes fragments) fragments cur

def walkStart (start : Location) (path : List UInt8) : Location :=
  if isAbsolute path then ctx.root else start

def requireFinal (cur : Cursor) : Call Unit := do
  match ← view fun w => (w.dentry cur.current.dentry).inode with
  | none => pure ()
  | some ino =>
    let kind ← view fun w => (w.inodes.metadata ino).kind
    require (!(cur.mustBeDir && decide (kind ≠ .directory))) .notdir

/-- Resolve a path from `start`, or from the context's root if it is absolute. -/
def walkResolving (start : Location) (path : List UInt8) : Call Walked := do
  require (!path.isEmpty) .noent
  require (!(isAbsolute path && (resolve.beneath || resolve.crosses ctx.root start))) .xdev
  let current := walkStart ctx start path
  let cur ← walkLinks ctx followLast resolve maxSymlinks [⟨path, false⟩]
    { parent := current, current := current, last := .root, mustBeDir := endsWithSlash path,
      links := 0 }
  requireFinal cur
  pure { parent := cur.parent, last := cur.last, found := cur.current, mustBeDir := cur.mustBeDir }

def walk (start : Location) (path : List UInt8) : Call Walked :=
  walkResolving ctx followLast .default start path

end

def resolveNoXdev : BitVec 64 := 0x01
def resolveNoMagiclinks : BitVec 64 := 0x02
def resolveNoSymlinks : BitVec 64 := 0x04
def resolveBeneath : BitVec 64 := 0x08
def resolveInRoot : BitVec 64 := 0x10
def resolveCached : BitVec 64 := 0x20

def oCreat : BitVec 64 := 0o100
def oExcl : BitVec 64 := 0o200
def oTrunc : BitVec 64 := 0o1000
def oPath : BitVec 64 := 0o10000000

structure OpenHow where
  flags : BitVec 64
  mode : BitVec 64
  resolve : BitVec 64

namespace OpenHow

variable (how : OpenHow)

def known : BitVec 64 :=
  resolveNoXdev ||| resolveNoMagiclinks ||| resolveNoSymlinks ||| resolveBeneath |||
    resolveInRoot ||| resolveCached

def wellFormed : Bool :=
  decide (how.flags >>> 32 = 0) && decide (how.resolve &&& ~~~known = 0) &&
    decide (how.resolve &&& (resolveBeneath ||| resolveInRoot) ≠
      resolveBeneath ||| resolveInRoot) &&
    decide (how.mode &&& ~~~0o7777 = 0) &&
    (decide (how.mode = 0) || decide (how.flags &&& oCreat ≠ 0))

def rooted : Bool := decide (how.resolve &&& (resolveBeneath ||| resolveInRoot) ≠ 0)

def restrictions : Resolve where
  noXdev := decide (how.resolve &&& resolveNoXdev ≠ 0)
  noMagicLinks := decide (how.resolve &&& resolveNoMagiclinks ≠ 0)
  noSymlinks := decide (how.resolve &&& resolveNoSymlinks ≠ 0)
  beneath := decide (how.resolve &&& resolveBeneath ≠ 0)

/-- Whether a link in last position is followed; `nofollow` is the machine's bit for
`O_NOFOLLOW`. -/
def follows (nofollow : BitVec 64) : Bool :=
  !(decide (how.flags &&& nofollow ≠ 0) || (decide (how.flags &&& oPath = 0) &&
    decide (how.flags &&& oCreat ≠ 0) && decide (how.flags &&& oExcl ≠ 0)))

end OpenHow

/-- The walk of `openat2` from the directory `dir`, or from the working directory. -/
def openat2 (nofollow : BitVec 64) (ctx : Context) (dir : Option Location) (path : List UInt8)
    (how : OpenHow) : Call Walked := do
  require how.wellFormed .inval
  require (!(decide (how.resolve &&& resolveCached ≠ 0) &&
    decide (how.flags &&& (oCreat ||| oTrunc) ≠ 0))) .again
  let scope := dir.getD ctx.cwd
  if how.rooted then
    walkResolving { ctx with root := scope } (how.follows nofollow) how.restrictions scope path
  else
    walkResolving ctx (how.follows nofollow) how.restrictions
      (if isAbsolute path then ctx.cwd else scope) path

end Ferrix.Vfs.Walks

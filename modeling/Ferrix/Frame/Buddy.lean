import Mathlib.Tactic

/-!
The buddy allocator of physical frames: one record per frame in a side array, the free lists
threaded through the records by index.  Where an addition or a product of the source can leave 64
bits it is taken modulo `2 ^ 64`.
-/

namespace Ferrix.Frame.Buddy

def maxOrder : Nat := 10

def orders : Nat := maxOrder + 1

def noFrame : Nat := 2 ^ 32 - 1

inductive State where
  | reserved
  | free
  | freeTail
  | allocated
  | allocatedTail
deriving DecidableEq

/-- The record of one frame, without the slab count, which this allocator never reads. -/
structure PageEntry where
  next : Nat
  previous : Nat
  refcount : Nat
  order : Nat
  state : State
deriving DecidableEq

def PageEntry.reserved : PageEntry := ⟨noFrame, noFrame, 0, 0, .reserved⟩

inductive FrameError where
  | outOfRange (frame : Nat)
  | orderTooLarge (order : Nat)
  | misaligned (frame : Nat)
  | notAllocated (frame : Nat)
  | stillShared (frame : Nat)
  | tooManyReferences (frame : Nat)
  | insideBlock (frame : Nat)
  | wrongOrder (frame : Nat)
deriving DecidableEq

inductive Released where
  | shared (remaining : Nat)
  | freed
deriving DecidableEq

def saturatingAdd (a b : Nat) : Nat := min (a + b) (2 ^ 64 - 1)

structure Frames where
  entries : List PageEntry
  base : Nat
  heads : List Nat
  free : Nat
  managed : Nat
deriving DecidableEq

namespace Frames

def new (entries : List PageEntry) (base : Nat) : Frames where
  entries := entries.map fun _ => .reserved
  base := base
  heads := List.replicate orders noFrame
  free := 0
  managed := 0

variable (frames : Frames)

/-- `end`, which wraps for a side array that reaches past the last frame number. -/
def stop : Nat := (frames.base + frames.entries.length) % 2 ^ 64

def index (frame : Nat) : Option Nat :=
  if frames.base ≤ frame ∧ frame - frames.base < frames.entries.length then
    some (frame - frames.base)
  else none

def entry (frame : Nat) : Option PageEntry := do
  let index ← frames.index frame
  frames.entries[index]?

def modify (index : Nat) (write : PageEntry → PageEntry) : Frames :=
  { frames with entries := frames.entries.modify index write }

def entryMut (frame : Nat) (write : PageEntry → PageEntry) : Frames :=
  match frames.index frame with
  | some index => frames.modify index write
  | none => frames

def head (order : Nat) : Nat := frames.heads.getD order noFrame

def setHead (order value : Nat) : Frames :=
  { frames with heads := frames.heads.set order value }

def setStateRange (frame count : Nat) (state : State) : Frames :=
  (List.range count).foldl
    (fun frames offset => frames.entryMut (frame + offset) fun entry => { entry with state })
    frames

def push (frame order : Nat) : Frames :=
  match frames.index frame with
  | none => frames
  | some index =>
    let head := frames.head order
    let written := frames.modify index fun entry =>
      { entry with next := head, previous := noFrame, order, state := .free, refcount := 0 }
    let linked :=
      if head ≠ noFrame then written.modify head fun entry => { entry with previous := index }
      else written
    linked.setHead order index

def pop (order : Nat) : Option (Nat × Frames) :=
  let index := frames.head order
  if index = noFrame then none
  else
    match frames.entries[index]? with
    | none => none
    | some entry =>
      let next := entry.next
      let headed := frames.setHead order next
      let backed :=
        if next ≠ noFrame then
          headed.modify next fun entry => { entry with previous := noFrame }
        else headed
      some (frames.base + index,
        backed.modify index fun entry => { entry with next := noFrame, previous := noFrame })

def unlink (frame order : Nat) : Frames :=
  match frames.index frame with
  | none => frames
  | some index =>
    match frames.entries[index]? with
    | none => frames
    | some entry =>
      let next := entry.next
      let previous := entry.previous
      let passed :=
        if previous = noFrame then frames.setHead order next
        else frames.modify previous fun entry => { entry with next }
      let backed :=
        if next ≠ noFrame then passed.modify next fun entry => { entry with previous }
        else passed
      backed.modify index fun entry => { entry with next := noFrame, previous := noFrame }

def rangeIsReserved (frame count : Nat) : Bool :=
  (List.range count).all fun offset =>
    match frames.entry ((frame + offset) % 2 ^ 64) with
    | some entry => entry.state = .reserved
    | none => false

/-- The loop of `largest_block_at`; the first argument is the orders left to try. -/
def largestBlockFrom (frames : Frames) (frame stop : Nat) : Nat → Nat → Nat
  | 0, order => order
  | left + 1, order =>
    let size := 2 ^ (order + 1)
    if frame % size ≠ 0 ∨ stop < (frame + size) % 2 ^ 64 then order
    else if !frames.rangeIsReserved frame size then order
    else largestBlockFrom frames frame stop left (order + 1)

def largestBlockAt (frame stop : Nat) : Nat :=
  largestBlockFrom frames frame stop maxOrder 0

/-- The loop of `insert_free`.  Each round moves at least one frame on, so that the first
argument, the frames left before `stop`, is enough rounds. -/
def insertFrom (stop : Nat) : Nat → Frames → Nat → Frames
  | 0, frames, _ => frames
  | left + 1, frames, frame =>
    if frame < stop then
      match frames.index frame with
      | none => frames
      | some index =>
        if frames.entries[index]?.map PageEntry.state ≠ some .reserved then
          insertFrom stop left frames (frame + 1)
        else
          let order := frames.largestBlockAt frame stop
          let size := 2 ^ order
          let pushed := (frames.setStateRange frame size .freeTail).push frame order
          insertFrom stop left
            { pushed with free := pushed.free + size, managed := pushed.managed + size }
            (frame + size)
    else frames

def insertFree (start count : Nat) : Frames :=
  let frame := max start frames.base
  let stop := min (saturatingAdd start count) frames.stop
  insertFrom stop (stop - frame) frames frame

def splitDown (frame order : Nat) : Nat → Frames → Frames
  | 0, frames => frames
  | current + 1, frames =>
    if order < current + 1 then
      let buddy := frame + 2 ^ current
      splitDown frame order current
        ((frames.setStateRange buddy (2 ^ current) .freeTail).push buddy current)
    else frames

/-- What `take`, `claim` and `split` write into the head of a block they hand out. -/
def headOf (order : Nat) (entry : PageEntry) : PageEntry :=
  { entry with state := .allocated, order := order, refcount := 1, previous := noFrame }

def take (frame available order : Nat) : Frames :=
  let split := splitDown frame order available frames
  let marked := split.setStateRange frame (2 ^ order) .allocatedTail
  let headed := marked.entryMut frame (headOf order)
  { headed with free := headed.free - 2 ^ order }

def allocate (order : Nat) : Option Nat × Frames :=
  if maxOrder < order then (none, frames)
  else
    match (List.range' order (maxOrder + 1 - order)).find? fun candidate =>
        frames.head candidate ≠ noFrame with
    | none => (none, frames)
    | some available =>
      match frames.pop available with
      | none => (none, frames)
      | some (frame, popped) => (some frame, popped.take frame available order)

/-- How a walk of a free list ends: at the block looked for, at the list's end, or neither, at an
index outside the side array or after as many steps as there are records. -/
inductive Search where
  | found (frame : Nat)
  | ended
  | lost
deriving DecidableEq

def search (frames : Frames) (wanted : Nat → Bool) : Nat → Nat → Search
  | 0, _ => .lost
  | left + 1, cursor =>
    if cursor = noFrame then .ended
    else if wanted (frames.base + cursor) then .found (frames.base + cursor)
    else
      match frames.entries[cursor]? with
      | none => .lost
      | some entry => search frames wanted left entry.next

def searchList (wanted : Nat → Bool) (order : Nat) : Search :=
  frames.search wanted (frames.entries.length + 1) (frames.head order)

def allocateBelowFrom (frames : Frames) (order limit : Nat) : List Nat → Option Nat × Frames
  | [] => (none, frames)
  | available :: rest =>
    match frames.searchList (fun frame => saturatingAdd frame (2 ^ order) ≤ limit) available with
    | .found frame =>
      (some frame, (frames.unlink frame available).take frame available order)
    | .ended => allocateBelowFrom frames order limit rest
    | .lost => (none, frames)

def allocateBelow (order limit : Nat) : Option Nat × Frames :=
  if maxOrder < order then (none, frames)
  else allocateBelowFrom frames order limit (List.range' order (maxOrder + 1 - order))

def freeMaximal (frame : Nat) : Bool :=
  match frames.entry frame with
  | some entry => entry.state = .free && entry.order = maxOrder
  | none => false

def wholeRun (blocks frame : Nat) : Bool :=
  (List.range' 1 (blocks - 1)).all fun k =>
    let next := frame + k * 2 ^ maxOrder % 2 ^ 64
    next < 2 ^ 64 && frames.freeMaximal next

def allocateRun (blocks : Nat) : Option Nat × Frames :=
  if blocks = 0 then (none, frames)
  else
    match frames.searchList (frames.wholeRun blocks) maxOrder with
    | .found start =>
      (some start, (List.range blocks).foldl
        (fun frames k =>
          let block := start + k * 2 ^ maxOrder
          (frames.unlink block maxOrder).take block maxOrder maxOrder)
        frames)
    | .ended => (none, frames)
    | .lost => (none, frames)

def allocatedHead (frame order : Nat) : Except FrameError Unit :=
  match frames.entry frame with
  | none => .error (.outOfRange frame)
  | some entry =>
    match entry.state with
    | .allocated => if entry.order = order then .ok () else .error (.wrongOrder frame)
    | .allocatedTail => .error (.insideBlock frame)
    | .reserved => .error (.notAllocated frame)
    | .free => .error (.notAllocated frame)
    | .freeTail => .error (.notAllocated frame)

def isShared (frame : Nat) : Bool :=
  match frames.entry frame with
  | some entry => 1 < entry.refcount
  | none => false

def split (frame order : Nat) : Except FrameError Unit × Frames :=
  if maxOrder < order then (.error (.orderTooLarge order), frames)
  else
    match frames.allocatedHead frame order with
    | .error error => (.error error, frames)
    | .ok () =>
      if frames.isShared frame then (.error (.stillShared frame), frames)
      else
        (.ok (), (List.range (2 ^ order)).foldl
          (fun frames offset => frames.entryMut (frame + offset) (headOf 0)) frames)

def freeBlockOf (frame : Nat) : Option (Nat × Nat) :=
  (List.range (maxOrder + 1)).findSome? fun order =>
    let head := frame - frame % 2 ^ order
    match frames.entry head with
    | some entry => if entry.state = .free ∧ entry.order = order then some (head, order) else none
    | none => none

def narrow (frame : Nat) : Nat → Frames → Nat → Frames
  | 0, frames, _ => frames
  | current + 1, frames, block =>
    let half := 2 ^ current
    let upper := block + half
    let (keep, give) := if upper ≤ frame then (upper, block) else (block, upper)
    narrow frame current ((frames.setStateRange give half .freeTail).push give current) keep

def claim (frame : Nat) : Option Nat × Frames :=
  match frames.freeBlockOf frame with
  | none => (none, frames)
  | some (head, order) =>
    let narrowed := narrow frame order (frames.unlink head order) head
    let claimed := narrowed.entryMut frame (headOf 0)
    (some frame, { claimed with free := claimed.free - 1 })

def mergeable (buddy order : Nat) : Bool :=
  match frames.entry buddy with
  | some entry => entry.state = .free && entry.order = order
  | none => false

/-- The loop of `coalesce`; the first argument is the orders left to merge into. -/
def coalesceFrom : Nat → Frames → Nat → Nat → Frames × Nat × Nat
  | 0, frames, frame, order => (frames, frame, order)
  | left + 1, frames, frame, order =>
    let buddy := frame ^^^ 2 ^ order
    if frames.mergeable buddy order then
      let merged := (frames.unlink buddy order).entryMut buddy fun entry =>
        { entry with state := .freeTail }
      coalesceFrom left merged (min frame buddy) (order + 1)
    else (frames, frame, order)

def coalesce (frame order : Nat) : Frames × Nat × Nat :=
  coalesceFrom (maxOrder - order) frames frame order

def deallocate (frame order : Nat) : Except FrameError Unit × Frames :=
  if maxOrder < order then (.error (.orderTooLarge order), frames)
  else if frames.index frame = none then (.error (.outOfRange frame), frames)
  else if frame % 2 ^ order ≠ 0 then (.error (.misaligned frame), frames)
  else
    match frames.allocatedHead frame order with
    | .error error => (.error error, frames)
    | .ok () =>
      if frames.isShared frame then (.error (.stillShared frame), frames)
      else
        let counted := { frames with free := frames.free + 2 ^ order }
        let cleared := counted.setStateRange frame (2 ^ order) .freeTail
        let (merged, head, merging) := cleared.coalesce frame order
        (.ok (), merged.push head merging)

def share (frame : Nat) : Except FrameError Nat × Frames :=
  match frames.allocatedHead frame 0 with
  | .error error => (.error error, frames)
  | .ok () =>
    match frames.entry frame with
    | none => (.error (.outOfRange frame), frames)
    | some entry =>
      let raised := entry.refcount + 1
      if raised < 2 ^ 32 then
        (.ok raised, frames.entryMut frame fun entry => { entry with refcount := raised })
      else (.error (.tooManyReferences frame), frames)

def release (frame : Nat) : Except FrameError Released × Frames :=
  match frames.allocatedHead frame 0 with
  | .error error => (.error error, frames)
  | .ok () =>
    match frames.entry frame with
    | none => (.error (.outOfRange frame), frames)
    | some entry =>
      let remaining := entry.refcount - 1
      let lowered := frames.entryMut frame fun entry => { entry with refcount := remaining }
      if 0 < remaining then (.ok (.shared remaining), lowered)
      else
        match lowered.deallocate frame 0 with
        | (.error error, freed) => (.error error, freed)
        | (.ok (), freed) => (.ok .freed, freed)

def setOwner (frame owner : Nat) : Except FrameError Unit × Frames :=
  match frames.allocatedHead frame 0 with
  | .error error => (.error error, frames)
  | .ok () =>
    match frames.entry frame with
    | none => (.error (.outOfRange frame), frames)
    | some _ => (.ok (), frames.entryMut frame fun entry => { entry with previous := owner })

end Frames

end Ferrix.Frame.Buddy

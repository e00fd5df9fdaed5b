import Ferrix.AddressSpaces.Regions
import Ferrix.Foundations.Allocation

/-!
The regions of one process, kept sorted in a vector: mapping, unmapping, changing permissions and
copying for `fork`.
-/

namespace Ferrix.AddressSpaces.Space

open Foundations.Allocation Regions

def firstTouching (regions : List Vma) (address : Nat) : Nat :=
  (regions.takeWhile fun region => region.range.stop ≤ address).length

def firstBeyond (regions : List Vma) (address : Nat) : Nat :=
  (regions.takeWhile fun region => region.range.start < address).length

def overlaps (regions : List Vma) (range : PageRange) : Bool :=
  regions[firstTouching regions range.start]?.any fun region => region.range.start < range.stop

def coversFrom (stop : Nat) : Nat → List Vma → Bool
  | _, [] => false
  | covered, region :: regions =>
    if region.range.start > covered then false
    else if region.range.stop ≥ stop then true
    else coversFrom stop region.range.stop regions

def isFullyMapped (regions : List Vma) (range : PageRange) : Bool :=
  coversFrom range.stop range.start (regions.drop (firstTouching regions range.start))

def splitAt (regions : List Vma) (address : Nat) : List Vma :=
  let index := firstTouching regions address
  match regions[index]? with
  | none => regions
  | some region =>
    if region.range.start ≥ address ∨ region.range.stop ≤ address then regions
    else
      let headLen := address - region.range.start
      let tail : Vma := ⟨⟨address, region.range.stop⟩, region.flags,
        region.backing.advancedBy headLen, region.cow⟩
      let head := { region with range := ⟨region.range.start, address⟩ }
      (regions.set index head).insertIdx (index + 1) tail

def tryMergeAt (regions : List Vma) (index : Nat) : Option (List Vma) :=
  match regions[index]?, regions[index + 1]? with
  | some left, some right =>
    if mergeable left right then
      let merged := { left with
        range := ⟨left.range.start, right.range.stop⟩
        cow := left.cow || right.cow }
      some ((regions.eraseIdx (index + 1)).set index merged)
    else none
  | _, _ => none

/-- The loop of both merging passes, with `count` steps left: a merge brings the
end nearer, and anything else moves the index on. -/
def mergeFrom : Nat → List Vma → Nat → List Vma
  | 0, regions, _ => regions
  | count + 1, regions, index =>
    match tryMergeAt regions index with
    | some regions => mergeFrom count regions index
    | none => mergeFrom count regions (index + 1)

def mergeSpan (regions : List Vma) (first last : Nat) : List Vma :=
  let index := first - 1
  mergeFrom (min last regions.length - index) regions index

def mergeAll (regions : List Vma) : List Vma :=
  mergeFrom (regions.length - 1) regions 0

def place (regions : List Vma) (region : Vma) : List Vma :=
  let index := min (firstTouching regions region.range.start) regions.length
  mergeSpan (regions.insertIdx index region) index (index + 1)

def carveInterior (regions : List Vma) (index : Nat) (range : PageRange) :
    Option (List Vma × Unmapping) :=
  match regions[index]? with
  | none => none
  | some region =>
    if region.range.start ≥ range.start ∨ region.range.stop ≤ range.stop then none
    else
      let tail : Vma := ⟨⟨range.stop, region.range.stop⟩, region.flags,
        region.backing.advancedBy (range.stop - region.range.start), region.cow⟩
      let head := { region with range := ⟨region.range.start, range.start⟩ }
      some ((regions.set index head).insertIdx (index + 1) tail, unmappingOf region range)

/-- Truncate the region at `index` if it starts before `range`; the index of the
first region now wholly inside. -/
def carveHead (regions : List Vma) (index : Nat) (range : PageRange) :
    List Vma × List Unmapping × Nat :=
  match regions[index]? with
  | none => (regions, [], index)
  | some region =>
    if region.range.start ≥ range.start then (regions, [], index)
    else
      let cut : PageRange := ⟨range.start, region.range.stop⟩
      (regions.set index { region with range := ⟨region.range.start, range.start⟩ },
        [unmappingOf region cut], index + 1)

/-- Truncate the region below `last` if it ends after `range`; the index one past
the last region now wholly inside, and the piece cut away. -/
def carveTail (regions : List Vma) (last : Nat) (range : PageRange) :
    List Vma × Nat × Option Unmapping :=
  match last with
  | 0 => (regions, last, none)
  | index + 1 =>
    match regions[index]? with
    | none => (regions, last, none)
    | some region =>
      if region.range.stop ≤ range.stop then (regions, last, none)
      else
        let cut : PageRange := ⟨region.range.start, range.stop⟩
        (regions.set index { region with
            backing := region.backing.advancedBy cut.bytes
            range := ⟨range.stop, region.range.stop⟩ },
          index, some (unmappingOf region cut))

def unmapped (region : Vma) : Unmapping :=
  ⟨region.range, region.flags, region.backing, region.cow⟩

def carveWhole (regions : List Vma) (first last : Nat) : List Vma × List Unmapping :=
  if first ≥ last ∨ last > regions.length then (regions, [])
  else (regions.take first ++ regions.drop last,
    ((regions.drop first).take (last - first)).map unmapped)

def carve (regions : List Vma) (range : PageRange) : List Vma × List Unmapping :=
  let first := firstTouching regions range.start
  let last := firstBeyond regions range.stop
  if first ≥ last then (regions, [])
  else
    match carveInterior regions first range with
    | some (regions, removed) => (regions, [removed])
    | none =>
      let (regions, heads, first) := carveHead regions first range
      let (regions, last, tail) := carveTail regions last range
      let (regions, wholes) := carveWhole regions first last
      (regions, heads ++ wholes ++ tail.toList)

/-- How memory answers during one call: whether the job's account takes the
footprint of so many regions, and what the heap gives the vector of regions and
the list of unmappings. -/
structure Memory where
  charge : Nat → Bool
  regions : Allocator
  list : Allocator

def Memory.charges (memory : Memory) (count : Nat) : Bool := count == 0 || memory.charge count

/-- One process's address space: its regions, the room of the vector that holds
them, and the window they lie in. -/
structure AddressSpace where
  regions : List Vma
  capacity : Nat
  low : Nat
  high : Nat
  deriving DecidableEq

namespace AddressSpace

def new (low high : Nat) : Except VmaError AddressSpace :=
  if !isPageAligned low || !isPageAligned high then .error .misaligned
  else if low ≥ high then .error .zeroLength
  else .ok ⟨[], 0, low, high⟩

def find (space : AddressSpace) (address : Nat) : Option Vma :=
  space.regions[firstTouching space.regions address]?.filter fun region =>
    region.range.contains address

def grow (memory : Memory) (space : AddressSpace) (additional : Nat) :
    Except VmaError Unit × AddressSpace :=
  let needed := space.regions.length + additional
  if needed ≥ 2 ^ 64 then (.error .noMemory, space)
  else if needed ≤ space.capacity then (.ok (), space)
  else
    let target := max (max needed (min (space.capacity * 2) (2 ^ 64 - 1))) 4
    if memory.charges target then
      match tryReserve memory.regions space.regions.length space.capacity additional with
      | none => (.error .noMemory, space)
      | some capacity => (.ok (), { space with capacity := capacity })
    else (.error .noMemory, space)

def checkRange (space : AddressSpace) (range : PageRange) : Except VmaError Unit :=
  if range.start < space.low ∨ range.stop > space.high then .error .outOfRange else .ok ()

def setHigh (space : AddressSpace) (high : Nat) : Except VmaError Unit × AddressSpace :=
  if !isPageAligned high then (.error .misaligned, space)
  else if space.low ≥ high then (.error .zeroLength, space)
  else if space.regions.getLast?.any fun region => region.range.stop > high then
    (.error .outOfRange, space)
  else (.ok (), { space with high := high })

def insertRegion (memory : Memory) (space : AddressSpace) (region : Vma) :
    Except VmaError Unit × AddressSpace :=
  match space.checkRange region.range with
  | .error error => (.error error, space)
  | .ok _ =>
    match validateBacking region.backing region.range.bytes with
    | .error error => (.error error, space)
    | .ok _ =>
      if overlaps space.regions region.range then (.error .overlap, space)
      else
        match space.grow memory 1 with
        | (.error error, space) => (.error error, space)
        | (.ok _, space) => (.ok (), { space with regions := place space.regions region })

def insert (memory : Memory) (space : AddressSpace) (range : PageRange) (flags : VmaFlags)
    (backing : Backing) : Except VmaError Unit × AddressSpace :=
  space.insertRegion memory ⟨range, flags, backing, false⟩

/-- Room for carving `range`: that of a list for everything it could report, and
`additional` more slots in the map. -/
def roomToCarve (memory : Memory) (space : AddressSpace) (range : PageRange)
    (additional : Nat) : Except VmaError Nat × AddressSpace :=
  let touched := firstBeyond space.regions range.stop - firstTouching space.regions range.start
  match tryReserve memory.list 0 0 (touched + 1) with
  | none => (.error .noMemory, space)
  | some room =>
    match space.grow memory additional with
    | (.error error, space) => (.error error, space)
    | (.ok _, space) => (.ok room, space)

def pushWithin (room : Nat) (unmappings : List Unmapping) (removed : Unmapping) :
    List Unmapping :=
  if unmappings.length < room then unmappings ++ [removed] else unmappings

def mapFixed (memory : Memory) (space : AddressSpace) (range : PageRange) (flags : VmaFlags)
    (backing : Backing) : Except VmaError (List Unmapping) × AddressSpace :=
  match space.checkRange range with
  | .error error => (.error error, space)
  | .ok _ =>
    match validateBacking backing range.bytes with
    | .error error => (.error error, space)
    | .ok _ =>
      match space.roomToCarve memory range 2 with
      | (.error error, space) => (.error error, space)
      | (.ok room, space) =>
        let carved := carve space.regions range
        (.ok (carved.2.foldl (pushWithin room) []),
          { space with regions := place carved.1 ⟨range, flags, backing, false⟩ })

def remove (memory : Memory) (space : AddressSpace) (range : PageRange) :
    Except VmaError (List Unmapping) × AddressSpace :=
  match space.checkRange range with
  | .error error => (.error error, space)
  | .ok _ =>
    match space.roomToCarve memory range 1 with
    | (.error error, space) => (.error error, space)
    | (.ok room, space) =>
      let carved := carve space.regions range
      (.ok (carved.2.foldl (pushWithin room) []), { space with regions := carved.1 })

/-- Unmap `range` without reporting what went: memory is needed only to split a
region when the vector is full. -/
def removeQuietly (memory : Memory) (space : AddressSpace) (range : PageRange) :
    Except VmaError Unit × AddressSpace :=
  match space.checkRange range with
  | .error error => (.error error, space)
  | .ok _ =>
    let splits := space.regions[firstTouching space.regions range.start]?.any fun region =>
      region.range.start < range.start && region.range.stop > range.stop
    if splits && space.regions.length == space.capacity then
      let target := max (min (space.capacity * 2) (2 ^ 64 - 1)) 4
      if memory.charges target then
        match tryReserve memory.regions space.regions.length space.capacity 1 with
        | none => (.error .noMemory, space)
        | some capacity =>
          (.ok (), { space with
            regions := (carve space.regions range).1, capacity := capacity })
      else (.error .noMemory, space)
    else (.ok (), { space with regions := (carve space.regions range).1 })

def reprotected (flags : VmaFlags) (region : Vma) : Vma :=
  let region := { region with flags := flags }
  if needsCow region then { region with cow := true } else region

def protect (memory : Memory) (space : AddressSpace) (range : PageRange) (flags : VmaFlags) :
    Except VmaError Unit × AddressSpace :=
  match space.checkRange range with
  | .error error => (.error error, space)
  | .ok _ =>
    if !isFullyMapped space.regions range then (.error .notMapped, space)
    else
      match space.grow memory 2 with
      | (.error error, space) => (.error error, space)
      | (.ok _, space) =>
        let regions := splitAt (splitAt space.regions range.start) range.stop
        let first := firstTouching regions range.start
        let last := firstBeyond regions range.stop
        let regions := regions.take first ++
          ((regions.drop first).take (last - first)).map (reprotected flags) ++
          regions.drop (max first last)
        (.ok (), { space with regions := mergeSpan regions first last })

def marked (region : Vma) : Vma :=
  if needsCow region then { region with cow := true } else region

def cloneForFork (memory : Memory) (space : AddressSpace) :
    Except VmaError AddressSpace × AddressSpace :=
  let len := space.regions.length
  if !memory.charges len then (.error .noMemory, space)
  else
    match tryReserve memory.list 0 0 len with
    | none => (.error .noMemory, space)
    | some capacity =>
      let space := { space with regions := mergeAll (space.regions.map marked) }
      (.ok ⟨space.regions, capacity, space.low, space.high⟩, space)

def checkFrom (low high : Nat) : Option Vma → List Vma → Except String Unit
  | _, [] => .ok ()
  | previous, region :: regions =>
    match checkOne low high region with
    | .error text => .error text
    | .ok _ =>
      match previous with
      | none => checkFrom low high (some region) regions
      | some before =>
        if before.range.stop > region.range.start then
          .error "regions overlap or are out of order"
        else if mergeable before region then .error "adjacent regions were left unmerged"
        else checkFrom low high (some region) regions

def checkInvariants (space : AddressSpace) : Except String Unit :=
  checkFrom space.low space.high none space.regions

end AddressSpace

end Ferrix.AddressSpaces.Space

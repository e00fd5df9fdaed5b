import Ferrix.Paging.Encodings

/-!
Page table construction over raw words of physical memory, generic in the encoding.
-/

namespace Ferrix.Paging.Tables

open Encodings

inductive Released where
  | page (phys level : Nat)
  | table (phys : Nat)
deriving DecidableEq

/-- Access to physical memory, a source of zeroed frames for tables, and what a caller does when
it is told of a released frame. -/
class PhysMem (σ : Type) where
  read : σ → Nat → Word
  write : σ → Nat → Word → σ
  allocateTable : σ → Option Nat × σ
  released : σ → Released → σ

open PhysMem

inductive MapError where
  | misaligned
  | notCanonical
  | outOfMemory
  | alreadyMapped (virt : Nat)
  | blockInTheWay (virt : Nat)
  | rangeOverflow
  | physicalOutOfRange
deriving DecidableEq

def checkedAdd (address bytes : Nat) : Option Nat :=
  if address + bytes < 2 ^ 64 then some (address + bytes) else none

def isAlignedTo (address alignment : Nat) : Bool := address &&& (alignment - 1) == 0

def descriptorAddress (table index : Nat) : Nat := table + index * 8

structure Mapper where
  root : Nat
  largestBlock : Nat
deriving DecidableEq

namespace Mapper

def new (root : Nat) : Mapper := ⟨root, Level.megabyte⟩

def allowGigabyteBlocks (mapper : Mapper) : Mapper :=
  { mapper with largestBlock := Level.gigabyte }

def pagesOnly (mapper : Mapper) : Mapper := { mapper with largestBlock := Level.page }

end Mapper

variable {σ : Type} [PhysMem σ] (encoding : Encoding)

/-- The largest level, from the given one down, whose block fits. -/
def chooseLevel (virt phys remaining : Nat) : Nat → Nat
  | 0 => Level.page
  | level + 1 =>
    if encoding.supportsBlock (level + 1) && isAlignedTo virt (span (level + 1)) &&
        isAlignedTo phys (span (level + 1)) && decide (remaining ≥ span (level + 1)) then level + 1
    else chooseLevel virt phys remaining level

/-- `map_one` from the table of a level down: the loop that creates the tables above the target
and then the leaf. -/
def mapFrom (virt phys target : Nat) (flags : MapFlags) :
    Nat → Nat → σ → Except MapError Unit × σ
  | level, table, memory =>
    if level > target then
      let slot := descriptorAddress table (index level virt)
      let entry := read memory slot
      if encoding.isPresent entry then
        if encoding.isLeaf entry level then (.error (.blockInTheWay virt), memory)
        else
          match level with
          | 0 => (.error (.blockInTheWay virt), memory)
          | level + 1 => mapFrom virt phys target flags level (encoding.address entry) memory
      else
        match allocateTable memory with
        | (none, memory) => (.error .outOfMemory, memory)
        | (some fresh, memory) =>
          let memory := write memory slot (encoding.tableDescriptor fresh flags)
          match level with
          | 0 => (.error (.blockInTheWay virt), memory)
          | level + 1 => mapFrom virt phys target flags level fresh memory
    else
      let slot := descriptorAddress table (index target virt)
      if encoding.isPresent (read memory slot) then (.error (.alreadyMapped virt), memory)
      else (.ok (), write memory slot (encoding.leafDescriptor phys target flags))

def mapOne (mapper : Mapper) (virt phys target : Nat) (flags : MapFlags) (memory : σ) :
    Except MapError Unit × σ :=
  mapFrom encoding virt phys target flags encoding.rootLevel mapper.root memory

/-- The loop of `map_range`; every round maps a page at least, so that a round for each page is
enough. -/
def mapLoop (mapper : Mapper) (virt phys len : Nat) (flags : MapFlags) :
    Nat → Nat → σ → Except MapError Unit × σ
  | 0, _, memory => (.ok (), memory)
  | rounds + 1, done, memory =>
    if done < len then
      match checkedAdd virt done, checkedAdd phys done with
      | some at_, some frame =>
        let level := chooseLevel encoding at_ frame (len - done) mapper.largestBlock
        match mapOne encoding mapper at_ frame level flags memory with
        | (.error error, memory) => (.error error, memory)
        | (.ok (), memory) =>
          mapLoop mapper virt phys len flags rounds (done + span level) memory
      | _, _ => (.error .rangeOverflow, memory)
    else (.ok (), memory)

def checkRange (virt phys len : Nat) : Except MapError Unit :=
  if !isAlignedTo virt pageSize || !isAlignedTo phys pageSize then .error .misaligned
  else if len % pageSize ≠ 0 then .error .misaligned
  else if !encoding.isCanonical virt then .error .notCanonical
  else if len ≠ 0 ∧ checkedAdd virt (len - 1) = none then .error .rangeOverflow
  else
    let last := virt + (len - 1)
    let boundary := 2 ^ (encoding.virtBits - 1)
    let crosses := decide (virt < boundary) && decide (last ≥ boundary)
    if len ≠ 0 ∧ (!encoding.isCanonical last || (crosses && !encoding.isCanonical boundary)) then
      .error .notCanonical
    else if phys + len ≥ 2 ^ 64 ∨ phys + len > 2 ^ encoding.physBits then
      .error .physicalOutOfRange
    else .ok ()

def mapRange (mapper : Mapper) (virt phys len : Nat) (flags : MapFlags) (memory : σ) :
    Except MapError Unit × σ :=
  match checkRange encoding virt phys len with
  | .error error => (.error error, memory)
  | .ok () => mapLoop encoding mapper virt phys len flags (len / pageSize) 0 memory

def translateFrom (memory : σ) (virt : Nat) : Nat → Nat → Option Nat
  | level, table =>
    let entry := read memory (descriptorAddress table (index level virt))
    if encoding.isPresent entry then
      if encoding.isLeaf entry level then
        checkedAdd (encoding.address entry) (virt &&& (span level - 1))
      else
        match level with
        | 0 => none
        | level + 1 => translateFrom memory virt level (encoding.address entry)
    else none

def translate (mapper : Mapper) (memory : σ) (virt : Nat) : Option Nat :=
  translateFrom encoding memory virt encoding.rootLevel mapper.root

inductive Found where
  | leaf (slot : Nat) (entry : Word) (level : Nat)
  | hole (level : Nat)
deriving DecidableEq

structure Step where
  parent : Nat
  slot : Nat
  table : Nat
deriving DecidableEq

def pushStep (path : List Step) (step : Step) : List Step :=
  if path.length < 3 then step :: path else path

def findLeafFrom (memory : σ) (virt : Nat) :
    Nat → Nat → List Step → Except MapError Found × List Step
  | level, table, path =>
    let slot := descriptorAddress table (index level virt)
    let entry := read memory slot
    if encoding.isPresent entry then
      if encoding.isLeaf entry level then (.ok (.leaf slot entry level), path)
      else
        let path := pushStep path ⟨table, index level virt, encoding.address entry⟩
        match level with
        | 0 => (.error (.blockInTheWay virt), path)
        | level + 1 => findLeafFrom memory virt level (encoding.address entry) path
    else (.ok (.hole level), path)

def findLeaf (mapper : Mapper) (memory : σ) (virt : Nat) : Except MapError Found × List Step :=
  findLeafFrom encoding memory virt encoding.rootLevel mapper.root []

def isEmpty (memory : σ) (table : Nat) : Bool :=
  (List.range entries).all fun index =>
    !encoding.isPresent (read memory (descriptorAddress table index))

def prune : List Step → σ → σ
  | [], memory => memory
  | step :: path, memory =>
    if isEmpty encoding memory step.table then
      let memory := write memory (descriptorAddress step.parent step.slot) 0
      prune path (released memory (.table step.table))
    else memory

/-- How far the loops of `unmap_range` and `prune_range` get by stepping over a descriptor's
span. -/
def stepOver (virt len at_ level : Nat) : Nat :=
  match checkedAdd (at_ ||| (span level - 1)) 1 with
  | some next => min (next - virt) len
  | none => len

def unmapLoop (mapper : Mapper) (virt len : Nat) :
    Nat → Nat → Nat → σ → Except MapError Nat × σ
  | 0, _, removed, memory => (.ok removed, memory)
  | rounds + 1, done, removed, memory =>
    if done < len then
      match checkedAdd virt done with
      | none => (.error .rangeOverflow, memory)
      | some at_ =>
        match findLeaf encoding mapper memory at_ with
        | (.error error, _) => (.error error, memory)
        | (.ok (.hole level), _) =>
          unmapLoop mapper virt len rounds (stepOver virt len at_ level) removed memory
        | (.ok (.leaf slot entry level), path) =>
          if !isAlignedTo at_ (span level) || decide (len - done < span level) then
            (.error (.blockInTheWay at_), memory)
          else
            let memory := write memory slot 0
            let memory := released memory (.page (encoding.address entry) level)
            let memory := prune encoding path memory
            unmapLoop mapper virt len rounds (done + span level) (removed + 1) memory
    else (.ok removed, memory)

def unmapRange (mapper : Mapper) (virt len : Nat) (memory : σ) : Except MapError Nat × σ :=
  if !isAlignedTo virt pageSize || len % pageSize != 0 then (.error .misaligned, memory)
  else unmapLoop encoding mapper virt len (len / pageSize) 0 0 memory

def pruneLoop (mapper : Mapper) (virt len : Nat) : Nat → Nat → σ → Except MapError Unit × σ
  | 0, _, memory => (.ok (), memory)
  | rounds + 1, done, memory =>
    if done < len then
      match checkedAdd virt done with
      | none => (.error .rangeOverflow, memory)
      | some at_ =>
        match findLeaf encoding mapper memory at_ with
        | (.error error, _) => (.error error, memory)
        | (.ok (.hole level), path) =>
          pruneLoop mapper virt len rounds (stepOver virt len at_ level)
            (prune encoding path memory)
        | (.ok (.leaf _ _ level), _) =>
          pruneLoop mapper virt len rounds (stepOver virt len at_ level) memory
    else (.ok (), memory)

def pruneRange (mapper : Mapper) (virt len : Nat) (memory : σ) : Except MapError Unit × σ :=
  if !isAlignedTo virt pageSize || len % pageSize != 0 then (.error .misaligned, memory)
  else pruneLoop encoding mapper virt len (len / pageSize) 0 memory

def protectLoop (mapper : Mapper) (virt len : Nat) (flags : MapFlags) :
    Nat → Nat → σ → Except MapError Unit × σ
  | 0, _, memory => (.ok (), memory)
  | rounds + 1, done, memory =>
    if done < len then
      match checkedAdd virt done with
      | none => (.error .rangeOverflow, memory)
      | some at_ =>
        match findLeaf encoding mapper memory at_ with
        | (.error error, _) => (.error error, memory)
        | (.ok (.hole _), _) => (.error (.alreadyMapped at_), memory)
        | (.ok (.leaf slot entry level), _) =>
          if !isAlignedTo at_ (span level) || decide (len - done < span level) then
            (.error (.blockInTheWay at_), memory)
          else
            let descriptor :=
              encoding.leafDescriptor (encoding.address entry) level flags
            protectLoop mapper virt len flags rounds (done + span level)
              (write memory slot descriptor)
    else (.ok (), memory)

def protectRange (mapper : Mapper) (virt len : Nat) (flags : MapFlags) (memory : σ) :
    Except MapError Unit × σ :=
  if !isAlignedTo virt pageSize || len % pageSize != 0 then (.error .misaligned, memory)
  else protectLoop encoding mapper virt len flags (len / pageSize) 0 memory

end Ferrix.Paging.Tables

import Mathlib.Tactic

/-!
Segregated free lists over a page supply, and the reserves filled from them.  Everything the heap
knows of memory it learns and changes through the trait `Backing`.
-/

namespace Ferrix.KernelHeap.Slabs

def pageSize : Nat := 4096

def classSizes : List Nat := [8, 16, 32, 64, 128, 256, 512, 1024, 2048]

def classes : Nat := classSizes.length

def largestClass : Nat := 2048

def smallestClass : Nat := 8

def pageOf (address : Nat) : Nat := address - address % pageSize

/-- `END`, which closes a free list: no heap address is zero. -/
def listEnd : Nat := 0

def maxOrder : Nat := 10

def reserveLargeOrders : Nat := 5

structure Request where
  size : Nat
  align : Nat
deriving DecidableEq

def Request.effectiveSize (request : Request) : Nat :=
  let size := if request.size = 0 then 1 else request.size
  if size < request.align then request.align else size

def isPowerOfTwo (n : Nat) : Bool := n ≠ 0 && n &&& (n - 1) = 0

inductive HeapError where
  | outOfMemory
  | badAlignment (align : Nat)
  | tooLarge (bytes : Nat)
deriving DecidableEq

/-- Where a heap gets pages, and how it reaches the memory in them. -/
class Backing (σ : Type) where
  allocatePages : σ → Nat → Option Nat × σ
  deallocatePages : σ → Nat → Nat → σ
  readLink : σ → Nat → Nat
  writeLink : σ → Nat → Nat → σ
  slabFree : σ → Nat → Nat
  setSlabFree : σ → Nat → Nat → σ

open Backing

structure Heap where
  free : List Nat
  allocated : Nat
  slabPages : Nat
  pagesPerClass : List Nat
  largePages : Nat
  slabPagesReturned : Nat
deriving DecidableEq

def classSize (class_ : Nat) : Nat := classSizes.getD class_ largestClass

def objectsPerPage (class_ : Nat) : Nat := pageSize / classSize class_

def classOf (request : Request) : Option Nat :=
  let needed := request.effectiveSize
  if largestClass < needed then none
  else classSizes.findIdx? fun size => needed ≤ size

def orderFor (pages : Nat) : Nat := ((List.range 64).find? fun order => pages ≤ 2 ^ order).getD 64

def orderOf (request : Request) : Except HeapError Nat :=
  let bytes := request.effectiveSize
  let pages := (bytes + (pageSize - 1)) / pageSize
  let order := orderFor pages
  if maxOrder < order then .error (.tooLarge bytes) else .ok order

namespace Heap

variable {σ : Type} [Backing σ]

def new : Heap where
  free := List.replicate classes listEnd
  allocated := 0
  slabPages := 0
  pagesPerClass := List.replicate classes 0
  largePages := 0
  slabPagesReturned := 0

variable (heap : Heap)

def head (class_ : Nat) : Nat := heap.free.getD class_ listEnd

def setHead (class_ address : Nat) : Heap :=
  { heap with free := heap.free.set class_ address }

/-- `push_raw`, which is all `push` does. -/
def push (backing : σ) (class_ address : Nat) : Heap × σ :=
  let linked := writeLink backing address (heap.head class_)
  (heap.setHead class_ address, linked)

def pop (backing : σ) (class_ : Nat) : Option Nat × Heap :=
  let head := heap.head class_
  if head = listEnd then (none, heap)
  else (some head, heap.setHead class_ (readLink backing head))

def takeFromPage (backing : σ) (address : Nat) : σ :=
  let page := pageOf address
  setSlabFree backing page (slabFree backing page - 1)

/-- The loop of `refill` over the objects of a fresh page, the last one first. -/
def pushObjects (class_ page : Nat) : Nat → Heap → σ → Heap × σ
  | 0, heap, backing => (heap, backing)
  | index + 1, heap, backing =>
    let (heap, backing) := heap.push backing class_ (page + index * classSize class_)
    pushObjects class_ page index heap backing

def refill (backing : σ) (class_ : Nat) : Except HeapError Unit × Heap × σ :=
  match allocatePages backing 0 with
  | (none, backing) => (.error .outOfMemory, heap, backing)
  | (some page, backing) =>
    let counted :=
      { heap with
        slabPages := heap.slabPages + 1
        pagesPerClass := heap.pagesPerClass.modify class_ (· + 1) }
    let objects := objectsPerPage class_
    let (heap, backing) := pushObjects class_ page objects counted backing
    (.ok (), heap, setSlabFree backing page (min objects (2 ^ 16 - 1)))

def allocateSmall (backing : σ) (class_ : Nat) :
    Except HeapError Nat × Heap × σ :=
  let filled :=
    if heap.head class_ = listEnd then heap.refill backing class_ else (.ok (), heap, backing)
  match filled with
  | (.error error, heap, backing) => (.error error, heap, backing)
  | (.ok (), heap, backing) =>
    match heap.pop backing class_ with
    | (none, heap) => (.error .outOfMemory, heap, backing)
    | (some address, heap) =>
      (.ok address, { heap with allocated := heap.allocated + classSize class_ },
        takeFromPage backing address)

def allocate (backing : σ) (request : Request) :
    Except HeapError Nat × Heap × σ :=
  if !isPowerOfTwo request.align then (.error (.badAlignment request.align), heap, backing)
  else
    match classOf request with
    | none =>
      match orderOf request with
      | .error error => (.error error, heap, backing)
      | .ok order =>
        match allocatePages backing order with
        | (none, backing) => (.error .outOfMemory, heap, backing)
        | (some address, backing) =>
          (.ok address,
            { heap with
              largePages := heap.largePages + 2 ^ order
              allocated := heap.allocated + 2 ^ order * pageSize },
            backing)
    | some class_ => heap.allocateSmall backing class_

def unlinkOne (backing : σ) (class_ previous next : Nat) : Heap × σ :=
  if previous = listEnd then (heap.setHead class_ next, backing)
  else (heap, writeLink backing previous next)

def unlinkFrom (class_ page : Nat) : Nat → Heap → σ → Nat → Nat → Heap × σ
  | 0, heap, backing, _, _ => (heap, backing)
  | budget + 1, heap, backing, previous, cursor =>
    if cursor = listEnd then (heap, backing)
    else
      let next := readLink backing cursor
      if pageOf cursor = page then
        let (heap, backing) := heap.unlinkOne backing class_ previous next
        unlinkFrom class_ page budget heap backing previous next
      else unlinkFrom class_ page budget heap backing cursor next

def unlinkPage (backing : σ) (class_ page : Nat) : Heap × σ :=
  unlinkFrom class_ page ((heap.slabPages + 1) * (pageSize / smallestClass)) heap backing listEnd
    (heap.head class_)

def giveBackIfEmpty (backing : σ) (class_ address : Nat) : Heap × σ :=
  let page := pageOf address
  let objects := objectsPerPage class_
  let free := min (slabFree backing page + 1) (2 ^ 16 - 1)
  let counted := setSlabFree backing page free
  if free ≠ objects then (heap, counted)
  else if heap.pagesPerClass.getD class_ 0 ≤ 1 then (heap, counted)
  else
    let (heap, unlinked) := heap.unlinkPage counted class_ page
    let returned := deallocatePages (setSlabFree unlinked page 0) page 0
    ({ heap with
        slabPages := heap.slabPages - 1
        slabPagesReturned := heap.slabPagesReturned + 1
        pagesPerClass := heap.pagesPerClass.modify class_ (· - 1) },
      returned)

def deallocateSmall (backing : σ) (class_ address : Nat) : Heap × σ :=
  let (heap, backing) := heap.push backing class_ address
  { heap with allocated := heap.allocated - classSize class_ }.giveBackIfEmpty backing class_
    address

def deallocate (backing : σ) (address : Nat) (request : Request) : Heap × σ :=
  match classOf request with
  | none =>
    match orderOf request with
    | .error _ => (heap, backing)
    | .ok order =>
      ({ heap with
          largePages := heap.largePages - 2 ^ order
          allocated := heap.allocated - 2 ^ order * pageSize },
        deallocatePages backing address order)
  | some class_ => heap.deallocateSmall backing class_ address

end Heap

structure Reserve where
  heads : List Nat
  counts : List Nat
  large : List Nat
deriving DecidableEq

namespace Reserve

variable {σ : Type} [Backing σ]

def new : Reserve where
  heads := List.replicate classes listEnd
  counts := List.replicate classes 0
  large := List.replicate reserveLargeOrders listEnd

variable (reserve : Reserve)

def head (class_ : Nat) : Nat := reserve.heads.getD class_ listEnd

def count (class_ : Nat) : Nat := reserve.counts.getD class_ (2 ^ 16 - 1)

def hold (backing : σ) (class_ object : Nat) : Reserve × σ :=
  let linked := writeLink backing object (reserve.head class_)
  ({ reserve with
      heads := reserve.heads.set class_ object
      counts := reserve.counts.modify class_ fun count => min (count + 1) (2 ^ 16 - 1) },
    linked)

/-- The loop of `fill` for one class; each round adds an object, so that `depth` rounds are
enough. -/
def fillClass (depth class_ : Nat) :
    Nat → Reserve → Heap → σ → Except HeapError Unit × Reserve × Heap × σ
  | 0, reserve, heap, backing => (.ok (), reserve, heap, backing)
  | left + 1, reserve, heap, backing =>
    if reserve.count class_ < depth then
      let size := classSize class_
      match heap.allocate backing ⟨size, size⟩ with
      | (.error error, heap, backing) => (.error error, reserve, heap, backing)
      | (.ok object, heap, backing) =>
        let (reserve, backing) := reserve.hold backing class_ object
        fillClass depth class_ left reserve heap backing
    else (.ok (), reserve, heap, backing)

def fillFrom (depth : Nat) :
    List Nat → Reserve → Heap → σ → Except HeapError Unit × Reserve × Heap × σ
  | [], reserve, heap, backing => (.ok (), reserve, heap, backing)
  | class_ :: rest, reserve, heap, backing =>
    match fillClass depth class_ depth reserve heap backing with
    | (.error error, reserve, heap, backing) => (.error error, reserve, heap, backing)
    | (.ok (), reserve, heap, backing) => fillFrom depth rest reserve heap backing

def fill (heap : Heap) (backing : σ) (depth : Nat) :
    Except HeapError Unit × Reserve × Heap × σ :=
  fillFrom depth (List.range classes) reserve heap backing

def holdLarge (heap : Heap) (backing : σ) (request : Request) :
    Except HeapError Unit × Reserve × Heap × σ :=
  match classOf request with
  | some _ => (.ok (), reserve, heap, backing)
  | none =>
    match orderOf request with
    | .error error => (.error error, reserve, heap, backing)
    | .ok order =>
      match reserve.large[order]? with
      | none => (.error (.tooLarge request.effectiveSize), reserve, heap, backing)
      | some slot =>
        if slot = listEnd then
          match heap.allocate backing ⟨pageSize * 2 ^ order, pageSize⟩ with
          | (.error error, heap, backing) => (.error error, reserve, heap, backing)
          | (.ok block, heap, backing) =>
            (.ok (), { reserve with large := reserve.large.set order block }, heap, backing)
        else (.ok (), reserve, heap, backing)

def takeSmall (backing : σ) (class_ : Nat) : Option Nat × Reserve :=
  let head := reserve.head class_
  if head = listEnd then (none, reserve)
  else
    (some head,
      { reserve with
        heads := reserve.heads.set class_ (readLink backing head)
        counts := reserve.counts.modify class_ (· - 1) })

def take (backing : σ) (request : Request) : Option Nat × Reserve :=
  if !isPowerOfTwo request.align then (none, reserve)
  else
    match classOf request with
    | some class_ => reserve.takeSmall backing class_
    | none =>
      match orderOf request with
      | .error _ => (none, reserve)
      | .ok order =>
        match reserve.large[order]? with
        | none => (none, reserve)
        | some block =>
          (if block ≠ listEnd then some block else none,
            { reserve with large := reserve.large.set order listEnd })

def releaseLargeFrom :
    List Nat → Reserve → Heap → σ → Reserve × Heap × σ
  | [], reserve, heap, backing => (reserve, heap, backing)
  | order :: rest, reserve, heap, backing =>
    let block := reserve.large.getD order listEnd
    let emptied := { reserve with large := reserve.large.set order listEnd }
    if block ≠ listEnd then
      let (heap, backing) := heap.deallocate backing block ⟨pageSize * 2 ^ order, pageSize⟩
      releaseLargeFrom rest emptied heap backing
    else releaseLargeFrom rest emptied heap backing

def releaseLarge (heap : Heap) (backing : σ) : Reserve × Heap × σ :=
  releaseLargeFrom (List.range reserve.large.length) reserve heap backing

/-- The loop of `release` for one class; the list is as long as its count says, so that one
round more than that is enough. -/
def releaseClass (class_ : Nat) : Nat → Reserve → Heap → σ → Reserve × Heap × σ
  | 0, reserve, heap, backing => (reserve, heap, backing)
  | left + 1, reserve, heap, backing =>
    let size := classSize class_
    match reserve.take backing ⟨size, size⟩ with
    | (none, reserve) => (reserve, heap, backing)
    | (some object, reserve) =>
      let (heap, backing) := heap.deallocate backing object ⟨size, size⟩
      releaseClass class_ left reserve heap backing

def releaseFrom : List Nat → Reserve → Heap → σ → Reserve × Heap × σ
  | [], reserve, heap, backing => (reserve, heap, backing)
  | class_ :: rest, reserve, heap, backing =>
    let (reserve, heap, backing) :=
      releaseClass class_ (reserve.count class_ + 1) reserve heap backing
    releaseFrom rest reserve heap backing

def release (heap : Heap) (backing : σ) : Reserve × Heap × σ :=
  let (reserve, heap, backing) := releaseFrom (List.range classes) reserve heap backing
  reserve.releaseLarge heap backing

end Reserve

end Ferrix.KernelHeap.Slabs

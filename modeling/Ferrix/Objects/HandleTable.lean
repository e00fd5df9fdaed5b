import Ferrix.Foundations.Allocation

/-!
A process's handle table: slots with generations, a queue of vacant slots, and
rights that live on the handle.
-/

namespace Ferrix.Objects.HandleTable

open Foundations.Allocation

structure Rights where
  bits : BitVec 32
  deriving DecidableEq

namespace Rights

def none : Rights := ⟨0#32⟩

def duplicate : Rights := ⟨1#32⟩

def contains (self other : Rights) : Bool :=
  self.bits &&& other.bits == other.bits

@[simp] theorem contains_self (rs : Rights) : rs.contains rs = true := by
  simp [contains]

end Rights

inductive Requested where
  | same
  | exactly (wanted : Rights)
  deriving DecidableEq

def Requested.resolve : Requested → Rights → Option Rights
  | .same, held => some held
  | .exactly wanted, held => if held.contains wanted then some wanted else none

structure Handle where
  value : Nat
  deriving DecidableEq

def generationBits : Nat := 12

def generationMask : Nat := (1 <<< generationBits) - 1

def maxGeneration : Nat := generationMask

def maxSlots : Nat := 1 <<< (31 - generationBits)

def encode (index generation : Nat) : Handle :=
  ⟨((index <<< generationBits) % 2 ^ 32) ||| generation⟩

def decode (handle : Handle) : Nat × Nat :=
  (handle.value >>> generationBits, handle.value &&& generationMask)

def bounded (index len : Nat) : Option Nat :=
  if index ≥ len then none else some index

inductive TableError where
  | badHandle
  | accessDenied
  | full
  | repeated
  | noMemory
  deriving DecidableEq

/-- One slot of the table. A vacant slot remembers the generation its next
occupant will get. -/
inductive Slot (T : Type*) where
  | occupied (generation : Nat) (rights : Rights) (object : T)
  | vacant (generation : Nat)
  | retired
  deriving DecidableEq

end Ferrix.Objects.HandleTable

namespace Ferrix.Objects

open Foundations.Allocation HandleTable

/-- A table of handles, each naming a `T` with some rights. The two capacities
are those of the slot list and of the queue of vacant slots. -/
structure HandleTable (T : Type*) where
  slots : List (Slot T)
  slotCapacity : Nat
  free : List Nat
  freeCapacity : Nat
  live : Nat
  limit : Nat
  closed : Bool
  deriving DecidableEq

end Ferrix.Objects

namespace Ferrix.Objects.HandleTable

open Foundations.Allocation

/-- The allocator as each buffer of one call meets it: the slot list, the
queue of vacant slots, and the list a batch hands back. -/
structure Memory where
  slots : Allocator
  free : Allocator
  list : Allocator

variable {T : Type*}

def new (limit : Nat) : HandleTable T where
  slots := []
  slotCapacity := 0
  free := []
  freeCapacity := 0
  live := 0
  limit := min limit maxSlots
  closed := false

def room (t : HandleTable T) : Nat :=
  if t.closed then 0
  else min (t.limit - t.live) (t.free.length + (maxSlots - t.slots.length))

def reserve (memory : Memory) (t : HandleTable T) (count : Nat) :
    Except TableError Unit × HandleTable T :=
  let fresh := count - t.free.length
  match tryReserve memory.slots t.slots.length t.slotCapacity fresh with
  | none => (.error .noMemory, t)
  | some slotCapacity =>
    let t : HandleTable T := { t with slotCapacity := slotCapacity }
    let slots := t.slots.length + fresh
    let additional := slots - t.free.length
    match tryReserve memory.free t.free.length t.freeCapacity additional with
    | none => (.error .noMemory, t)
    | some freeCapacity => (.ok (), { t with freeCapacity := freeCapacity })

def insertFresh (memory : Memory) (t : HandleTable T) (object : T) (rights : Rights) :
    Except T Handle × HandleTable T :=
  match t.reserve memory 1 with
  | (.error _, t) => (.error object, t)
  | (.ok (), t) =>
    let index := t.slots.length % 2 ^ 32
    (.ok (encode index 1),
      { t with
        slots := t.slots ++ [.occupied 1 rights object]
        live := t.live + 1 })

/-- Open a handle, when the caller has already established there is room: the
longest-vacant slot if there is one, a fresh slot otherwise. -/
def insertWithRoom (memory : Memory) (t : HandleTable T) (object : T) (rights : Rights) :
    Except T Handle × HandleTable T :=
  match t.free with
  | [] => t.insertFresh memory object rights
  | index :: free =>
    let t : HandleTable T := { t with free := free }
    match t.slots[index]? with
    | some (.vacant generation) =>
      (.ok (encode index generation),
        { t with
          slots := t.slots.set index (.occupied generation rights object)
          live := t.live + 1 })
    | _ => t.insertFresh memory object rights

def insert (memory : Memory) (t : HandleTable T) (object : T) (rights : Rights) :
    Except T Handle × HandleTable T :=
  if t.room = 0 then (.error object, t)
  else t.insertWithRoom memory object rights

def get (t : HandleTable T) (handle : Handle) : Except TableError (T × Rights) :=
  match bounded (decode handle).1 t.slots.length with
  | none => .error .badHandle
  | some index =>
    match t.slots[index]? with
    | some (.occupied generation rights object) =>
      if generation = (decode handle).2 then .ok (object, rights)
      else .error .badHandle
    | _ => .error .badHandle

def getWith (t : HandleTable T) (handle : Handle) (needed : Rights) :
    Except TableError T :=
  match t.get handle with
  | .error error => .error error
  | .ok (object, rights) =>
    if rights.contains needed then .ok object else .error .accessDenied

def remove (t : HandleTable T) (handle : Handle) :
    Except TableError (T × Rights) × HandleTable T :=
  match bounded (decode handle).1 t.slots.length with
  | none => (.error .badHandle, t)
  | some index =>
    match t.slots[index]? with
    | some (.occupied generation rights object) =>
      if generation = (decode handle).2 then
        if generation < maxGeneration then
          (.ok (object, rights),
            { t with
              slots := t.slots.set index (.vacant (generation + 1))
              free := t.free ++ [index]
              live := t.live - 1 })
        else
          (.ok (object, rights),
            { t with
              slots := t.slots.set index .retired
              live := t.live - 1 })
      else (.error .badHandle, t)
    | _ => (.error .badHandle, t)

def duplicate (clone : T → T) (memory : Memory) (t : HandleTable T) (handle : Handle)
    (requested : Requested) : Except TableError Handle × HandleTable T :=
  match t.get handle with
  | .error error => (.error error, t)
  | .ok (object, held) =>
    if !held.contains Rights.duplicate then (.error .accessDenied, t)
    else
      match requested.resolve held with
      | none => (.error .accessDenied, t)
      | some rights =>
        match t.insert memory (clone object) rights with
        | (.ok handle, t) => (.ok handle, t)
        | (.error _, t) => (.error .full, t)

/-- Swap `handle` for a new one to the same object with the rights asked for, in place while its
slot has generations left and in another slot when it has not. -/
def replace (memory : Memory) (t : HandleTable T) (handle : Handle)
    (requested : Requested) : Except TableError Handle × HandleTable T :=
  match t.get handle with
  | .error error => (.error error, t)
  | .ok (_, held) =>
    match requested.resolve held with
    | none => (.error .accessDenied, t)
    | some rights =>
      let (index, generation) := decode handle
      match bounded index t.slots.length with
      | none => (.error .badHandle, t)
      | some index =>
        if generation < maxGeneration then
          match t.slots[index]? with
          | some (.occupied _ _ object) =>
            (.ok (encode (index % 2 ^ 32) (generation + 1)),
              { t with
                slots := t.slots.set index
                  (.occupied (generation + 1) rights object) })
          | _ => (.error .badHandle, t)
        else if t.free.isEmpty && t.slots.length ≥ maxSlots then
          (.error .full, t)
        else
          match t.reserve memory 1 with
          | (.error error, t) => (.error error, t)
          | (.ok (), t) =>
            match t.remove handle with
            | (.error error, t) => (.error error, t)
            | (.ok (object, _), t) =>
              match t.insertWithRoom memory object rights with
              | (.ok handle, t) => (.ok handle, t)
              | (.error _, t) => (.error .noMemory, t)

def checkEach (t : HandleTable T) (needed : Rights) :
    List Handle → List Handle → Except TableError Unit
  | _, [] => .ok ()
  | earlier, handle :: handles =>
    match t.getWith handle needed with
    | .error error => .error error
    | .ok _ =>
      if earlier.any (· == handle) then .error .repeated
      else t.checkEach needed (earlier ++ [handle]) handles

/-- The second pass of `takeMany`: close each handle and keep what it named,
within the capacity the list was given. -/
def takeEach (capacity : Nat) :
    List Handle → HandleTable T → List (T × Rights) →
      Except TableError (List (T × Rights)) × HandleTable T
  | [], t, taken => (.ok taken, t)
  | handle :: handles, t, taken =>
    match t.remove handle with
    | (.error error, t) => (.error error, t)
    | (.ok entry, t) =>
      if taken.length < capacity then takeEach capacity handles t (taken ++ [entry])
      else (.error .noMemory, t)

def takeMany (memory : Memory) (t : HandleTable T) (handles : List Handle)
    (needed : Rights) : Except TableError (List (T × Rights)) × HandleTable T :=
  match t.checkEach needed [] handles with
  | .error error => (.error error, t)
  | .ok () =>
    match tryReserve memory.list 0 0 handles.length with
    | none => (.error .noMemory, t)
    | some capacity => takeEach capacity handles t []

/-- The loop of `insertMany`: an object the table has no memory for is
dropped, and a handle the list has no room for is forgotten. -/
def insertEach (memory : Memory) (capacity : Nat) :
    List (T × Rights) → HandleTable T → List Handle → List Handle × HandleTable T
  | [], t, handles => (handles, t)
  | (object, rights) :: objects, t, handles =>
    match t.insertWithRoom memory object rights with
    | (.ok handle, t) =>
      insertEach memory capacity objects t
        (if handles.length < capacity then handles ++ [handle] else handles)
    | (.error _, t) => insertEach memory capacity objects t handles

def insertMany (memory : Memory) (t : HandleTable T) (objects : List (T × Rights)) :
    Except (TableError × List (T × Rights)) (List Handle) × HandleTable T :=
  if objects.length > t.room then (.error (.full, objects), t)
  else
    match t.reserve memory objects.length with
    | (.error _, t) => (.error (.noMemory, objects), t)
    | (.ok (), t) =>
      match tryReserve memory.list 0 0 objects.length with
      | none => (.error (.noMemory, objects), t)
      | some capacity =>
        let (handles, t) := insertEach memory capacity objects t []
        (.ok handles, t)

def objects (slots : List (Slot T)) : List T :=
  slots.filterMap fun
    | .occupied _ _ object => some object
    | .vacant _ => none
    | .retired => none

def close (t : HandleTable T) : List T × HandleTable T :=
  (objects t.slots,
    { t with closed := true, live := 0, free := [], slots := [], slotCapacity := 0 })

def handles (t : HandleTable T) : List (Handle × Rights) :=
  t.slots.zipIdx.filterMap fun
    | (.occupied generation rights _, index) =>
      some (encode (index % 2 ^ 32) generation, rights)
    | _ => none

def removeEach : List Handle → HandleTable T → List T × HandleTable T
  | [], t => ([], t)
  | handle :: handles, t =>
    match t.remove handle with
    | (.ok (object, _), t) =>
      let (objects, t) := removeEach handles t
      (object :: objects, t)
    | (.error _, t) => removeEach handles t

def clear (t : HandleTable T) : List T × HandleTable T :=
  removeEach (t.handles.map Prod.fst) t

end Ferrix.Objects.HandleTable

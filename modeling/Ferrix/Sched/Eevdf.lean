import Ferrix.Sched.DeadlineTree

/-!
The EEVDF run queue of one processor: the entities competing for it, the one
running, and the virtual time kept as a base and a weighted sum of offsets.
-/

namespace Ferrix.Sched.Eevdf

open Foundations.WrappingClock DeadlineTree

def nice0Weight : Nat := 1024

def u64Max : Nat := 2 ^ 64 - 1

def i64Max : Int := 2 ^ 63 - 1

def asI64 (value : Int) : Int := (BitVec.ofInt 64 value).toInt

inductive SchedError where
  | zeroSlice
  | zeroWeight
  | duplicate (id : Nat)
  deriving DecidableEq

structure Config where
  sliceNs : Nat
  deriving DecidableEq

structure EntityState where
  weight : Nat
  vlag : Int
  sumExec : Nat
  deriving DecidableEq

def EntityState.new (weight : Nat) : EntityState := ⟨weight, 0, 0⟩

structure Refused (T : Type) where
  payload : T
  reason : SchedError

/-- One processor's fair class. The running entity is counted in `sum` and
`load` and is not in `tree`. -/
structure RunQueue (T : Type) where
  config : Config
  tree : DeadlineTree.Tree T
  curr : Option (Entity T)
  zero : BitVec 64
  sum : Int
  load : Nat

def toVirtual (realNs weight : Nat) : Nat :=
  min (realNs * nice0Weight / max weight 1) u64Max

def toReal (virtualNs weight : Nat) : Nat :=
  min (virtualNs * weight / nice0Weight) u64Max

variable {T : Type}

namespace RunQueue

def new (config : Config) : Except SchedError (RunQueue T) :=
  if config.sliceNs = 0 then .error .zeroSlice
  else .ok ⟨config, DeadlineTree.Tree.new, none, 0#64, 0, 0⟩

variable (queue : RunQueue T)

def setSliceNs (sliceNs : Nat) : Except SchedError Unit × RunQueue T :=
  if sliceNs = 0 then (.error .zeroSlice, queue)
  else (.ok (), { queue with config := ⟨sliceNs⟩ })

def contains (id : Nat) : Bool :=
  (queue.curr.any fun curr => curr.id == id) || (queue.tree.find id).isSome

def avgVruntime : BitVec 64 :=
  if queue.load = 0 then queue.zero
  else queue.zero + BitVec.ofInt 64 (queue.sum / queue.load)

def relative (vruntime : BitVec 64) : Int :=
  offset vruntime queue.zero

def isEligible (vruntime : BitVec 64) : Bool :=
  decide (queue.sum ≥ queue.relative vruntime * queue.load)

def lagAt (vruntime : BitVec 64) : Int :=
  if queue.load = 0 then 0
  else asI64 ((queue.sum - queue.relative vruntime * queue.load) / queue.load)

def vslice (weight : Nat) : Nat :=
  toVirtual queue.config.sliceNs weight

def lagLimit (weight : Nat) : Int :=
  let doubled := min (queue.vslice weight * 2) u64Max
  if (doubled : Int) ≤ i64Max then doubled else i64Max

def addLoad (vruntime : BitVec 64) (weight : Nat) : RunQueue T :=
  { queue with
    sum := queue.sum + weight * queue.relative vruntime
    load := queue.load + weight }

def subLoad (vruntime : BitVec 64) (weight : Nat) : RunQueue T :=
  { queue with
    sum := queue.sum - weight * queue.relative vruntime
    load := queue.load - weight }

def normalize : RunQueue T :=
  if queue.load = 0 then { queue with sum := 0 }
  else
    let target := queue.avgVruntime
    let shift := queue.relative target
    { queue with sum := queue.sum - shift * queue.load, zero := target }

def placementLag (state : EntityState) : Int :=
  let limit := queue.lagLimit state.weight
  let lag := max (-limit) (min state.vlag limit)
  if queue.load = 0 then lag
  else asI64 ((lag * ((queue.load : Int) + state.weight)).tdiv queue.load)

/-- The entity a state is queued as: its lag behind the virtual time, its
request a slice long. -/
def placed (id : Nat) (payload : T) (state : EntityState) : Entity T :=
  let lag := queue.placementLag state
  let vruntime := queue.avgVruntime - BitVec.ofInt 64 lag
  let deadline := vruntime + BitVec.ofNat 64 (queue.vslice state.weight)
  ⟨id, state.weight, vruntime, deadline, state.sumExec, some payload⟩

def enqueue (id : Nat) (payload : T) (state : EntityState) :
    Except (Refused T) Unit × RunQueue T :=
  if state.weight = 0 then (.error ⟨payload, .zeroWeight⟩, queue)
  else if queue.contains id then (.error ⟨payload, .duplicate id⟩, queue)
  else
    let entity := queue.placed id payload state
    let queue := queue.addLoad entity.vruntime entity.weight
    let queue := { queue with tree := queue.tree.insert entity }
    (.ok (), queue.normalize)

def choose : Option Key :=
  ((queue.tree.pick queue.isEligible).or queue.tree.first).map Entity.key

def putCurrBack : RunQueue T :=
  match queue.curr with
  | none => queue
  | some entity => { queue with curr := none, tree := queue.tree.insert entity }

def pickNext : Option T × RunQueue T :=
  let queue := queue.putCurrBack
  match queue.choose with
  | none => (none, queue)
  | some key =>
    let removed := queue.tree.remove key
    match removed.2 with
    | none => (none, { queue with tree := removed.1 })
    | some entity => (entity.payload, { queue with tree := removed.1, curr := some entity })

def charge (sliceNs deltaNs : Nat) (curr : Entity T) : Entity T × Bool :=
  let vruntime := curr.vruntime + BitVec.ofNat 64 (toVirtual deltaNs curr.weight)
  let exhausted := !before vruntime curr.deadline
  ({ curr with
      sumExec := min (curr.sumExec + deltaNs) u64Max
      vruntime := vruntime
      deadline :=
        if exhausted then vruntime + BitVec.ofNat 64 (toVirtual sliceNs curr.weight)
        else curr.deadline },
    exhausted)

def updateCurr (deltaNs : Nat) : Bool × RunQueue T :=
  match queue.curr with
  | none => (false, queue)
  | some curr =>
    let charged := charge queue.config.sliceNs deltaNs curr
    let queue := { queue with
      curr := some charged.1
      sum := queue.sum + curr.weight * (toVirtual deltaNs curr.weight : Int) }
    (charged.2, queue.normalize)

def yieldCurr : RunQueue T :=
  if queue.tree.isEmpty then queue
  else
    { queue with
      curr := queue.curr.map fun curr =>
        { curr with
          deadline := curr.deadline +
            BitVec.ofNat 64 (toVirtual queue.config.sliceNs curr.weight) } }

def remainingNs : Option Nat :=
  queue.curr.map fun curr =>
    let left := offset curr.deadline curr.vruntime
    if left ≤ 0 then 0 else toReal left.toNat curr.weight

def leveled (sliceNs : Nat) (avg : BitVec 64) (entity : Entity T) : Entity T :=
  { entity with
    vruntime := avg
    deadline := avg + BitVec.ofNat 64 (toVirtual sliceNs entity.weight) }

/-- Move the entities of one tree to another, earliest first, levelling each on
the way; at most `count` of them. -/
def levelEach (sliceNs : Nat) (avg : BitVec 64) : Nat → DeadlineTree.Tree T →
    DeadlineTree.Tree T → DeadlineTree.Tree T
  | 0, _, fresh => fresh
  | count + 1, old, fresh =>
    let popped := old.popFirst
    match popped.2 with
    | none => fresh
    | some entity =>
      levelEach sliceNs avg count popped.1 (fresh.insert (leveled sliceNs avg entity))

def level : RunQueue T :=
  let avg := queue.avgVruntime
  let sliceNs := queue.config.sliceNs
  { queue with
    curr := queue.curr.map (leveled sliceNs avg)
    tree := levelEach sliceNs avg queue.tree.toList.length queue.tree DeadlineTree.Tree.new
    zero := avg
    sum := 0 }

def detach (entity : Entity T) :
    Option (Nat × T × EntityState) × RunQueue T :=
  let limit := queue.lagLimit entity.weight
  let vlag := max (-limit) (min (queue.lagAt entity.vruntime) limit)
  (entity.payload.map fun payload =>
      (entity.id, payload, ⟨entity.weight, vlag, entity.sumExec⟩),
    (queue.subLoad entity.vruntime entity.weight).normalize)

def removeCurr : Option (Nat × T × EntityState) × RunQueue T :=
  match queue.curr with
  | none => (none, queue)
  | some curr => detach { queue with curr := none } curr

def remove (id : Nat) : Option (T × EntityState) × RunQueue T :=
  if queue.curr.any fun curr => curr.id == id then
    let removed := queue.removeCurr
    (removed.1.map Prod.snd, removed.2)
  else
    match queue.tree.find id with
    | none => (none, queue)
    | some key =>
      let removed := queue.tree.remove key
      let queue := { queue with tree := removed.1 }
      match removed.2 with
      | none => (none, queue)
      | some entity =>
        let detached := queue.detach entity
        (detached.1.map Prod.snd, detached.2)

/-- Count an entity out of the virtual time at `was` and back into it at
`weight`; where it now stands, and when its next request ends. -/
def reweigh (vruntime : BitVec 64) (was weight : Nat) :
    (BitVec 64 × BitVec 64) × RunQueue T :=
  let virtualTime := queue.avgVruntime
  let owed := (queue.lagAt vruntime * was).tdiv weight
  let owed := max (-i64Max - 1) (min owed i64Max)
  let place := virtualTime - BitVec.ofInt 64 owed
  ((place, place + BitVec.ofNat 64 (queue.vslice weight)),
    (queue.subLoad vruntime was).addLoad place weight)

def reweighed (entity : Entity T) (weight : Nat) (place : BitVec 64 × BitVec 64) : Entity T :=
  { entity with weight := weight, vruntime := place.1, deadline := place.2 }

def setCurrWeight (curr : Entity T) (weight : Nat) : RunQueue T :=
  if curr.weight = weight then queue
  else
    let weighed := queue.reweigh curr.vruntime curr.weight weight
    normalize { weighed.2 with curr := some (reweighed curr weight weighed.1) }

def setQueuedWeight (entity : Entity T) (weight : Nat) : RunQueue T :=
  if entity.weight = weight then normalize { queue with tree := queue.tree.insert entity }
  else
    let weighed := queue.reweigh entity.vruntime entity.weight weight
    normalize { weighed.2 with
      tree := weighed.2.tree.insert (reweighed entity weight weighed.1) }

def setWeight (id weight : Nat) : Except SchedError Bool × RunQueue T :=
  if weight = 0 then (.error .zeroWeight, queue)
  else
    match queue.curr.filter fun curr => curr.id == id with
    | some curr => (.ok true, queue.setCurrWeight curr weight)
    | none =>
      match queue.tree.find id with
      | none => (.ok false, queue)
      | some key =>
        let removed := queue.tree.remove key
        let queue := { queue with tree := removed.1 }
        match removed.2 with
        | none => (.ok false, queue)
        | some entity => (.ok true, queue.setQueuedWeight entity weight)

def entities : List (Entity T) :=
  queue.curr.toList ++ queue.tree.toList

def checkSums : Except String Unit :=
  let views := queue.entities.filter fun entity => entity.payload.isSome
  let load := (views.map Entity.weight).sum
  let sum := (views.map fun view => view.weight * queue.relative view.vruntime).sum
  if load ≠ queue.load then
    .error "the queue's load is not the sum of its entities' weights"
  else if sum ≠ queue.sum then
    .error "the queue's weighted sum has drifted from its entities"
  else if queue.load = 0 ∧ queue.sum ≠ 0 then
    .error "an empty queue has a weighted sum"
  else if queue.load ≠ 0 ∧ ¬ (0 ≤ queue.sum ∧ queue.sum < queue.load) then
    .error "the queue's base is not at its virtual time"
  else .ok ()

def checkInvariants : Except String Unit :=
  match queue.tree.check with
  | .error error => .error error
  | .ok counted =>
    if counted ≠ queue.tree.len then
      .error "the tree's count of what is queued is wrong"
    else if (queue.tree.toList.any fun entity => entity.payload.isNone) ||
        (queue.curr.any fun curr => curr.payload.isNone) then
      .error "an entity on the queue has lost its payload"
    else if queue.curr.any fun curr => (queue.tree.find curr.id).isSome then
      .error "the running entity is also queued"
    else queue.checkSums

end RunQueue

end Ferrix.Sched.Eevdf

import Ferrix.Block.Epochs
import Mathlib.Data.Finset.Basic

/-!
Submission, dispatch, completion and requeue over a row of epochs.  Only the oldest epoch's work
goes to the device.
-/

namespace Ferrix.Block.RequestQueue

open Foundations Words SortedMaps Requests Epochs

inductive SubmitError
  | fuaWithoutWrite
  | flushWithRange
  | empty
  | overflow
  | pastCapacity
  | tooLarge
  | duplicateId
  | full
deriving DecidableEq

inductive TokenError
  | neverIssued
  | alreadyFinished
deriving DecidableEq

structure Dispatch where
  token : Nat
  op : Op
  sector : Nat
  count : Nat
  fua : Bool
  parts : List Part
deriving DecidableEq

structure Completion (R : Type) where
  op : Op
  sector : Nat
  count : Nat
  result : R
  parts : List Part

structure InFlight where
  epoch : Nat
  barrier : Bool
  unit : IoUnit

structure Queue where
  limits : Limits
  config : Config
  epochs : List Epoch
  firstEpoch : Nat
  inFlight : SortedMap Nat InFlight
  outstanding : Finset Nat
  queued : Nat
  head : Nat
  plugged : Bool
  nextToken : Nat
  nextKey : Nat
  nextSeq : Nat

def onLast (f : Epoch → Epoch) : List Epoch → List Epoch
  | [] => []
  | [epoch] => [f epoch]
  | epoch :: next :: rest => epoch :: onLast f (next :: rest)

/-- Queues parts under keys that follow one another, each as a unit that never joins again. -/
def insertParts (op : Op) : List Part → Nat → Epoch → Nat × Epoch
  | [], key, epoch => (key, epoch)
  | part :: parts, key, epoch =>
    insertParts op parts (wrappingAdd 64 key 1) (epoch.insert key (.single op part true))

/-- Drops finished epochs from the front, keeping the open one. -/
def retire : List Epoch → Nat → List Epoch × Nat
  | epoch :: next :: rest, first =>
    if epoch.isDone then retire (next :: rest) (wrappingAdd 64 first 1)
    else (epoch :: next :: rest, first)
  | epochs, first => (epochs, first)

namespace Queue

def new (limits : Limits) (config : Config) : Queue where
  limits := limits
  config := config
  epochs := [default]
  firstEpoch := 0
  inFlight := ∅
  outstanding := ∅
  queued := 0
  head := 0
  plugged := false
  nextToken := 0
  nextKey := 0
  nextSeq := 0

variable (queue : Queue)

def plug : Queue := { queue with plugged := true }

def unplug : Queue := { queue with plugged := false }

def parts (token : Nat) : Option (List Part) :=
  (queue.inFlight.get? token).map fun flight => flight.unit.parts

def checkRange (request : Request) : Except SubmitError Unit :=
  if request.count = 0 then .error .empty
  else
    match checkedAdd 64 request.sector request.count with
    | none => .error .overflow
    | some stop =>
      if queue.limits.capacity < stop then .error .pastCapacity
      else if queue.limits.maxSectors < request.count then .error .tooLarge
      else .ok ()

def check (request : Request) : Except SubmitError Unit :=
  if request.flags.fua && request.op ≠ .write then .error .fuaWithoutWrite
  else
    match
      if request.op = .flush then
        if request.sector ≠ 0 || request.count ≠ 0 then .error .flushWithRange else .ok ()
      else queue.checkRange request with
    | .error error => .error error
    | .ok _ =>
      if request.id ∈ queue.outstanding then .error .duplicateId
      else if queue.config.maxRequests ≤ queue.outstanding.card then .error .full
      else .ok ()

def pushUnit (unit : IoUnit) : Queue :=
  { queue with
    nextKey := wrappingAdd 64 queue.nextKey 1
    epochs := onLast (fun epoch => epoch.add queue.nextKey unit queue.limits)
      (if queue.epochs.isEmpty then [default] else queue.epochs) }

/-- Queues a barrier after everything submitted so far: behind the last barrier if nothing came
since, or else as the end of the open epoch. -/
def pushBarrier (unit : IoUnit) : Queue :=
  if queue.epochs.getLast?.all Epoch.isIdle && 2 ≤ queue.epochs.length then
    { queue with
      epochs := queue.epochs.modify (queue.epochs.length - 2)
        fun epoch => epoch.pushBarrier unit queue.limits }
  else
    { queue with
      epochs := onLast (fun epoch => epoch.pushBarrier unit queue.limits) queue.epochs ++
        [default] }

def partOf (now : Nat) (request : Request) : Part where
  id := request.id
  sector := request.sector
  count := request.count
  flags := request.flags
  arrival := now
  deadline := saturatingAdd 64 now (queue.config.expiry request.op request.flags)
  seq := queue.nextSeq

def submit (now : Nat) (request : Request) : Except SubmitError Unit × Queue :=
  match queue.check request with
  | .error error => (.error error, queue)
  | .ok _ =>
    let unit := IoUnit.single request.op (queue.partOf now request) false
    let counted := { queue with
      nextSeq := wrappingAdd 64 queue.nextSeq 1
      outstanding := insert request.id queue.outstanding
      queued := saturatingAdd 64 queue.queued 1 }
    (.ok (), if request.isBarrier then counted.pushBarrier unit else counted.pushUnit unit)

/-- Takes the next unit of the oldest epoch, or its next barrier once nothing of the epoch is
queued or on the device. -/
def takeNext (now : Nat) : Option (IoUnit × Bool) × Queue :=
  match queue.epochs with
  | [] => (none, queue)
  | epoch :: rest =>
    if epoch.hasUnits then
      match epoch.pick queue.head now with
      | none => (none, queue)
      | some key =>
        match epoch.remove key with
        | (none, _) => (none, queue)
        | (some unit, left) =>
          (some (unit, false), { queue with
            epochs := { left with inFlight := saturatingAdd 64 left.inFlight 1 } :: rest })
    else if epoch.inFlight = 0 then
      match epoch.barriers with
      | [] => (none, queue)
      | unit :: barriers =>
        (some (unit, true), { queue with
          epochs := { epoch with
            barriers := barriers
            inFlight := saturatingAdd 64 epoch.inFlight 1 } :: rest })
    else (none, queue)

def launch (token : Nat) (unit : IoUnit) (barrier : Bool) : Queue :=
  { queue with
    nextToken := token + 1
    queued := queue.queued - unit.parts.length
    head := if unit.op = .flush then queue.head else unit.stop
    inFlight := queue.inFlight.insert token ⟨queue.firstEpoch, barrier, unit⟩ }

def dispatch (now : Nat) : Option Dispatch × Queue :=
  if queue.plugged && queue.queued < queue.config.plugThreshold then (none, queue)
  else if queue.limits.queueDepth ≤ queue.inFlight.size then (none, queue)
  else
    match checkedAdd 64 queue.nextToken 1 with
    | none => (none, queue)
    | some _ =>
      match queue.takeNext now with
      | (none, taken) => (none, taken)
      | (some (unit, barrier), taken) =>
        (some ⟨queue.nextToken, unit.op, unit.sector, unit.count, unit.fua, unit.parts⟩,
          taken.launch queue.nextToken unit barrier)

def epochIndex (flight : InFlight) : Nat := flight.epoch - queue.firstEpoch

def takeFlight (token : Nat) : Except TokenError InFlight × Queue :=
  match queue.inFlight.get? token with
  | none => (.error (if token < queue.nextToken then .alreadyFinished else .neverIssued), queue)
  | some flight =>
    (.ok flight, { queue with
      inFlight := queue.inFlight.erase token
      epochs := queue.epochs.modify (queue.epochIndex flight)
        fun epoch => { epoch with inFlight := epoch.inFlight - 1 } })

def settle (parts : List Part) : Queue :=
  { queue with
    outstanding := parts.foldl (fun ids part => ids.erase part.id) queue.outstanding
    epochs := (retire queue.epochs queue.firstEpoch).1
    firstEpoch := (retire queue.epochs queue.firstEpoch).2 }

def complete {R : Type} (queue : Queue) (token : Nat) (result : R) :
    Except TokenError (Completion R) × Queue :=
  match queue.takeFlight token with
  | (.error error, queue) => (.error error, queue)
  | (.ok flight, queue) =>
    (.ok ⟨flight.unit.op, flight.unit.sector, flight.unit.count, result, flight.unit.parts⟩,
      queue.settle flight.unit.parts)

def putBack (flight : InFlight) (epoch : Epoch) : Nat × Epoch :=
  if flight.barrier then
    (queue.nextKey, { epoch with
      barriers := flight.unit.parts.map (fun part => IoUnit.single flight.unit.op part true) ++
        epoch.barriers })
  else insertParts flight.unit.op flight.unit.parts queue.nextKey epoch

def requeue (token : Nat) : Except TokenError Nat × Queue :=
  match queue.takeFlight token with
  | (.error error, queue) => (.error error, queue)
  | (.ok flight, taken) =>
    let counted := { taken with
      queued := saturatingAdd 64 taken.queued flight.unit.parts.length }
    match counted.epochs[counted.epochIndex flight]? with
    | none => (.ok flight.unit.parts.length, counted)
    | some epoch =>
      (.ok flight.unit.parts.length, { counted with
        nextKey := (counted.putBack flight epoch).1
        epochs := counted.epochs.set (counted.epochIndex flight)
          (counted.putBack flight epoch).2 })

end Queue

end Ferrix.Block.RequestQueue

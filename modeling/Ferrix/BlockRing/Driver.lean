import Ferrix.BlockRing.Indices

namespace Ferrix.BlockRing.Driver

open Foundations Words Accesses Layout Indices

inductive Consumed
  | request (submission : Submission)
  | refused (id : BitVec 64) (reason : InvalidSubmission)
deriving DecidableEq

inductive CompleteError
  | corrupt (corruption : Corruption)
  | notHeld
deriving DecidableEq

structure DriverSide where
  layout : RingLayout
  device : Device
  submissions : Consumer
  completions : Producer
  held : Nat
  fault : Option Corruption

namespace DriverSide

def check {α : Type} (side : DriverSide) (result : Except Corruption α) :
    Except Corruption α × DriverSide :=
  match result with
  | .error corruption => (.error corruption, { side with fault := some corruption })
  | .ok value => (.ok value, side)

variable (side : DriverSide)

/-- Writes a completion into the next slot, if the ring has room for it and for what is held. -/
def stage (raw : RawCompletion) (holding : Nat) :
    Code (Except Corruption Unit × DriverSide) := do
  let head : BitVec 32 ← Access.get (Place.head .completions)
  match side.completions.observeHead head with
  | (.error corruption, completions) => return (.error corruption, { side with completions })
  | (.ok occupied, completions) =>
    if side.layout.entries < saturatingAdd 64 occupied.toNat holding then
      return (.error .overcommitted, { side with completions })
    else
      raw.writeTo (side.layout.slot completions.tail)
      return (.ok (), { side with completions := completions.stage })

def consume : Code (Except Corruption (Option Consumed) × DriverSide) :=
  match side.fault with
  | some corruption => return (.error corruption, side)
  | none => do
    let (pending, submissions) ← side.submissions.pending .submissions side.layout.entries
    match { side with submissions }.check pending with
    | (.error corruption, side) => return (.error corruption, side)
    | (.ok pending, side) =>
      if pending = 0 then return (.ok none, side)
      else
        let raw ← RawSubmission.readFrom (side.layout.slot side.submissions.head)
        match checkSubmission raw side.device with
        | .ok request =>
          let submissions ← side.submissions.advance .submissions
          return (.ok (some (.request request)),
            { side with submissions, held := saturatingAdd 64 side.held 1 })
        | .error reason =>
          let (staged, side) ← side.stage ⟨raw.id, 0, Status.refused.raw, 0⟩
            (saturatingAdd 64 side.held 1)
          match side.check staged with
          | (.error corruption, side) => return (.error corruption, side)
          | (.ok _, side) =>
            let submissions ← side.submissions.advance .submissions
            return (.ok (some (.refused raw.id reason)), { side with submissions })

def completeTimed (id : BitVec 64) (status : Status) (bytesDone : BitVec 64)
    (deviceTicks : BitVec 32) : Code (Except CompleteError Unit × DriverSide) :=
  match side.fault with
  | some corruption => return (.error (.corrupt corruption), side)
  | none =>
    if side.held = 0 then return (.error .notHeld, side)
    else do
      let (staged, side) ← side.stage ⟨id, bytesDone, status.raw, deviceTicks⟩ side.held
      match side.check staged with
      | (.error corruption, side) => return (.error (.corrupt corruption), side)
      | (.ok _, side) => return (.ok (), { side with held := side.held - 1 })

def complete (id : BitVec 64) (status : Status) (bytesDone : BitVec 64) :
    Code (Except CompleteError Unit × DriverSide) := side.completeTimed id status bytesDone 0

def publish : Code (Option Doorbell × DriverSide) :=
  match side.fault with
  | some _ => return (none, side)
  | none => do
    let (bell, completions) ← side.completions.publish .completions
    return (bell, { side with completions })

def prepareToSleep : Code (Except Corruption Wait × DriverSide) :=
  match side.fault with
  | some corruption => return (.error corruption, side)
  | none => do
    let (wait, submissions) ← side.submissions.prepareToSleep .submissions side.layout.entries
    return { side with submissions }.check wait

def woke : Code DriverSide :=
  match side.fault with
  | some _ => return side
  | none => do
    let submissions ← side.submissions.woke .submissions
    return { side with submissions }

end DriverSide

end Ferrix.BlockRing.Driver

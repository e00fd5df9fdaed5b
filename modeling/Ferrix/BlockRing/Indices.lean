import Ferrix.BlockRing.Layout

/-!
What both sides do alike: their private indices, the checks on an index read from the peer, and
the handshake about the bell.
-/

namespace Ferrix.BlockRing.Indices

open Foundations.Accesses Layout

inductive Corruption
  | tailOverrun
  | tailBackwards
  | headOutOfRange
  | unknownId
  | unknownStatus
  | bytesDoneTooLarge
  | overcommitted
deriving DecidableEq

inductive Wait
  | sleep
  | pending (count : BitVec 32)
deriving DecidableEq

def WANT_BELL : BitVec 32 := 1

structure Doorbell where
  ring : Ring
  tail : BitVec 32
deriving DecidableEq

structure Consumer where
  head : BitVec 32
  observedTail : BitVec 32
  wantBell : Bool
deriving DecidableEq

namespace Consumer

variable (consumer : Consumer)

def observe (tail : BitVec 32) (entries : Nat) :
    Except Corruption (BitVec 32) × Consumer :=
  let pending := tail - consumer.head
  if entries < pending.toNat then (.error .tailOverrun, consumer)
  else if pending < consumer.observedTail - consumer.head then (.error .tailBackwards, consumer)
  else (.ok pending, { consumer with observedTail := tail })

def pending (ring : Ring) (entries : Nat) :
    Code (Except Corruption (BitVec 32) × Consumer) := do
  let tail : BitVec 32 ← Access.get (Place.tail ring)
  return consumer.observe tail entries

def advance (ring : Ring) : Code Consumer := do
  Access.put (Place.head ring) (consumer.head + 1 : BitVec 32)
  return { consumer with head := consumer.head + 1 }

def setWantBell (ring : Ring) (on : Bool) : Code Consumer := do
  Access.put (Place.wantBell ring) (if on then 1 else 0)
  return { consumer with wantBell := on }

/-- Asks for a bell and then looks once more. -/
def prepareToSleep (ring : Ring) (entries : Nat) :
    Code (Except Corruption Wait × Consumer) := do
  let consumer ← consumer.setWantBell ring true
  Access.fence
  match ← consumer.pending ring entries with
  | (.error corruption, consumer) => return (.error corruption, consumer)
  | (.ok pending, consumer) =>
    if pending = 0 then return (.ok .sleep, consumer)
    else
      let consumer ← consumer.setWantBell ring false
      return (.ok (.pending pending), consumer)

def woke (ring : Ring) : Code Consumer := consumer.setWantBell ring false

end Consumer

structure Producer where
  tail : BitVec 32
  published : BitVec 32
  observedHead : BitVec 32
deriving DecidableEq

namespace Producer

def stage (producer : Producer) : Producer := { producer with tail := producer.tail + 1 }

/-- Accepts a head or says why it is impossible; answers how many entries lie between it and the
tail. -/
def observeHead (producer : Producer) (head : BitVec 32) :
    Except Corruption (BitVec 32) × Producer :=
  if producer.published - producer.observedHead < producer.published - head then
    (.error .headOutOfRange, producer)
  else (.ok (producer.tail - head), { producer with observedHead := head })

def publish (producer : Producer) (ring : Ring) : Code (Option Doorbell × Producer) :=
  if producer.tail = producer.published then return (none, producer)
  else do
    Access.put (Place.tail ring) producer.tail
    Access.fence
    let want : BitVec 32 ← Access.get (Place.wantBell ring)
    return (if want = WANT_BELL then some ⟨ring, producer.tail⟩ else none,
      { producer with published := producer.tail })

end Producer

end Ferrix.BlockRing.Indices

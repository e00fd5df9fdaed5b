import Ferrix.BlockRing.Indices
import Ferrix.Foundations.OpenAddressing

/-!
The kernel's end: it produces submissions and consumes completions, and remembers every
submission until its completion is consumed or the ring ends.
-/

namespace Ferrix.BlockRing.Kernel

open Foundations.OpenAddressing Layout Indices List Function

inductive SubmitError
  | corrupt (corruption : Corruption)
  | notRunning
  | full
  | duplicateId
  | invalid (reason : InvalidSubmission)
deriving DecidableEq

structure Completed where
  submission : Submission
  status : Status
  bytesDone : BitVec 64
  deviceTicks : BitVec 32
deriving DecidableEq

inductive Ending
  | stopped
  | driverDied
deriving DecidableEq

inductive EndReason
  | stopped
  | driverDied
  | corrupt (corruption : Corruption)
deriving DecidableEq

inductive Phase
  | running
  | stopping
  | ended (reason : EndReason)
  | resetConfirmed (reason : EndReason)
deriving DecidableEq

namespace Phase

def corruption : Phase → Option Corruption
  | .ended (.corrupt corruption) | .resetConfirmed (.corrupt corruption) => some corruption
  | _ => none

def isLive : Phase → Bool
  | .running | .stopping => true
  | _ => false

end Phase

lemma corruption_of_live {phase : Phase} (hlive : phase.isLive = true) :
    phase.corruption = none := by
  cases phase <;> first | rfl | cases hlive

inductive DataVmo
  | inUse
  | heldUntilReset
  | releasable
deriving DecidableEq

def keyOf (submission : Submission) : Nat := submission.id.toNat

structure Table (n : Nat) where
  slots : Fin n → Option Submission
  len : Nat
  limit : Nat

namespace Table

variable {n : Nat} [NeZero n]

def new (n limit : Nat) : Table n := ⟨fun _ => none, 0, min limit n⟩

def position (table : Table n) (id : BitVec 64) : Option (Fin n) :=
  match probe keyOf table.slots id.toNat with
  | .held place => some place
  | .vacant _ | .exhausted => none

def find (table : Table n) (id : BitVec 64) : Option Submission :=
  (table.position id).bind table.slots

def insert (table : Table n) (submission : Submission) : Except SubmitError (Table n) :=
  if table.limit ≤ table.len then .error .full
  else
    match probe keyOf table.slots submission.id.toNat with
    | .vacant place => .ok { table with
        slots := update table.slots place (some submission)
        len := table.len + 1 }
    | .held _ => .error .duplicateId
    | .exhausted => .error .full

def remove (table : Table n) (id : BitVec 64) : Option Submission × Table n :=
  match table.position id with
  | none => (none, table)
  | some place =>
    (table.slots place, { table with
      slots := vacate keyOf table.slots place
      len := table.len - 1 })

/-- The next entry at or after a slot is taken out; the walk goes on behind it. -/
def drainNext (table : Table n) : (start fuel : Nat) → Option Submission × Nat × Table n
  | start, 0 => (none, start, table)
  | start, fuel + 1 =>
    if h : start < n then
      match table.slots ⟨start, h⟩ with
      | some submission =>
        (some submission, start + 1, { table with
          slots := update table.slots ⟨start, h⟩ none
          len := table.len - 1 })
      | none => table.drainNext (start + 1) fuel
    else (none, start, table)

structure Kept (table : Table n) : Prop where
  sound : Sound keyOf table.slots
  counted : table.len = (contents table.slots).length
  limited : table.limit ≤ n

variable {table table' : Table n} {sub : Submission} {id : BitVec 64}

lemma new_kept (limit : Nat) : (new n limit).Kept := by
  refine ⟨⟨?_, 0, ?_⟩, ?_, min_le_right _ _⟩
  · intro p q v w hp
    cases hp
  · intro p v hp
    cases hp
  · rw [show (new n limit).slots = fun _ => none from rfl, contents_empty]
    rfl

lemma find_eq_some (hkept : table.Kept) : table.find id = some sub ↔
    sub ∈ contents table.slots ∧ sub.id = id := by
  rw [mem_contents]
  constructor
  · intro hfind
    have htells := probe_tells keyOf table.slots id.toNat
    rw [find, position] at hfind
    cases hprobe : probe keyOf table.slots id.toNat with
    | vacant p => simp [hprobe] at hfind
    | exhausted => simp [hprobe] at hfind
    | held p =>
      rw [hprobe] at hfind htells
      obtain ⟨held, hh, hk⟩ := htells
      rw [show (some p).bind table.slots = table.slots p from rfl, hh] at hfind
      cases hfind
      exact ⟨⟨p, hh⟩, BitVec.toNat_inj.mp hk⟩
  · rintro ⟨⟨p, hp⟩, rfl⟩
    have hprobe : probe keyOf table.slots sub.id.toNat = .held p :=
      probe_of_mem hkept.sound hp
    rw [find, position, hprobe]
    exact hp

lemma insert_ok (hkept : table.Kept) (hinsert : table.insert sub = .ok table') :
    table'.Kept ∧ (contents table'.slots).Perm (sub :: contents table.slots) ∧
      table.len < table.limit ∧ table'.limit = table.limit ∧
      ∀ other ∈ contents table.slots, other.id ≠ sub.id := by
  rw [insert] at hinsert
  split_ifs at hinsert with hfull
  cases hprobe : probe keyOf table.slots sub.id.toNat with
  | held place => simp [hprobe] at hinsert
  | exhausted => simp [hprobe] at hinsert
  | vacant place =>
    rw [hprobe] at hinsert
    cases hinsert
    have htells := probe_tells keyOf table.slots sub.id.toNat
    rw [hprobe] at htells
    obtain ⟨cut, hpacked⟩ := hkept.sound.packed
    have hperm := contents_fill sub htells.1
    refine ⟨⟨hkept.sound.insert hprobe, ?_, hkept.limited⟩, hperm, not_le.mp hfull, rfl, ?_⟩
    · rw [hperm.length_eq, length_cons, hkept.counted]
    · intro other ho heq
      obtain ⟨p, hp⟩ := mem_contents.mp ho
      exact absent_of_vacant hpacked htells hp (congrArg BitVec.toNat heq)

lemma remove_found (hkept : table.Kept) (hfind : table.find id = some sub) :
    (table.remove id).2.Kept ∧
      (contents table.slots).Perm (sub :: contents (table.remove id).2.slots) ∧
      (table.remove id).2.limit = table.limit := by
  rw [find] at hfind
  rw [remove]
  cases hposition : table.position id with
  | none => simp [hposition] at hfind
  | some p =>
    rw [hposition] at hfind
    obtain ⟨h, hperm⟩ := vacate_spec hkept.sound hfind
    refine ⟨⟨h, ?_, hkept.limited⟩, hperm, rfl⟩
    have hlen := hperm.length_eq
    rw [length_cons, ← hkept.counted] at hlen
    change table.len - 1 = (contents (vacate keyOf table.slots p)).length
    omega

end Table

/-- The kernel's end of one ring, whose outstanding submissions fit `n` slots. -/
structure KernelSide (n : Nat) where
  layout : RingLayout
  device : Device
  submissions : Producer
  completions : Consumer
  table : Table n
  phase : Phase

namespace KernelSide

variable {n : Nat} [NeZero n]

variable (side : KernelSide n)

def corruption : Option Corruption := side.phase.corruption

def dataVmo : DataVmo :=
  match side.phase with
  | .running | .stopping => .inUse
  | .ended _ => .heldUntilReset
  | .resetConfirmed _ => .releasable

def check {α : Type} (side : KernelSide n) (result : Except Corruption α) :
    Except Corruption α × KernelSide n :=
  match result with
  | .error corruption => (.error corruption, { side with phase := .ended (.corrupt corruption) })
  | .ok value => (.ok value, side)

def submit (submission : Submission) :
    Code (Except SubmitError Unit × KernelSide n) :=
  match side.phase.corruption with
  | some corruption => return (.error (.corrupt corruption), side)
  | none =>
    if side.phase ≠ .running then return (.error .notRunning, side)
    else
      match checkSubmission submission.raw side.device with
      | .error reason => return (.error (.invalid reason), side)
      | .ok checked =>
        match side.table.insert checked with
        | .error error => return (.error error, side)
        | .ok table => do
          submission.raw.writeTo (side.layout.slot side.submissions.tail)
          return (.ok (), { side with table, submissions := side.submissions.stage })

def publish : Code (Option Doorbell × KernelSide n) :=
  if side.phase.isLive then do
    let (bell, submissions) ← side.submissions.publish .submissions
    return (bell, { side with submissions })
  else return (none, side)

/-- Every check on a completion, against the copy of it. -/
def judge (raw : RawCompletion) : Except Corruption Completed :=
  match side.table.find raw.id with
  | none => .error .unknownId
  | some submission =>
    match Status.fromRaw raw.status with
    | none => .error .unknownStatus
    | some status =>
      let len := side.device.payloadLen submission.count
      if len < raw.bytesDone.toNat then .error .bytesDoneTooLarge
      else
        let shortWrite := submission.op ≠ .read && raw.bytesDone.toNat < len
        .ok ⟨submission, if status = .ok && shortWrite then .ioError else status,
          raw.bytesDone, raw.deviceTicks⟩

def poll : Code (Except Corruption (Option Completed) × KernelSide n) :=
  if side.phase.isLive then do
    let (pending, completions) ← side.completions.pending .completions side.layout.entries
    match { side with completions }.check pending with
    | (.error corruption, side) => return (.error corruption, side)
    | (.ok pending, side) =>
      if pending = 0 then return (.ok none, side)
      else
        let raw ← RawCompletion.readFrom (side.layout.slot side.completions.head)
        match side.check (side.judge raw) with
        | (.error corruption, side) => return (.error corruption, side)
        | (.ok completed, side) =>
          let completions ← side.completions.advance .completions
          return (.ok (some completed),
            { side with completions, table := (side.table.remove raw.id).2 })
  else
    match side.phase.corruption with
    | some corruption => return (.error corruption, side)
    | none => return (.ok none, side)

def prepareToSleep : Code (Except Corruption Wait × KernelSide n) :=
  if side.phase.isLive then do
    let (wait, completions) ← side.completions.prepareToSleep .completions side.layout.entries
    return { side with completions }.check wait
  else
    match side.phase.corruption with
    | some corruption => return (.error corruption, side)
    | none => return (.ok .sleep, side)

def woke : Code (KernelSide n) :=
  if side.phase.isLive then do
    let completions ← side.completions.woke .completions
    return { side with completions }
  else return side

def stop : KernelSide n :=
  if side.phase = .running then { side with phase := .stopping } else side

def finish (ending : Ending) : KernelSide n :=
  if side.phase.isLive then
    { side with
      phase := .ended (match ending with
        | .stopped => .stopped
        | .driverDied => .driverDied) }
  else side

def drain (table : Table n) (start : Nat) : Nat → List Submission × Table n
  | 0 => ([], table)
  | count + 1 =>
    match table.drainNext start n with
    | (none, _, table) => ([], table)
    | (some submission, start, table) =>
      let (rest, table) := drain table start count
      (submission :: rest, table)

def confirmReset : Bool × KernelSide n :=
  match side.phase with
  | .ended reason | .resetConfirmed reason =>
    (true, { side with phase := .resetConfirmed reason })
  | .running | .stopping => (false, side)

end KernelSide

variable {n start : Nat} {table table' : Table n}

def Table.Cleared (table : Table n) (start : Nat) : Prop :=
  ∀ p : Fin n, p.val < start → table.slots p = none

lemma Table.contents_eq_nil (hcleared : table.Cleared n) : contents table.slots = [] := by
  rw [eq_nil_iff_forall_not_mem]
  intro sub hm
  obtain ⟨p, hp⟩ := mem_contents.mp hm
  rw [hcleared p p.isLt] at hp
  cases hp

lemma Table.drainNext_none {fuel stop : Nat}
    (hdrain : table.drainNext start fuel = (none, stop, table')) :
    table' = table ∧ (table.Cleared start → n ≤ start + fuel → table.Cleared n) := by
  induction fuel generalizing start with
  | zero =>
    cases hdrain
    exact ⟨rfl, fun hcleared hle p hp => hcleared p (by omega)⟩
  | succ fuel ih =>
    rw [drainNext] at hdrain
    split_ifs at hdrain with hstart
    · cases hslot : table.slots ⟨start, hstart⟩ with
      | some sub => simp [hslot] at hdrain
      | none =>
        rw [hslot] at hdrain
        obtain ⟨hsame, hr⟩ := ih hdrain
        refine ⟨hsame, fun hcleared hle => hr (fun p hp => ?_) (by omega)⟩
        rcases Nat.lt_succ_iff_lt_or_eq.mp hp with hp | hp
        · exact hcleared p hp
        · rw [show p = ⟨start, hstart⟩ from Fin.ext hp, hslot]
    · cases hdrain
      exact ⟨rfl, fun hcleared _ p hp => hcleared p (by omega)⟩

lemma Table.drainNext_some {fuel stop : Nat} {sub : Submission}
    (hdrain : table.drainNext start fuel = (some sub, stop, table')) :
    (contents table.slots).Perm (sub :: contents table'.slots) ∧
      (table.Cleared start → table'.Cleared stop) := by
  induction fuel generalizing start with
  | zero => cases hdrain
  | succ fuel ih =>
    rw [drainNext] at hdrain
    split_ifs at hdrain with hstart
    · cases hslot : table.slots ⟨start, hstart⟩ with
      | none =>
        rw [hslot] at hdrain
        obtain ⟨hperm, hr⟩ := ih hdrain
        refine ⟨hperm, fun hcleared => hr fun p hp => ?_⟩
        rcases Nat.lt_succ_iff_lt_or_eq.mp hp with hp | hp
        · exact hcleared p hp
        · rw [show p = ⟨start, hstart⟩ from Fin.ext hp, hslot]
      | some found =>
        rw [hslot] at hdrain
        cases hdrain
        refine ⟨contents_clear hslot, fun hcleared p hp => ?_⟩
        change update table.slots ⟨start, hstart⟩ none p = none
        rw [update_apply]
        split_ifs with hsame
        · rfl
        · have hne : p.val ≠ start := fun h => hsame (Fin.ext h)
          exact hcleared p (by omega)
    · cases hdrain

lemma KernelSide.drain_perm (table : Table n) (start count : Nat) : (contents table.slots).Perm
      ((drain table start count).1 ++ contents (drain table start count).2.slots) := by
  induction count generalizing table start with
  | zero => exact List.Perm.refl _
  | succ count ih =>
    rw [drain]
    rcases hn : table.drainNext start n with ⟨_ | sub, stop, l⟩
    · rw [(Table.drainNext_none hn).1]
      exact List.Perm.refl _
    · exact (Table.drainNext_some hn).1.trans ((ih l stop).cons _)

lemma KernelSide.drain_all {count : Nat} (hcleared : table.Cleared start)
    (hcount : (contents table.slots).length ≤ count) :
    contents (drain table start count).2.slots = [] := by
  induction count generalizing table start with
  | zero => exact length_eq_zero_iff.mp (Nat.le_zero.mp hcount)
  | succ count ih =>
    rw [drain]
    rcases hn : table.drainNext start n with ⟨_ | sub, stop, l⟩
    · obtain ⟨rfl, hall⟩ := Table.drainNext_none hn
      exact Table.contents_eq_nil (hall hcleared (Nat.le_add_left _ _))
    · obtain ⟨hperm, hr⟩ := Table.drainNext_some hn
      refine ih (hr hcleared) ?_
      have hlen := hperm.length_eq
      rw [length_cons] at hlen
      omega

end Ferrix.BlockRing.Kernel

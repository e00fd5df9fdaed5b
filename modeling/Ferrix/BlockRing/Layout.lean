import Ferrix.Foundations.Accesses
import Ferrix.Foundations.Words

/-!
Entries as the two sides mean them and as the ring holds them, the device they are checked against,
and the fields of the shared memory with the bytes they take.
-/

namespace Ferrix.BlockRing.Layout

open Foundations Words Accesses

inductive Op
  | read
  | write
  | flush
deriving DecidableEq

namespace Op

def fromRaw (raw : BitVec 8) : Option Op :=
  if raw = 1 then some .read else if raw = 2 then some .write
  else if raw = 3 then some .flush else none

def raw : Op → BitVec 8
  | .read => 1
  | .write => 2
  | .flush => 3

@[simp] theorem fromRaw_raw (op : Op) : fromRaw op.raw = some op := by
  cases op <;> rfl

end Op

inductive Status
  | ok
  | ioError
  | unsupported
  | refused
  | readOnly
deriving DecidableEq

namespace Status

def fromRaw (raw : BitVec 32) : Option Status :=
  if raw = 0 then some .ok
  else if raw = 1 then some .ioError
  else if raw = 2 then some .unsupported
  else if raw = 3 then some .refused
  else if raw = 4 then some .readOnly
  else none

def raw : Status → BitVec 32
  | .ok => 0
  | .ioError => 1
  | .unsupported => 2
  | .refused => 3
  | .readOnly => 4

end Status

structure Submission where
  id : BitVec 64
  op : Op
  sector : BitVec 64
  count : BitVec 32
  dataOffset : BitVec 64
  fua : Bool
deriving DecidableEq

structure RawSubmission where
  id : BitVec 64
  sector : BitVec 64
  dataOffset : BitVec 64
  count : BitVec 32
  op : BitVec 8
  flags : BitVec 8
  reserved : BitVec 16
deriving DecidableEq

structure RawCompletion where
  id : BitVec 64
  bytesDone : BitVec 64
  status : BitVec 32
  deviceTicks : BitVec 32
deriving DecidableEq

def FLAG_FUA : BitVec 8 := 1

namespace Submission

def ranged (id : BitVec 64) (op : Op) (sector : BitVec 64) (count : BitVec 32)
    (dataOffset : BitVec 64) : Submission := ⟨id, op, sector, count, dataOffset, false⟩

def flush (id : BitVec 64) : Submission := ranged id .flush 0 0 0

def raw (submission : Submission) : RawSubmission where
  id := submission.id
  sector := submission.sector
  dataOffset := submission.dataOffset
  count := submission.count
  op := submission.op.raw
  flags := if submission.fua then FLAG_FUA else 0
  reserved := 0

end Submission

def MIN_BLOCK_SIZE : Nat := 512

def MAX_BLOCK_SIZE : Nat := 65536

abbrev DeviceFlags := BitVec 32

namespace DeviceFlags

def FUA : DeviceFlags := 4

def KNOWN : DeviceFlags := 7

def contains (flags other : DeviceFlags) : Bool := flags &&& other = other

end DeviceFlags

inductive DeviceError
  | blockSize
  | noSectors
  | unknownFlags
  | dataTooSmall
deriving DecidableEq

structure Device where
  blockSize : BitVec 32
  capacity : BitVec 64
  maxSectors : BitVec 32
  flags : DeviceFlags
  dataVmoSize : BitVec 64
  isBlockSize : blockSize.toNat = 2 ^ blockSize.toNat.log2 ∧ MIN_BLOCK_SIZE ≤ blockSize.toNat ∧
    blockSize.toNat ≤ MAX_BLOCK_SIZE
  hasSectors : maxSectors ≠ 0
  isKnown : flags &&& ~~~DeviceFlags.KNOWN = 0
  holdsLargest : maxSectors.toNat * blockSize.toNat ≤ dataVmoSize.toNat

namespace Device

def new (blockSize : BitVec 32) (capacity : BitVec 64) (maxSectors : BitVec 32)
    (flags : DeviceFlags) (dataVmoSize : BitVec 64) : Except DeviceError Device :=
  if hblock : blockSize.toNat = 2 ^ blockSize.toNat.log2 ∧ MIN_BLOCK_SIZE ≤ blockSize.toNat ∧
      blockSize.toNat ≤ MAX_BLOCK_SIZE then
    if hsectors : maxSectors ≠ 0 then
      if hflags : flags &&& ~~~DeviceFlags.KNOWN = 0 then
        if hdata : maxSectors.toNat * blockSize.toNat ≤ dataVmoSize.toNat then
          .ok ⟨blockSize, capacity, maxSectors, flags, dataVmoSize, hblock, hsectors, hflags, hdata⟩
        else .error .dataTooSmall
      else .error .unknownFlags
    else .error .noSectors
  else .error .blockSize

def payloadLen (device : Device) (count : BitVec 32) : Nat := count.toNat * device.blockSize.toNat

end Device

inductive InvalidSubmission
  | unknownOp
  | reservedNotZero
  | unknownFlags
  | fuaNotAllowed
  | empty
  | flushWithCount
  | tooManySectors
  | pastCapacity
  | outsideDataVmo
deriving DecidableEq

def regionInDataVmo (dataOffset len dataVmoSize : Nat) : Bool :=
  (checkedAdd 64 dataOffset len).any fun stop => stop ≤ dataVmoSize

def checkCount (op : Op) (count : BitVec 32) : Except InvalidSubmission Unit :=
  match op with
  | .flush => if count = 0 then .ok () else .error .flushWithCount
  | .read | .write => if count = 0 then .error .empty else .ok ()

def checkSubmission (raw : RawSubmission) (device : Device) :
    Except InvalidSubmission Submission :=
  match Op.fromRaw raw.op with
  | none => .error .unknownOp
  | some op =>
    let fua := decide (raw.flags &&& FLAG_FUA ≠ 0)
    if raw.reserved ≠ 0 then .error .reservedNotZero
    else if raw.flags &&& ~~~FLAG_FUA ≠ 0 then .error .unknownFlags
    else if fua && (op ≠ .write || !device.flags.contains DeviceFlags.FUA) then
      .error .fuaNotAllowed
    else
      match checkCount op raw.count with
      | .error reason => .error reason
      | .ok _ =>
        if device.maxSectors.toNat < raw.count.toNat then .error .tooManySectors
        else if !(checkedAdd 64 raw.sector.toNat raw.count.toNat).any
            fun stop => stop ≤ device.capacity.toNat then .error .pastCapacity
        else if !regionInDataVmo raw.dataOffset.toNat (device.payloadLen raw.count)
            device.dataVmoSize.toNat then .error .outsideDataVmo
        else .ok ⟨raw.id, op, raw.sector, raw.count, raw.dataOffset, fua⟩

lemma checkSubmission_raw {submission checked : Submission} {device : Device}
    (hcheck : checkSubmission submission.raw device = .ok checked) : checked = submission := by
  have hfua : decide (submission.raw.flags &&& FLAG_FUA ≠ 0) = submission.fua := by
    cases h : submission.fua <;> simp [Submission.raw, h, FLAG_FUA]
  rw [checkSubmission, show Op.fromRaw submission.raw.op = some submission.op from
    Op.fromRaw_raw submission.op] at hcheck
  dsimp only at hcheck
  rw [hfua] at hcheck
  cases hn : checkCount submission.op submission.raw.count with
  | error reason =>
    rw [hn] at hcheck
    split_ifs at hcheck
  | ok _ =>
    rw [hn] at hcheck
    split_ifs at hcheck
    cases hcheck
    rfl

inductive Ring
  | submissions
  | completions
deriving DecidableEq

inductive SubmissionField
  | id
  | sector
  | dataOffset
  | count
  | op
  | flags
  | reserved
deriving DecidableEq

inductive CompletionField
  | id
  | bytesDone
  | status
  | deviceTicks
deriving DecidableEq

/-- A field of the shared memory that is read or written at once. -/
inductive Place
  | tail (ring : Ring)
  | head (ring : Ring)
  | wantBell (ring : Ring)
  | submission (slot : Nat) (field : SubmissionField)
  | completion (slot : Nat) (field : CompletionField)
deriving DecidableEq

def SubmissionField.bytes : SubmissionField → Nat
  | .id | .sector | .dataOffset => 8
  | .count => 4
  | .op | .flags => 1
  | .reserved => 2

def CompletionField.bytes : CompletionField → Nat
  | .id | .bytesDone => 8
  | .status | .deviceTicks => 4

def Place.bytes : Place → Nat
  | .tail _ | .head _ | .wantBell _ => 4
  | .submission _ field => field.bytes
  | .completion _ field => field.bytes

abbrev SubmissionField.Word : SubmissionField → Type
  | .id | .sector | .dataOffset => BitVec 64
  | .count => BitVec 32
  | .op | .flags => BitVec 8
  | .reserved => BitVec 16

abbrev CompletionField.Word : CompletionField → Type
  | .id | .bytesDone => BitVec 64
  | .status | .deviceTicks => BitVec 32

abbrev Word : Place → Type
  | .tail _ | .head _ | .wantBell _ => BitVec 32
  | .submission _ field => field.Word
  | .completion _ field => field.Word

abbrev Code := Access Place Word

def RawSubmission.readFrom (slot : Nat) : Code RawSubmission := do
  let id ← Access.get (Place.submission slot .id)
  let sector ← Access.get (Place.submission slot .sector)
  let dataOffset ← Access.get (Place.submission slot .dataOffset)
  let count ← Access.get (Place.submission slot .count)
  let op ← Access.get (Place.submission slot .op)
  let flags ← Access.get (Place.submission slot .flags)
  let reserved ← Access.get (Place.submission slot .reserved)
  return ⟨id, sector, dataOffset, count, op, flags, reserved⟩

def RawSubmission.words (raw : RawSubmission) (slot : Nat) : List ((place : Place) × Word place) :=
  [⟨.submission slot .id, raw.id⟩, ⟨.submission slot .sector, raw.sector⟩,
    ⟨.submission slot .dataOffset, raw.dataOffset⟩, ⟨.submission slot .count, raw.count⟩,
    ⟨.submission slot .op, raw.op⟩, ⟨.submission slot .flags, raw.flags⟩,
    ⟨.submission slot .reserved, raw.reserved⟩]

def RawSubmission.writeTo (raw : RawSubmission) (slot : Nat) : Code Unit :=
  Access.puts (raw.words slot)

def RawCompletion.readFrom (slot : Nat) : Code RawCompletion := do
  let id ← Access.get (Place.completion slot .id)
  let bytesDone ← Access.get (Place.completion slot .bytesDone)
  let status ← Access.get (Place.completion slot .status)
  let deviceTicks ← Access.get (Place.completion slot .deviceTicks)
  return ⟨id, bytesDone, status, deviceTicks⟩

def RawCompletion.words (raw : RawCompletion) (slot : Nat) : List ((place : Place) × Word place) :=
  [⟨.completion slot .id, raw.id⟩, ⟨.completion slot .bytesDone, raw.bytesDone⟩,
    ⟨.completion slot .status, raw.status⟩, ⟨.completion slot .deviceTicks, raw.deviceTicks⟩]

def RawCompletion.writeTo (raw : RawCompletion) (slot : Nat) : Code Unit :=
  Access.puts (raw.words slot)

def HEADER_BYTES : Nat := 64

def SUBMISSION_BYTES : Nat := 32

def COMPLETION_BYTES : Nat := 24

def MIN_ENTRIES : Nat := 2

def MAX_ENTRIES : Nat := 4096

inductive HeaderError
  | badEntries
  | overlapsHeader
  | outsideRing
  | arraysOverlap
deriving DecidableEq

structure RingLayout where
  entries : Nat
  subOffset : Nat
  compOffset : Nat
  inRange : MIN_ENTRIES ≤ entries ∧ entries ≤ MAX_ENTRIES ∧ entries = 2 ^ entries.log2
  pastHeader : HEADER_BYTES ≤ subOffset ∧ HEADER_BYTES ≤ compOffset
  apart : ¬(subOffset < compOffset + entries * COMPLETION_BYTES ∧
    compOffset < subOffset + entries * SUBMISSION_BYTES)

namespace RingLayout

def new (entries subOffset compOffset : BitVec 32) (ringBytes : BitVec 64) :
    Except HeaderError RingLayout :=
  if hentries : MIN_ENTRIES ≤ entries.toNat ∧ entries.toNat ≤ MAX_ENTRIES ∧
      entries.toNat = 2 ^ entries.toNat.log2 then
    if hheader : HEADER_BYTES ≤ subOffset.toNat ∧ HEADER_BYTES ≤ compOffset.toNat then
      let subEnd := subOffset.toNat + entries.toNat * SUBMISSION_BYTES
      let compEnd := compOffset.toNat + entries.toNat * COMPLETION_BYTES
      if ringBytes.toNat < max subEnd compEnd then .error .outsideRing
      else if hapart : subOffset.toNat < compEnd ∧ compOffset.toNat < subEnd then
        .error .arraysOverlap
      else .ok ⟨entries.toNat, subOffset.toNat, compOffset.toNat, hentries, hheader, hapart⟩
    else .error .overlapsHeader
  else .error .badEntries

def slot (layout : RingLayout) (index : BitVec 32) : Nat :=
  (index &&& BitVec.ofNat 32 (layout.entries - 1)).toNat

lemma entries_pos (layout : RingLayout) : 0 < layout.entries :=
  Nat.lt_of_lt_of_le (by decide) layout.inRange.1

lemma entries_dvd (layout : RingLayout) : layout.entries ∣ 2 ^ 32 := by
  obtain ⟨-, hle, hpow⟩ := layout.inRange
  rw [hpow]
  refine Nat.pow_dvd_pow 2 ?_
  have hlog : layout.entries.log2 < 32 :=
    (Nat.log2_lt layout.entries_pos.ne').mpr (hle.trans_lt (by decide))
  exact hlog.le

lemma slot_ofNat (layout : RingLayout) (n : Nat) :
    layout.slot (BitVec.ofNat 32 n) = n % layout.entries := by
  obtain ⟨hlow, hhigh, hpow⟩ := layout.inRange
  have hlt : layout.entries - 1 < 2 ^ 32 := by
    have : MAX_ENTRIES < 2 ^ 32 := by decide
    omega
  rw [slot, BitVec.toNat_and, BitVec.toNat_ofNat, BitVec.toNat_ofNat, Nat.mod_eq_of_lt hlt]
  rw [hpow, Nat.and_two_pow_sub_one_eq_mod, ← hpow, Nat.mod_mod_of_dvd _ layout.entries_dvd]

end RingLayout

def SubmissionField.offset : SubmissionField → Nat
  | .id => 0
  | .sector => 8
  | .dataOffset => 16
  | .count => 24
  | .op => 28
  | .flags => 29
  | .reserved => 30

def CompletionField.offset : CompletionField → Nat
  | .id => 0
  | .bytesDone => 8
  | .status => 16
  | .deviceTicks => 20

def Place.offset (layout : RingLayout) : Place → Nat
  | .tail .submissions => 20
  | .head .submissions => 24
  | .tail .completions => 28
  | .head .completions => 32
  | .wantBell .submissions => 36
  | .wantBell .completions => 40
  | .submission slot field => layout.subOffset + slot * SUBMISSION_BYTES + field.offset
  | .completion slot field => layout.compOffset + slot * COMPLETION_BYTES + field.offset

def Place.Within (layout : RingLayout) : Place → Prop
  | .tail _ | .head _ | .wantBell _ => True
  | .submission slot _ | .completion slot _ => slot < layout.entries

lemma SubmissionField.apart {field other : SubmissionField} (hne : field ≠ other) :
    field.offset + field.bytes ≤ other.offset ∨ other.offset + other.bytes ≤ field.offset := by
  cases field <;> cases other <;> simp_all [offset, bytes]

lemma CompletionField.apart {field other : CompletionField} (hne : field ≠ other) :
    field.offset + field.bytes ≤ other.offset ∨ other.offset + other.bytes ≤ field.offset := by
  cases field <;> cases other <;> simp_all [offset, bytes]

lemma SubmissionField.end_le (field : SubmissionField) :
    field.offset + field.bytes ≤ SUBMISSION_BYTES := by
  cases field <;> decide

lemma CompletionField.end_le (field : CompletionField) :
    field.offset + field.bytes ≤ COMPLETION_BYTES := by
  cases field <;> decide

def Place.region (layout : RingLayout) : Place → Nat × Nat
  | .tail _ | .head _ | .wantBell _ => (0, HEADER_BYTES)
  | .submission _ _ =>
    (layout.subOffset, layout.subOffset + layout.entries * SUBMISSION_BYTES)
  | .completion _ _ =>
    (layout.compOffset, layout.compOffset + layout.entries * COMPLETION_BYTES)

variable {layout : RingLayout}

lemma Place.offset_bounds {place : Place} (hwithin : place.Within layout) :
    (place.region layout).1 ≤ place.offset layout ∧
      place.offset layout + place.bytes ≤ (place.region layout).2 := by
  cases place with
  | tail r | head r | wantBell r =>
    cases r <;> simp [region, offset, bytes, HEADER_BYTES]
  | submission slot field =>
    have hend := field.end_le
    have hslot : slot < layout.entries := hwithin
    simp only [region, offset, bytes, SUBMISSION_BYTES] at *
    omega
  | completion slot field =>
    have hend := field.end_le
    have hslot : slot < layout.entries := hwithin
    simp only [region, offset, bytes, COMPLETION_BYTES] at *
    omega

/-- Fields of slots of one size are apart if those of one slot are. -/
theorem slots_apart {size slot slot' field field' bytes bytes' : Nat}
    (hend : field + bytes ≤ size) (hend' : field' + bytes' ≤ size)
    (hsame : slot = slot' → field + bytes ≤ field' ∨ field' + bytes' ≤ field) :
    slot * size + field + bytes ≤ slot' * size + field' ∨
      slot' * size + field' + bytes' ≤ slot * size + field := by
  rcases Nat.lt_trichotomy slot slot' with hlt | rfl | hlt
  · have hle := Nat.mul_le_mul_right size (Nat.succ_le_of_lt hlt)
    rw [Nat.succ_mul] at hle
    omega
  · have := hsame rfl
    omega
  · have hle := Nat.mul_le_mul_right size (Nat.succ_le_of_lt hlt)
    rw [Nat.succ_mul] at hle
    omega

lemma Place.apart {place other : Place} (hplace : place.Within layout)
    (hother : other.Within layout) (hne : place ≠ other) :
    place.offset layout + place.bytes ≤ other.offset layout ∨
      other.offset layout + other.bytes ≤ place.offset layout := by
  have hbounds := offset_bounds hplace
  have hbounds' := offset_bounds hother
  have hheader := layout.pastHeader
  have harrays := layout.apart
  cases place with
  | submission slot field =>
    cases other with
    | submission slot' field' =>
      have := slots_apart field.end_le field'.end_le fun h : slot = slot' =>
        SubmissionField.apart fun hfield => hne (by rw [h, hfield])
      simp only [offset, bytes]
      omega
    | tail | head | wantBell | completion =>
      simp only [region] at hbounds hbounds'
      omega
  | completion slot field =>
    cases other with
    | completion slot' field' =>
      have := slots_apart field.end_le field'.end_le fun h : slot = slot' =>
        CompletionField.apart fun hfield => hne (by rw [h, hfield])
      simp only [offset, bytes]
      omega
    | tail | head | wantBell | submission =>
      simp only [region] at hbounds hbounds'
      omega
  | tail r | head r | wantBell r =>
    cases other with
    | submission | completion =>
      simp only [region] at hbounds hbounds'
      omega
    | tail r' | head r' | wantBell r' =>
      cases r <;> cases r' <;> simp_all [offset, bytes]

end Ferrix.BlockRing.Layout

import Ferrix.Foundations.Words

/-!
What a filesystem asks of a disk, and units: requests of one kind that cover one stretch of
sectors and leave as one command.
-/

namespace Ferrix.Block.Requests

open Foundations.Words List

inductive Op
  | read
  | write
  | flush
  | discard
deriving DecidableEq

structure Flags where
  sync : Bool
  fua : Bool
deriving DecidableEq

structure Request where
  id : Nat
  op : Op
  sector : Nat
  count : Nat
  flags : Flags
deriving DecidableEq

namespace Request

def new (id : Nat) (op : Op) (sector count : Nat) : Request :=
  ⟨id, op, sector, count, ⟨false, false⟩⟩

def read (id sector count : Nat) : Request := new id .read sector count

def write (id sector count : Nat) : Request := new id .write sector count

def discard (id sector count : Nat) : Request := new id .discard sector count

def flush (id : Nat) : Request := new id .flush 0 0

def sync (request : Request) : Request :=
  { request with flags := { request.flags with sync := true } }

def fua (request : Request) : Request :=
  { request with flags := { request.flags with fua := true } }

def isBarrier (request : Request) : Bool :=
  request.op = .flush || (request.op = .write && request.flags.fua)

end Request

structure Part where
  id : Nat
  sector : Nat
  count : Nat
  flags : Flags
  arrival : Nat
  deadline : Nat
  seq : Nat
deriving DecidableEq

inductive LimitsError
  | blockSize
  | maxSectors
  | maxParts
  | queueDepth
deriving DecidableEq

structure Limits where
  logicalBlockSize : Nat
  capacity : Nat
  maxSectors : Nat
  maxParts : Nat
  queueDepth : Nat
  isBlockSize : ∃ n, 9 ≤ n ∧ n ≤ 16 ∧ logicalBlockSize = 2 ^ n
  capacity_lt : capacity < 2 ^ 64
  maxSectors_pos : 0 < maxSectors
  maxSectors_lt : maxSectors < 2 ^ 32
  maxParts_pos : 0 < maxParts
  maxParts_lt : maxParts < 2 ^ 32
  queueDepth_pos : 0 < queueDepth
  queueDepth_lt : queueDepth < 2 ^ 32

def MIN_BLOCK_SIZE : Nat := 512

def MAX_BLOCK_SIZE : Nat := 65536

lemma blockSize_cases {size : Nat} (h : size = 2 ^ size.log2 ∧ MIN_BLOCK_SIZE ≤ size ∧
    size ≤ MAX_BLOCK_SIZE) : ∃ n, 9 ≤ n ∧ n ≤ 16 ∧ size = 2 ^ n := by
  obtain ⟨hpow, hlow, hhigh⟩ := h
  refine ⟨size.log2, ?_, ?_, hpow⟩
  · rw [hpow] at hlow
    exact (Nat.pow_le_pow_iff_right (by norm_num : 1 < 2)).mp (show 2 ^ 9 ≤ _ from hlow)
  · rw [hpow] at hhigh
    exact (Nat.pow_le_pow_iff_right (by norm_num : 1 < 2)).mp (show _ ≤ 2 ^ 16 from hhigh)

def Limits.new (logicalBlockSize : Nat) (capacity : Fin (2 ^ 64))
    (maxSectors maxParts queueDepth : Fin (2 ^ 32)) : Except LimitsError Limits :=
  if hblock : logicalBlockSize = 2 ^ logicalBlockSize.log2 ∧
      MIN_BLOCK_SIZE ≤ logicalBlockSize ∧ logicalBlockSize ≤ MAX_BLOCK_SIZE then
    if hsectors : 0 < maxSectors.val then
      if hparts : 0 < maxParts.val then
        if hdepth : 0 < queueDepth.val then
          .ok ⟨logicalBlockSize, capacity, maxSectors, maxParts, queueDepth,
            blockSize_cases hblock, capacity.isLt, hsectors, maxSectors.isLt, hparts,
            maxParts.isLt, hdepth, queueDepth.isLt⟩
        else .error .queueDepth
      else .error .maxParts
    else .error .maxSectors
  else .error .blockSize

structure Config where
  readExpiry : Nat
  writeExpiry : Nat
  plugThreshold : Nat
  maxRequests : Nat
  maxRequests_lt : maxRequests < 2 ^ 64

def Config.expiry (config : Config) (op : Op) (flags : Flags) : Nat :=
  match op with
  | .read | .flush => config.readExpiry
  | .write | .discard => if flags.sync then config.readExpiry else config.writeExpiry

structure IoUnit where
  op : Op
  sector : Nat
  count : Nat
  fua : Bool
  isolated : Bool
  deadline : Nat
  parts : List Part
deriving DecidableEq

namespace IoUnit

def single (op : Op) (part : Part) (isolated : Bool) : IoUnit where
  op := op
  sector := part.sector
  count := part.count
  fua := part.flags.fua
  isolated := isolated
  deadline := part.deadline
  parts := [part]

def stop (unit : IoUnit) : Nat := saturatingAdd 64 unit.sector unit.count

/-- Whether another unit may be appended to this one. -/
def canJoin (unit right : IoUnit) (limits : Limits) : Bool :=
  if unit.op ≠ right.op || unit.op = .flush then false
  else if unit.isolated || right.isolated || unit.fua ≠ right.fua then false
  else if unit.stop ≠ right.sector then false
  else
    ((checkedAdd 32 unit.count right.count).any fun count => count ≤ limits.maxSectors) &&
      (checkedAdd 64 unit.parts.length right.parts.length).any fun parts =>
        parts ≤ limits.maxParts

def join (unit right : IoUnit) : IoUnit :=
  { unit with
    count := saturatingAdd 32 unit.count right.count
    deadline := min unit.deadline right.deadline
    parts := (unit.parts ++ right.parts).insertionSort fun a b => a.seq ≤ b.seq }

def isBarrier (unit : IoUnit) : Bool := unit.op = .flush || (unit.op = .write && unit.fua)

end IoUnit

/-- Parts that follow one another from a sector to another. -/
def Chained : Nat → List Part → Nat → Prop
  | start, [], stop => start = stop
  | start, part :: parts, stop => part.sector = start ∧ Chained (start + part.count) parts stop

lemma Chained.append {a middle stop : Nat} {l right : List Part}
    (hleft : Chained a l middle) (hright : Chained middle right stop) :
    Chained a (l ++ right) stop := by
  induction l generalizing a with
  | nil =>
    cases hleft
    exact hright
  | cons p l ih => exact ⟨hleft.1, ih hleft.2⟩

/-- The parts cover the stretch without gap or overlap, in some order. -/
def Tiles (parts : List Part) (start stop : Nat) : Prop :=
  ∃ laid, laid.Perm parts ∧ Chained start laid stop

lemma Tiles.append {a middle stop : Nat} {l right parts : List Part} (hleft : Tiles l a middle)
    (hright : Tiles right middle stop) (hparts : parts.Perm (l ++ right)) : Tiles parts a stop := by
  obtain ⟨laidLeft, hpermLeft, hchainLeft⟩ := hleft
  obtain ⟨laidRight, hpermRight, hchainRight⟩ := hright
  exact ⟨laidLeft ++ laidRight, (hpermLeft.append hpermRight).trans hparts.symm,
    hchainLeft.append hchainRight⟩

structure Shaped (limits : Limits) (unit : IoUnit) : Prop where
  inhabited : unit.parts ≠ []
  ordered : unit.parts.Pairwise fun a b => a.seq < b.seq
  tiled : Tiles unit.parts unit.sector (unit.sector + unit.count)
  fua : ∀ part ∈ unit.parts, part.flags.fua = unit.fua
  flush : unit.op = .flush → unit.sector = 0 ∧ unit.count = 0 ∧ unit.parts.length = 1
  capacity : unit.op ≠ .flush → unit.sector + unit.count ≤ limits.capacity
  sectors : unit.count ≤ limits.maxSectors
  length : unit.parts.length ≤ limits.maxParts
  isolated : unit.isolated = true → unit.parts.length = 1

variable {limits : Limits} {unit right : IoUnit}

lemma canJoin_iff (hu : Shaped limits unit) : unit.canJoin right limits = true ↔
    unit.op = right.op ∧ unit.op ≠ .flush ∧ unit.isolated = false ∧ right.isolated = false ∧
      unit.fua = right.fua ∧ unit.sector + unit.count = right.sector ∧
      unit.count + right.count ≤ limits.maxSectors ∧
      unit.parts.length + right.parts.length ≤ limits.maxParts := by
  have hsectors := limits.maxSectors_lt
  have hparts := limits.maxParts_lt
  have hcapacity := limits.capacity_lt
  rw [IoUnit.canJoin]
  split_ifs with hop hkind hstop
  · simp only [Bool.or_eq_true, decide_eq_true_eq] at hop
    simp only [false_iff]
    rintro ⟨h1, h2, -⟩
    exact hop.elim (fun h => h h1) h2
  · simp only [Bool.or_eq_true, decide_eq_true_eq] at hkind
    simp only [false_iff]
    rintro ⟨-, -, h1, h2, h3, -⟩
    rcases hkind with (h | h) | h
    · simp [h1] at h
    · simp [h2] at h
    · exact h h3
  · simp only [Bool.or_eq_true, decide_eq_true_eq, not_or, not_not] at hop
    have hcap := hu.capacity hop.2
    rw [IoUnit.stop, saturatingAdd_of_lt (by omega)] at hstop
    simp only [false_iff]
    exact fun h => hstop h.2.2.2.2.2.1
  · simp only [Bool.or_eq_true, decide_eq_true_eq, not_or, not_not, Bool.not_eq_true] at hop hkind
    have hcap := hu.capacity hop.2
    rw [not_not, IoUnit.stop, saturatingAdd_of_lt (by omega)] at hstop
    simp only [Bool.and_eq_true, Option.any_eq_true, checkedAdd_eq_some, decide_eq_true_eq]
    constructor
    · rintro ⟨⟨_, ⟨-, rfl⟩, hs⟩, ⟨_, ⟨-, rfl⟩, hp⟩⟩
      exact ⟨hop.1, hop.2, hkind.1.1, hkind.1.2, hkind.2, hstop, hs, hp⟩
    · rintro ⟨-, -, -, -, -, -, hs, hp⟩
      exact ⟨⟨_, ⟨by omega, rfl⟩, hs⟩, ⟨_, ⟨by omega, rfl⟩, hp⟩⟩

lemma join_parts_perm (unit right : IoUnit) :
    (unit.join right).parts.Perm (unit.parts ++ right.parts) :=
  perm_insertionSort _ _

lemma join_ordered (hne : ∀ a ∈ unit.parts, ∀ b ∈ right.parts, a.seq ≠ b.seq)
    (hu : Shaped limits unit) (hright : Shaped limits right) :
    (unit.join right).parts.Pairwise fun a b => a.seq < b.seq := by
  have hsorted : (unit.join right).parts.Pairwise fun a b => a.seq ≤ b.seq :=
    haveI : IsTrans Part fun a b => a.seq ≤ b.seq := ⟨fun _ _ _ => Nat.le_trans⟩
    haveI : Std.Total fun a b : Part => a.seq ≤ b.seq := ⟨fun a b => Nat.le_total a.seq b.seq⟩
    pairwise_insertionSort _ _
  have hdistinct : (unit.join right).parts.Pairwise fun a b => a.seq ≠ b.seq := by
    refine ((join_parts_perm unit right).pairwise_iff Ne.symm).mpr ?_
    exact pairwise_append.mpr ⟨hu.ordered.imp Nat.ne_of_lt, hright.ordered.imp Nat.ne_of_lt, hne⟩
  exact (hsorted.and hdistinct).imp fun h => lt_of_le_of_ne h.1 h.2

lemma Shaped.join (hu : Shaped limits unit) (hright : Shaped limits right)
    (hjoin : unit.canJoin right limits = true)
    (hne : ∀ a ∈ unit.parts, ∀ b ∈ right.parts, a.seq ≠ b.seq) :
    Shaped limits (unit.join right) := by
  obtain ⟨hop, hflush, hisolated, -, hfua, hstop, hsectors, hparts⟩ := (canJoin_iff hu).mp hjoin
  have hlt := limits.maxSectors_lt
  have hn : (unit.join right).count = unit.count + right.count :=
    saturatingAdd_of_lt (by omega)
  have hperm := join_parts_perm unit right
  have hlen := hperm.length_eq
  rw [length_append] at hlen
  constructor
  · intro hnil
    rw [hnil] at hperm
    exact hu.inhabited (append_eq_nil_iff.mp hperm.symm.eq_nil).1
  · exact join_ordered hne hu hright
  · rw [hn]
    refine Tiles.append hu.tiled ?_ hperm
    rw [hstop, show (unit.join right).sector = unit.sector from rfl,
      show unit.sector + (unit.count + right.count) = right.sector + right.count by omega]
    exact hright.tiled
  · intro p hpart
    rcases mem_append.mp (hperm.mem_iff.mp hpart) with h | h
    · exact hu.fua p h
    · exact (hright.fua p h).trans hfua.symm
  · exact fun h => absurd h hflush
  · intro _
    rw [hn, show (unit.join right).sector = unit.sector from rfl]
    have := hright.capacity (hop ▸ hflush)
    omega
  · rw [hn]
    exact hsectors
  · rw [hlen]
    exact hparts
  · exact fun h => absurd (show unit.isolated = true from h) (by simp [hisolated])

end Ferrix.Block.Requests

import Ferrix.Foundations.Stretches

/-!
The regions of an address space: page-aligned ranges with permissions and a
backing object, and when two of them describe one continuous mapping.
-/

namespace Ferrix.AddressSpaces.Regions

def pageSize : Nat := 4096

def isPageAligned (address : Nat) : Bool := address &&& (pageSize - 1) == 0

def checkedAdd (a b : Nat) : Option Nat := if a + b < 2 ^ 64 then some (a + b) else none

def saturatingAdd (a b : Nat) : Nat := min (a + b) (2 ^ 64 - 1)

inductive VmaError where
  | zeroLength
  | misaligned
  | wraps
  | outOfRange
  | overlap
  | notMapped
  | backingOverflow
  | noMemory
  deriving DecidableEq

structure PageRange where
  start : Nat
  stop : Nat
  deriving DecidableEq

namespace PageRange

def new (start stop : Nat) : Except VmaError PageRange :=
  if !isPageAligned start || !isPageAligned stop then .error .misaligned
  else if start ≥ stop then .error .zeroLength
  else .ok ⟨start, stop⟩

def fromLen (start len : Nat) : Except VmaError PageRange :=
  if len = 0 then .error .zeroLength
  else
    match checkedAdd start len with
    | none => .error .wraps
    | some stop => new start stop

def bytes (range : PageRange) : Nat := range.stop - range.start

def contains (range : PageRange) (address : Nat) : Bool :=
  range.start ≤ address && address < range.stop

/-- What both constructors promise of a range of `u64` addresses. -/
structure Valid (range : PageRange) : Prop where
  start_aligned : isPageAligned range.start = true
  stop_aligned : isPageAligned range.stop = true
  lt : range.start < range.stop
  stop_lt : range.stop < 2 ^ 64

end PageRange

structure VmaFlags where
  read : Bool
  write : Bool
  execute : Bool
  shared : Bool
  growsDown : Bool
  locked : Bool
  deriving DecidableEq

inductive Backing where
  | anonymous (id offset : Nat)
  | file (id offset : Nat)
  | device (physical id : Nat) (cached combining : Bool)
  deriving DecidableEq

namespace Backing

def advancedBy : Backing → Nat → Backing
  | .anonymous id offset, bytes => .anonymous id (saturatingAdd offset bytes)
  | .file id offset, bytes => .file id (saturatingAdd offset bytes)
  | .device physical id cached combining, bytes =>
    .device (saturatingAdd physical bytes) id cached combining

def base : Backing → Nat
  | .anonymous _ offset => offset
  | .file _ offset => offset
  | .device physical _ _ _ => physical

def isDevice : Backing → Bool
  | .device .. => true
  | _ => false

end Backing

structure Vma where
  range : PageRange
  flags : VmaFlags
  backing : Backing
  cow : Bool
  deriving DecidableEq

structure Unmapping where
  range : PageRange
  flags : VmaFlags
  backing : Backing
  cow : Bool
  deriving DecidableEq

/-- Whether `right` continues `left`'s backing object exactly where `left`'s
`leftLen` bytes end. -/
def contiguousBacking : Backing → Backing → Nat → Bool
  | .anonymous leftId leftOffset, .anonymous rightId rightOffset, leftLen =>
    leftId == rightId && checkedAdd leftOffset leftLen == some rightOffset
  | .file leftId leftOffset, .file rightId rightOffset, leftLen =>
    leftId == rightId && checkedAdd leftOffset leftLen == some rightOffset
  | .device leftBase leftId leftCached leftCombining,
      .device rightBase rightId rightCached rightCombining, leftLen =>
      leftId == rightId && leftCached == rightCached && leftCombining == rightCombining &&
        checkedAdd leftBase leftLen == some rightBase
  | _, _, _ => false

def mergeable (left right : Vma) : Bool :=
  left.range.stop == right.range.start && left.flags == right.flags &&
    contiguousBacking left.backing right.backing left.range.bytes

def validateBackingBase (base len : Nat) : Except VmaError Unit :=
  if !isPageAligned base then .error .misaligned
  else if checkedAdd base len = none then .error .backingOverflow
  else .ok ()

def validateBacking (backing : Backing) (len : Nat) : Except VmaError Unit :=
  match backing with
  | .anonymous _ offset => validateBackingBase offset len
  | .file _ offset => validateBackingBase offset len
  | .device physical _ _ _ => validateBackingBase physical len

def needsCow (region : Vma) : Bool :=
  region.flags.write && !region.flags.shared && !region.backing.isDevice

def unmappingOf (region : Vma) (range : PageRange) : Unmapping :=
  ⟨range, region.flags, region.backing.advancedBy (range.start - region.range.start), region.cow⟩

def checkOne (low high : Nat) (region : Vma) : Except String Unit :=
  if region.range.start ≥ region.range.stop then .error "region is empty or inverted"
  else if !isPageAligned region.range.start || !isPageAligned region.range.stop then
    .error "region is not page-aligned"
  else if region.range.start < low ∨ region.range.stop > high then
    .error "region is outside the usable address window"
  else
    match validateBacking region.backing region.range.bytes with
    | .error _ => .error "region backing cannot cover the region"
    | .ok _ => .ok ()

lemma isPageAligned_iff (a : Nat) : isPageAligned a = true ↔ a % 4096 = 0 := by
  rw [isPageAligned, beq_iff_eq, pageSize]
  have := Nat.and_two_pow_sub_one_eq_mod a 12
  norm_num at this
  rw [this]

namespace Backing

lemma validateBacking_eq (backing : Backing) (len : Nat) :
    validateBacking backing len = validateBackingBase backing.base len := by
  cases backing <;> rfl

variable {backing : Backing}

lemma advancedBy_zero (h : backing.base < 2 ^ 64) : backing.advancedBy 0 = backing := by
  cases backing <;> simp only [base] at h <;> simp [advancedBy, saturatingAdd] <;> omega

lemma base_advancedBy {bytes : Nat} (h : backing.base + bytes < 2 ^ 64) :
    (backing.advancedBy bytes).base = backing.base + bytes := by
  cases backing <;> simp only [base] at h <;> simp only [advancedBy, saturatingAdd, base] <;> omega

lemma advancedBy_advancedBy {first second : Nat} (h : backing.base + first + second < 2 ^ 64) :
    (backing.advancedBy first).advancedBy second = backing.advancedBy (first + second) := by
  cases backing <;> simp only [base] at h <;> simp [advancedBy, saturatingAdd] <;> omega

lemma isDevice_advancedBy (backing : Backing) (bytes : Nat) :
    (backing.advancedBy bytes).isDevice = backing.isDevice := by
  cases backing <;> rfl

lemma contiguousBacking_iff {l r : Backing} {len : Nat} (h : l.base + len < 2 ^ 64) :
    contiguousBacking l r len = true ↔ r = l.advancedBy len := by
  cases l <;> cases r <;> simp only [base] at h <;>
    simp [contiguousBacking, advancedBy, checkedAdd, saturatingAdd] <;> grind

end Backing

end Ferrix.AddressSpaces.Regions

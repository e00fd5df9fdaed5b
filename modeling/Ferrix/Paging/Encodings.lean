import Ferrix.Foundations.BitFields

/-!
The bit layouts of five kinds of page table.  A level is numbered by the levels below it: the
source's `Level::PAGE` is 0 here and its root of a four-level walk 3.
-/

namespace Ferrix.Paging.Encodings

open Foundations.BitFields

abbrev Word := BitVec 64

def pageSize : Nat := 4096

def entries : Nat := 512

namespace Level

def page : Nat := 0

def megabyte : Nat := 1

def gigabyte : Nat := 2

def root : Nat := 3

end Level

def shift (level : Nat) : Nat := 12 + 9 * level

def span (level : Nat) : Nat := 2 ^ shift level

def index (level virt : Nat) : Nat := (virt >>> shift level) &&& 0x1FF

structure MapFlags where
  read : Bool
  write : Bool
  execute : Bool
  user : Bool
  global : Bool
  device : Bool
  uncached : Bool
  writeCombining : Bool
deriving DecidableEq

/-- The bit layout of one architecture's descriptors and the shape of its walk. -/
structure Encoding where
  rootLevel : Nat
  virtBits : Nat
  physBits : Nat
  isCanonical : Nat → Bool
  tableDescriptor : Nat → MapFlags → Word
  leafDescriptor : Nat → Nat → MapFlags → Word
  isPresent : Word → Bool
  isLeaf : Word → Nat → Bool
  address : Word → Nat
  supportsBlock : Nat → Bool

/-- The trait's `is_canonical`: all bits from the highest translated one up are the same. -/
def signExtended (virtBits virt : Nat) : Bool :=
  let high := virt >>> (virtBits - 1)
  high == 0 || high == (2 ^ 64 - 1) >>> (virtBits - 1)

/-- The `is_canonical` of the encodings whose addresses are plain numbers. -/
def zeroExtended (virtBits virt : Nat) : Bool := virt >>> virtBits == 0

def blockLevel (level : Nat) : Bool := level == Level.gigabyte || level == Level.megabyte

namespace X86

def present : Word := 1 <<< 0

def writable : Word := 1 <<< 1

def user : Word := 1 <<< 2

def writeThrough : Word := 1 <<< 3

def cacheDisable : Word := 1 <<< 4

def accessed : Word := 1 <<< 5

def dirty : Word := 1 <<< 6

def pageSizeBit : Word := 1 <<< 7

def global : Word := 1 <<< 8

def noExecute : Word := 1 <<< 63

def addressMask : Word := 0x000FFFFFFFFFF000

def tableDescriptor (table : Nat) (flags : MapFlags) : Word :=
  setIf (((BitVec.ofNat 64 table &&& addressMask) ||| present) ||| writable) flags.user user

def leafDescriptor (frame level : Nat) (flags : MapFlags) : Word :=
  let entry := ((BitVec.ofNat 64 frame &&& addressMask) ||| present) ||| accessed
  let entry := setIf entry flags.write (writable ||| dirty)
  let entry := setIf entry flags.user user
  let entry := setIf entry flags.global global
  let entry := setIf entry flags.device (cacheDisable ||| writeThrough)
  let entry := setIf entry (!flags.device && flags.writeCombining) writeThrough
  let entry := setIf entry (!flags.execute) noExecute
  setIf entry (level != Level.page) pageSizeBit

def encoding : Encoding where
  rootLevel := Level.root
  virtBits := 48
  physBits := 52
  isCanonical := signExtended 48
  tableDescriptor := tableDescriptor
  leafDescriptor := leafDescriptor
  isPresent entry := entry &&& present != 0
  isLeaf entry level := level == Level.page || entry &&& pageSizeBit != 0
  address entry := (entry &&& addressMask).toNat
  supportsBlock := blockLevel

end X86

namespace Arm

def valid : Word := 1 <<< 0

def tableOrPage : Word := 1 <<< 1

def accessFlag : Word := 1 <<< 10

def notGlobal : Word := 1 <<< 11

def pxn : Word := 1 <<< 53

def uxn : Word := 1 <<< 54

def shInner : Word := 0b11 <<< 8

def mairNormal : Word := 0

def mairDevice : Word := 1

def mairNormalNc : Word := 2

def attrIndex (index : Word) : Word := (index &&& 0b111) <<< 2

def access : Bool → Bool → Word
  | false, true => 0b00 <<< 6
  | false, false => 0b10 <<< 6
  | true, true => 0b01 <<< 6
  | true, false => 0b11 <<< 6

def memory (flags : MapFlags) : Word :=
  if flags.device then attrIndex mairDevice
  else if flags.uncached || flags.writeCombining then attrIndex mairNormalNc ||| shInner
  else attrIndex mairNormal ||| shInner

def tableDescriptor (addressMask : Word) (table : Nat) (_ : MapFlags) : Word :=
  ((BitVec.ofNat 64 table &&& addressMask) ||| valid) ||| tableOrPage

def leafCommon (addressMask : Word) (frame level : Nat) (flags : MapFlags) : Word :=
  let entry := ((BitVec.ofNat 64 frame &&& addressMask) ||| valid) ||| accessFlag
  let entry := setIf entry (level == Level.page) tableOrPage
  let entry := entry ||| access flags.user flags.write
  let entry := entry ||| memory flags
  setIf entry (!flags.global) notGlobal

/-- The encoding of a format with its mask, its geometry and its leaf descriptors. -/
def encodingWith (addressMask : Word) (rootLevel virtBits physBits : Nat)
    (isCanonical : Nat → Bool) (leafDescriptor : Nat → Nat → MapFlags → Word) : Encoding where
  rootLevel := rootLevel
  virtBits := virtBits
  physBits := physBits
  isCanonical := isCanonical
  tableDescriptor := tableDescriptor addressMask
  leafDescriptor := leafDescriptor
  isPresent entry := entry &&& valid != 0
  isLeaf entry level := level == Level.page || entry &&& tableOrPage == 0
  address entry := (entry &&& addressMask).toNat
  supportsBlock := blockLevel

end Arm

namespace AArch64

open Arm

def addressMask : Word := 0x0000FFFFFFFFF000

def leafDescriptor (frame level : Nat) (flags : MapFlags) : Word :=
  let entry := leafCommon addressMask frame level flags
  let entry := setIf entry flags.user pxn
  let entry := setIf entry (flags.user && !flags.execute) uxn
  let entry := setIf entry (!flags.user) uxn
  setIf entry (!flags.user && !flags.execute) pxn

def encoding : Encoding :=
  encodingWith addressMask Level.root 48 48 (signExtended 48) leafDescriptor

end AArch64

namespace Armv7a

open Arm

def addressMask : Word := 0x000000FFFFFFF000

def leafDescriptor (frame level : Nat) (flags : MapFlags) : Word :=
  let entry := leafCommon addressMask frame level flags
  let entry := setIf entry flags.user pxn
  setIf entry (!flags.execute) (uxn ||| pxn)

def encoding : Encoding :=
  encodingWith addressMask Level.gigabyte 32 40 (zeroExtended 32) leafDescriptor

end Armv7a

namespace Stage2

open Arm

def memattrNormal : Word := 0b1111 <<< 2

def memattrDevice : Word := 0b0001 <<< 2

def s2apRead : Word := 1 <<< 6

def s2apWrite : Word := 1 <<< 7

def addressMask : Word := 0x000000FFFFFFF000

def leafDescriptor (frame level : Nat) (flags : MapFlags) : Word :=
  let entry := (((BitVec.ofNat 64 frame &&& addressMask) ||| valid) ||| accessFlag) ||| uxn
  let entry := setIf entry (level == Level.page) tableOrPage
  let entry := setIf entry flags.read s2apRead
  let entry := setIf entry flags.write s2apWrite
  let entry := setIf entry flags.device memattrDevice
  setIf entry (!flags.device) (memattrNormal ||| shInner)

def encoding : Encoding :=
  encodingWith addressMask Level.gigabyte 39 40 (zeroExtended 39) leafDescriptor

end Stage2

namespace Vtd

def read : Word := 1 <<< 0

def write : Word := 1 <<< 1

def superpage : Word := 1 <<< 7

def addressMask : Word := 0x0000007FFFFFF000

def tableDescriptor (table : Nat) (_ : MapFlags) : Word :=
  ((BitVec.ofNat 64 table &&& addressMask) ||| read) ||| write

def leafDescriptor (frame level : Nat) (flags : MapFlags) : Word :=
  let entry := BitVec.ofNat 64 frame &&& addressMask
  let entry := setIf entry flags.read read
  let entry := setIf entry flags.write write
  setIf entry (level != Level.page) superpage

def encoding : Encoding where
  rootLevel := Level.gigabyte
  virtBits := 39
  physBits := 39
  isCanonical := zeroExtended 39
  tableDescriptor := tableDescriptor
  leafDescriptor := leafDescriptor
  isPresent entry := entry &&& (read ||| write) != 0
  isLeaf entry level := level == Level.page || entry &&& superpage != 0
  address entry := (entry &&& addressMask).toNat
  supportsBlock := blockLevel

end Vtd

inductive Architecture where
  | x86_64
  | aarch64
  | armv7a
  | vtd
  | stage2
deriving DecidableEq

def Architecture.encoding : Architecture → Encoding
  | .x86_64 => X86.encoding
  | .aarch64 => AArch64.encoding
  | .armv7a => Armv7a.encoding
  | .vtd => Vtd.encoding
  | .stage2 => Stage2.encoding

inductive Descriptor where
  | absent
  | leaf (phys : Nat)
  | table (frame : Nat)
deriving DecidableEq

def Encoding.decode (encoding : Encoding) (level : Nat) (entry : Word) : Descriptor :=
  if encoding.isPresent entry then
    if encoding.isLeaf entry level then .leaf (encoding.address entry)
    else .table (encoding.address entry)
  else .absent

/-- The flags an architecture's leaf can carry: a VT-d entry that permits nothing is not
there. -/
def Architecture.Grants (arch : Architecture) (flags : MapFlags) : Prop :=
  arch = .vtd → flags.read = true ∨ flags.write = true

instance (arch : Architecture) (flags : MapFlags) :
    Decidable (arch.Grants flags) :=
  inferInstanceAs (Decidable (_ → _))

def Architecture.mask : Architecture → Word
  | .x86_64 => X86.addressMask
  | .aarch64 => AArch64.addressMask
  | .armv7a => Armv7a.addressMask
  | .vtd => Vtd.addressMask
  | .stage2 => Stage2.addressMask

section

/-- Every descriptor of an encoding keeps its address under one mask and its flags outside. -/
structure Fields (encoding : Encoding) (mask : Word) : Prop where
  physBits_le : encoding.physBits ≤ 64
  mask_eq : mask = BitVec.ofNat 64 (2 ^ encoding.physBits - 2 ^ 12)
  address : ∀ entry, encoding.address entry = (entry &&& mask).toNat
  present : ∀ field attributes : Word, field &&& mask = field →
    encoding.isPresent (field ||| attributes) = encoding.isPresent attributes
  leaf : ∀ (field attributes : Word) (level : Nat), field &&& mask = field →
    encoding.isLeaf (field ||| attributes) level = encoding.isLeaf attributes level

variable {encoding : Encoding} {mask attributes : Word} {frame level : Nat}

lemma Fields.decode (hfields : Fields encoding mask) (haligned : pageSize ∣ frame)
    (hlt : frame < 2 ^ encoding.physBits) (hattributes : attributes &&& mask = 0#64) :
    encoding.decode level ((BitVec.ofNat 64 frame &&& mask) ||| attributes) =
      if encoding.isPresent attributes then
        if encoding.isLeaf attributes level then .leaf frame else .table frame else .absent := by
  have hfield : BitVec.ofNat 64 frame &&& mask = BitVec.ofNat 64 frame := by
    rw [hfields.mask_eq]
    exact and_field haligned hlt
  have hw : frame < 2 ^ 64 :=
    hlt.trans_le (Nat.pow_le_pow_right (by decide) hfields.physBits_le)
  have haddress : encoding.address (BitVec.ofNat 64 frame ||| attributes) = frame := by
    rw [hfields.address, field_and_mask hfield hattributes, BitVec.toNat_ofNat, Nat.mod_eq_of_lt hw]
  rw [Encoding.decode, hfield, hfields.present _ _ hfield, hfields.leaf _ _ _ hfield, haddress]

lemma fields_of_tags (present tag : Word) (test : Word → Bool) (hbits : encoding.physBits ≤ 64)
    (hmask : mask = BitVec.ofNat 64 (2 ^ encoding.physBits - 2 ^ 12))
    (haddress : ∀ e, encoding.address e = (e &&& mask).toNat)
    (hpresent : ∀ e, encoding.isPresent e = (e &&& present != 0))
    (hleaf : ∀ e level, encoding.isLeaf e level = (level == Level.page || test (e &&& tag)))
    (hpresentOut : mask &&& present = 0#64) (htagOut : mask &&& tag = 0#64) :
    Fields encoding mask where
  physBits_le := hbits
  mask_eq := hmask
  address := haddress
  present := by
    intro field attributes hfield
    rw [hpresent, hpresent, tag_and hfield hpresentOut]
  leaf := by
    intro field attributes level hfield
    rw [hleaf, hleaf, tag_and hfield htagOut]

structure Attributes (encoding : Encoding) (mask : Word) (Grants : MapFlags → Prop) : Prop where
  table : ∀ frame flags, encoding.tableDescriptor frame flags =
    (BitVec.ofNat 64 frame &&& mask) ||| encoding.tableDescriptor 0 flags
  leaf : ∀ frame level flags, encoding.leafDescriptor frame level flags =
    (BitVec.ofNat 64 frame &&& mask) ||| encoding.leafDescriptor 0 level flags
  absent : encoding.isPresent 0 = false
  page : ∀ entry, encoding.isLeaf entry Level.page = true
  tableBits : ∀ level ≤ Level.root, level ≠ Level.page → ∀ flags,
    encoding.tableDescriptor 0 flags &&& mask = 0#64 ∧
    encoding.isPresent (encoding.tableDescriptor 0 flags) = true ∧
    encoding.isLeaf (encoding.tableDescriptor 0 flags) level = false
  leafBits : ∀ level ≤ Level.gigabyte, ∀ flags, Grants flags →
    encoding.leafDescriptor 0 level flags &&& mask = 0#64 ∧
    encoding.isPresent (encoding.leafDescriptor 0 level flags) = true ∧
    encoding.isLeaf (encoding.leafDescriptor 0 level flags) level = true

lemma forall_flags {P : MapFlags → Prop}
    (hbools : ∀ r w e u g d c k : Bool, P ⟨r, w, e, u, g, d, c, k⟩) (flags : MapFlags) : P flags :=
  hbools ..

end

lemma fields (arch : Architecture) : Fields arch.encoding arch.mask := by
  have harm : ∀ {mask rootLevel virtBits physBits isCanonical leafDescriptor}, physBits ≤ 64 →
      mask = BitVec.ofNat 64 (2 ^ physBits - 2 ^ 12) → mask &&& Arm.valid = 0#64 →
      mask &&& Arm.tableOrPage = 0#64 → Fields (Arm.encodingWith mask rootLevel virtBits physBits
        isCanonical leafDescriptor) mask :=
    fun hbits hmask => fields_of_tags Arm.valid Arm.tableOrPage (· == 0) hbits hmask (fun _ => rfl)
      (fun _ => rfl) fun _ _ => rfl
  cases arch with
  | x86_64 =>
    exact fields_of_tags X86.present X86.pageSizeBit (· != 0) (by decide) (by decide)
      (fun _ => rfl) (fun _ => rfl) (fun _ _ => rfl) (by decide) (by decide)
  | aarch64 => apply harm <;> decide
  | armv7a => apply harm <;> decide
  | vtd =>
    exact fields_of_tags (Vtd.read ||| Vtd.write) Vtd.superpage (· != 0) (by decide) (by decide)
      (fun _ => rfl) (fun _ => rfl) (fun _ _ => rfl) (by decide) (by decide)
  | stage2 => apply harm <;> decide

lemma attributes (arch : Architecture) : Attributes arch.encoding arch.mask arch.Grants where
  table := by
    intro frame flags
    cases arch <;>
      simp [Architecture.encoding, Architecture.mask, X86.encoding, X86.tableDescriptor, or_setIf,
        Vtd.encoding, Vtd.tableDescriptor, AArch64.encoding, Armv7a.encoding, Stage2.encoding,
        Arm.encodingWith, Arm.tableDescriptor, BitVec.or_assoc]
  leaf := by
    intro frame level flags
    cases arch with
    | vtd =>
      simp only [Architecture.encoding, Architecture.mask, Vtd.encoding, Vtd.leafDescriptor]
      rw [← or_setIf, ← or_setIf, ← or_setIf]
      simp
    | _ =>
      simp [Architecture.encoding, Architecture.mask, X86.encoding, X86.leafDescriptor, or_setIf,
        AArch64.encoding, AArch64.leafDescriptor, Armv7a.encoding, Armv7a.leafDescriptor,
        Stage2.encoding, Stage2.leafDescriptor, Arm.encodingWith, Arm.leafCommon, BitVec.or_assoc]
  absent := by cases arch <;> decide
  page := by cases arch <;> exact fun _ => rfl
  tableBits := fun level hlevel hpage => forall_flags <| by
    revert level
    cases arch <;> decide +kernel
  leafBits := fun level hlevel => forall_flags <| by
    revert level
    cases arch <;> decide +kernel

variable (arch : Architecture) {level frame : Nat} {flags : MapFlags}

lemma decode_zero (level : Nat) : arch.encoding.decode level 0 = .absent := by
  rw [Encoding.decode, (attributes arch).absent]
  rfl

lemma decode_tableDescriptor (hl : level ≤ Level.root) (hp : level ≠ Level.page)
    (haligned : pageSize ∣ frame) (hlt : frame < 2 ^ arch.encoding.physBits) :
    arch.encoding.decode level (arch.encoding.tableDescriptor frame flags) = .table frame := by
  obtain ⟨hmask, hpresent, hleaf⟩ :=
    (attributes arch).tableBits level hl hp flags
  rw [(attributes arch).table, (fields arch).decode haligned hlt hmask, hpresent, hleaf]
  rfl

lemma decode_leafDescriptor (hl : level ≤ Level.gigabyte) (hgrants : arch.Grants flags)
    (haligned : pageSize ∣ frame) (hlt : frame < 2 ^ arch.encoding.physBits) :
    arch.encoding.decode level (arch.encoding.leafDescriptor frame level flags) = .leaf frame := by
  obtain ⟨hmask, hpresent, hleaf⟩ :=
    (attributes arch).leafBits level hl flags hgrants
  rw [(attributes arch).leaf, (fields arch).decode haligned hlt hmask, hpresent, hleaf]
  rfl

end Ferrix.Paging.Encodings

import Ferrix.Foundations.Allocation

/-!
Classic BPF as seccomp runs it: the instructions, the verifier that lets a
program in, and the machine that runs it against the data of a system call.
-/

namespace Ferrix.Seccomp.Filter

open Foundations.Allocation

def maxInsns : Nat := 4096

def memwords : Nat := 16

def dataBytes : Nat := 64

def killThread : BitVec 32 := 0x00000000#32

structure Insn where
  code : BitVec 16
  jt : BitVec 8
  jf : BitVec 8
  k : BitVec 32
  deriving DecidableEq

structure SeccompData where
  nr : BitVec 32
  arch : BitVec 32
  instructionPointer : BitVec 64
  args : Vector (BitVec 64) 6
  deriving DecidableEq

def half (value : BitVec 64) (high : Bool) : BitVec 32 :=
  if high then (value >>> 32).setWidth 32 else value.setWidth 32

def SeccompData.word (data : SeccompData) (offset : BitVec 32) : Option (BitVec 32) :=
  let offset := offset.toNat
  if offset % 4 ≠ 0 then none
  else if offset = 0 then some data.nr
  else if offset = 4 then some data.arch
  else if offset = 8 ∨ offset = 12 then some (half data.instructionPointer (offset == 12))
  else if 16 ≤ offset ∧ offset ≤ 60 then
    (data.args[(offset - 16) / 8]?).map fun arg => half arg (offset % 8 == 4)
  else none

inductive Arith where
  | add | sub | mul | div | or | and | lsh | rsh | xor
  deriving DecidableEq

def Arith.apply (op : Arith) (a b : BitVec 32) : Option (BitVec 32) :=
  match op with
  | .add => some (a + b)
  | .sub => some (a - b)
  | .mul => some (a * b)
  | .div => if b = 0#32 then none else some (a / b)
  | .or => some (a ||| b)
  | .and => some (a &&& b)
  | .lsh => some (a <<< (b &&& 31#32))
  | .rsh => some (a >>> (b &&& 31#32))
  | .xor => some (a ^^^ b)

inductive Test where
  | eq | gt | ge | set
  deriving DecidableEq

def Test.holds (test : Test) (a b : BitVec 32) : Bool :=
  match test with
  | .eq => a == b
  | .gt => decide (a > b)
  | .ge => decide (a ≥ b)
  | .set => a &&& b != 0#32

inductive Op where
  | loadAbs
  | loadLen
  | loadImm
  | loadMem
  | loadXLen
  | loadXImm
  | loadXMem
  | store
  | storeX
  | alu (op : Arith) (fromX : Bool)
  | neg
  | jump
  | branch (test : Test) (fromX : Bool)
  | returnK
  | returnA
  | tax
  | txa
  | invalid
  deriving DecidableEq

def classMask : BitVec 16 := 0x07#16

def opMask : BitVec 16 := 0xf0#16

def srcX : BitVec 16 := 0x08#16

def decodeLoad (rest : BitVec 16) : Op :=
  if rest = 0x20#16 then .loadAbs
  else if rest = 0x80#16 then .loadLen
  else if rest = 0x00#16 then .loadImm
  else if rest = 0x60#16 then .loadMem
  else .invalid

def decodeLoadX (rest : BitVec 16) : Op :=
  if rest = 0x80#16 then .loadXLen
  else if rest = 0x00#16 then .loadXImm
  else if rest = 0x60#16 then .loadXMem
  else .invalid

def decodeAlu (op : BitVec 16) (fromX : Bool) : Op :=
  if op = 0x00#16 then .alu .add fromX
  else if op = 0x10#16 then .alu .sub fromX
  else if op = 0x20#16 then .alu .mul fromX
  else if op = 0x30#16 then .alu .div fromX
  else if op = 0x40#16 then .alu .or fromX
  else if op = 0x50#16 then .alu .and fromX
  else if op = 0x60#16 then .alu .lsh fromX
  else if op = 0x70#16 then .alu .rsh fromX
  else if op = 0xa0#16 then .alu .xor fromX
  else if op = 0x80#16 ∧ !fromX then .neg
  else .invalid

def decodeJump (op : BitVec 16) (fromX : Bool) : Op :=
  if op = 0x00#16 ∧ !fromX then .jump
  else if op = 0x10#16 then .branch .eq fromX
  else if op = 0x20#16 then .branch .gt fromX
  else if op = 0x30#16 then .branch .ge fromX
  else if op = 0x40#16 then .branch .set fromX
  else .invalid

def decode (code : BitVec 16) : Op :=
  let fromX := code &&& srcX != 0#16
  let cls := code &&& classMask
  let rest := code &&& ~~~classMask
  if cls = 0x00#16 then decodeLoad rest
  else if cls = 0x01#16 then decodeLoadX rest
  else if cls = 0x02#16 ∧ code = 0x02#16 then .store
  else if cls = 0x03#16 ∧ code = 0x03#16 then .storeX
  else if cls = 0x04#16 ∧ code &&& ~~~(classMask ||| opMask ||| srcX) = 0#16 then
    decodeAlu (code &&& opMask) fromX
  else if cls = 0x05#16 ∧ code &&& ~~~(classMask ||| opMask ||| srcX) = 0#16 then
    decodeJump (code &&& opMask) fromX
  else if cls = 0x06#16 then
    if rest = 0x00#16 then .returnK
    else if rest = 0x10#16 then .returnA
    else .invalid
  else if cls = 0x07#16 then
    if rest = 0x00#16 then .tax
    else if rest = 0x80#16 then .txa
    else .invalid
  else .invalid

inductive Invalid where
  | length
  | opcode (index : Nat)
  | offset (index : Nat)
  | jump (index : Nat)
  | memory (index : Nat)
  | arithmetic (index : Nat)
  | uninitialised (index : Nat)
  | noReturn
  | noMemory
  deriving DecidableEq

structure Program where
  insns : List Insn
  deriving DecidableEq

/-- The rules for one instruction; `following` is how many come after it. -/
def checkInsn (insn : Insn) (index following : Nat) : Except Invalid Unit :=
  let constant := insn.code &&& srcX == 0#16
  match decode insn.code with
  | .invalid => .error (.opcode index)
  | .loadAbs =>
    if insn.k.toNat ≥ dataBytes ∨ insn.k.toNat % 4 ≠ 0 then .error (.offset index)
    else .ok ()
  | .loadMem | .loadXMem | .store | .storeX =>
    if insn.k.toNat ≥ memwords then .error (.memory index) else .ok ()
  | .alu .div _ =>
    if constant ∧ insn.k = 0#32 then .error (.arithmetic index) else .ok ()
  | .alu .lsh _ | .alu .rsh _ =>
    if constant ∧ insn.k.toNat ≥ 32 then .error (.arithmetic index) else .ok ()
  | .jump => if insn.k.toNat ≥ following then .error (.jump index) else .ok ()
  | .branch _ _ =>
    if insn.jt.toNat ≥ following ∨ insn.jf.toNat ≥ following then .error (.jump index)
    else .ok ()
  | _ => .ok ()

def checkInsns (len : Nat) : Nat → List Insn → Except Invalid Unit
  | _, [] => .ok ()
  | index, insn :: rest =>
    match checkInsn insn index (len - index - 1) with
    | .error error => .error error
    | .ok () => checkInsns len (index + 1) rest

def scratchWord (insn : Insn) : BitVec 16 := 1#16 <<< (insn.k.toNat % memwords)

def narrow (masks : List (BitVec 16)) (target : Nat) (kept : BitVec 16) :
    List (BitVec 16) :=
  masks.modify target (· &&& kept)

/-- The pass over the scratch words: `valid` is the running set of words
stored, `masks` what every jump to an instruction carried. -/
def checkScratchFrom : List Insn → Nat → List (BitVec 16) → BitVec 16 →
    Except Invalid Unit
  | [], _, _, _ => .ok ()
  | insn :: rest, index, masks, valid =>
    let valid := valid &&& masks[index]?.getD (BitVec.allOnes 16)
    match decode insn.code with
    | .store | .storeX =>
      checkScratchFrom rest (index + 1) masks (valid ||| scratchWord insn)
    | .loadMem | .loadXMem =>
      if valid &&& scratchWord insn = 0#16 then .error (.uninitialised index)
      else checkScratchFrom rest (index + 1) masks valid
    | .jump =>
      checkScratchFrom rest (index + 1)
        (narrow masks (index + 1 + insn.k.toNat) valid) (BitVec.allOnes 16)
    | .branch _ _ =>
      checkScratchFrom rest (index + 1)
        (narrow (narrow masks (index + 1 + insn.jt.toNat) valid)
          (index + 1 + insn.jf.toNat) valid) valid
    | _ => checkScratchFrom rest (index + 1) masks valid

def checkScratch (memory : Allocator) (raw : List Insn) : Except Invalid Unit :=
  match tryReserve memory 0 0 raw.length with
  | none => .error .noMemory
  | some _ => checkScratchFrom raw 0 (List.replicate raw.length (BitVec.allOnes 16)) 0#16

structure Memory where
  masks : Allocator
  copy : Allocator

def Op.isReturn : Op → Bool
  | .returnK | .returnA => true
  | _ => false

def verify (memory : Memory) (raw : List Insn) : Except Invalid Program :=
  if raw.isEmpty ∨ raw.length > maxInsns then .error .length
  else
    match checkInsns raw.length 0 raw with
    | .error error => .error error
    | .ok () =>
      if !(raw.getLast?.any fun last => (decode last.code).isReturn) then
        .error .noReturn
      else
        match checkScratch memory.masks raw with
        | .error error => .error error
        | .ok () =>
          match tryReserve memory.copy 0 0 raw.length with
          | none => .error .noMemory
          | some _ => .ok ⟨raw⟩

structure Machine where
  a : BitVec 32
  x : BitVec 32
  scratch : List (BitVec 32)
  pc : Nat
  deriving DecidableEq

def Machine.start : Machine := ⟨0#32, 0#32, List.replicate memwords 0#32, 0⟩

inductive Outcome where
  | next (machine : Machine)
  | answer (value : BitVec 32)
  deriving DecidableEq

def execute (insn : Insn) (data : SeccompData) (m : Machine) : Outcome :=
  let source := fun fromX : Bool => if fromX then m.x else insn.k
  match decode insn.code with
  | .loadAbs => .next { m with a := (data.word insn.k).getD 0#32 }
  | .loadLen => .next { m with a := BitVec.ofNat 32 dataBytes }
  | .loadImm => .next { m with a := insn.k }
  | .loadMem => .next { m with a := m.scratch[insn.k.toNat]?.getD 0#32 }
  | .loadXLen => .next { m with x := BitVec.ofNat 32 dataBytes }
  | .loadXImm => .next { m with x := insn.k }
  | .loadXMem => .next { m with x := m.scratch[insn.k.toNat]?.getD 0#32 }
  | .store => .next { m with scratch := m.scratch.set insn.k.toNat m.a }
  | .storeX => .next { m with scratch := m.scratch.set insn.k.toNat m.x }
  | .alu op fromX =>
    match op.apply m.a (source fromX) with
    | some result => .next { m with a := result }
    | none => .answer killThread
  | .neg => .next { m with a := -m.a }
  | .jump => .next { m with pc := m.pc + insn.k.toNat }
  | .branch test fromX =>
    .next { m with
      pc := m.pc + (if test.holds m.a (source fromX) then insn.jt else insn.jf).toNat }
  | .returnK => .answer insn.k
  | .returnA => .answer m.a
  | .tax => .next { m with x := m.a }
  | .txa => .next { m with a := m.x }
  | .invalid => .answer killThread

def runFrom (insns : List Insn) (data : SeccompData) :
    Nat → Nat → Machine → BitVec 32 × Nat
  | 0, _, _ => (killThread, insns.length)
  | left + 1, steps, m =>
    match insns[m.pc]? with
    | none => (killThread, steps - 1)
    | some insn =>
      match execute insn data { m with pc := m.pc + 1 } with
      | .next m => runFrom insns data left (steps + 1) m
      | .answer value => (value, steps)

def runCounted (program : Program) (data : SeccompData) : BitVec 32 × Nat :=
  runFrom program.insns data (program.insns.length + 1) 1 .start

def run (program : Program) (data : SeccompData) : BitVec 32 :=
  (runCounted program data).1

end Ferrix.Seccomp.Filter

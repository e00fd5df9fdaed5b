import Ferrix.Seccomp.Filter

/-!
Soundness of the filter verifier: a program it accepts runs within its length and never meets one
of the machine's fallbacks.
-/

namespace Ferrix.Seccomp.Verification

open Foundations.Allocation Seccomp.Filter Function BitVec

def Op.readsScratch : Op → Bool
  | .loadMem | .loadXMem => true
  | _ => false

def Op.writesScratch : Op → Bool
  | .store | .storeX => true
  | _ => false

variable {insn : Insn} {words valid kept : BitVec 16} {masks : List (BitVec 16)} {t i : Nat}

def Within (inner outer : BitVec 16) : Prop :=
  ∀ b, inner.getLsbD b = true → outer.getLsbD b = true

lemma Within.refl (words : BitVec 16) : Within words words := fun _ h => h

lemma within_and {l r : BitVec 16} :
    Within words (l &&& r) ↔ Within words l ∧ Within words r := by
  simp only [Within, getLsbD_and, Bool.and_eq_true, imp_and, forall_and]

lemma scratchWord_eq_twoPow (insn : Insn) :
    scratchWord insn = twoPow 16 (insn.k.toNat % memwords) := rfl

lemma getLsbD_of_and_scratchWord_ne
    (h : ¬ valid &&& scratchWord insn = 0#16) : valid.getLsbD (insn.k.toNat % memwords) = true := by
  rw [scratchWord_eq_twoPow, and_twoPow] at h
  by_contra hbit
  simp [hbit] at h

lemma getLsbD_or_scratchWord {b : Nat} (hk : insn.k.toNat < memwords)
    (h : (valid ||| scratchWord insn).getLsbD b = true) :
    valid.getLsbD b = true ∨ b = insn.k.toNat := by
  rw [getLsbD_or, Bool.or_eq_true, scratchWord_eq_twoPow, getLsbD_twoPow, Nat.mod_eq_of_lt hk] at h
  rcases h with h | h
  · exact .inl h
  · simp only [Bool.and_eq_true, decide_eq_true_eq] at h
    exact .inr h.2.symm

/-- What the sets of words stored at each instruction have to satisfy around
one instruction: a read is covered, and every successor claims no more than
what leaves the instruction. -/
def Flows (valid : Nat → BitVec 16) (index : Nat) (insn : Insn) : Prop :=
  match decode insn.code with
  | .store | .storeX => Within (valid (index + 1)) (valid index ||| scratchWord insn)
  | .loadMem | .loadXMem =>
    (valid index).getLsbD (insn.k.toNat % memwords) = true ∧
      Within (valid (index + 1)) (valid index)
  | .jump => Within (valid (index + 1 + insn.k.toNat)) (valid index)
  | .branch _ _ =>
    Within (valid (index + 1 + insn.jt.toNat)) (valid index) ∧
      Within (valid (index + 1 + insn.jf.toNat)) (valid index)
  | _ => Within (valid (index + 1)) (valid index)

lemma Flows.congr {valid valid' : Nat → BitVec 16}
    (heq : ∀ j, i ≤ j → valid' j = valid j) (hflows : Flows valid i insn) :
    Flows valid' i insn := by
  rw [Flows] at hflows ⊢
  rw [heq i (Nat.le_refl _), heq (i + 1) (by omega),
    heq (i + 1 + insn.k.toNat) (by omega), heq (i + 1 + insn.jt.toNat) (by omega),
    heq (i + 1 + insn.jf.toNat) (by omega)]
  exact hflows

/-- Where an instruction may send the program counter, kept inside `len`. -/
def Targets (len index : Nat) (insn : Insn) : Prop :=
  match decode insn.code with
  | .jump => index + 1 + insn.k.toNat < len
  | .branch _ _ => index + 1 + insn.jt.toNat < len ∧ index + 1 + insn.jf.toNat < len
  | _ => True

lemma getD_narrow_of_lt
    (hlt : t < masks.length) (hwords : Within words ((narrow masks t kept)[t]?.getD (allOnes 16))) :
    Within words kept := by
  rw [narrow, List.getElem?_modify_eq, List.getElem?_eq_getElem hlt] at hwords
  exact (within_and.mp hwords).2

lemma within_of_narrow {j : Nat}
    (hwords : Within words ((narrow masks t kept)[j]?.getD (allOnes 16))) :
    Within words (masks[j]?.getD (allOnes 16)) := by
  rw [narrow, List.getElem?_modify] at hwords
  rcases hmask : masks[j]? with _ | mask
  · rw [hmask] at hwords
    exact hwords
  · rw [hmask] at hwords
    by_cases htarget : t = j
    · simp only [htarget, if_true] at hwords
      exact (within_and.mp hwords).1
    · simpa [htarget] using hwords

lemma flows_extend {valid : Nat → BitVec 16} {index : Nat}
    {rest : List Insn} {held : BitVec 16} (hhead : Flows (update valid index held) index insn)
    (hr : ∀ i later, rest[i]? = some later → Flows valid (index + 1 + i) later) :
    ∀ i later, (insn :: rest)[i]? = some later →
      Flows (update valid index held) (index + i) later := by
  intro i later hg
  cases i with
  | zero =>
    obtain rfl : insn = later := by simpa using hg
    exact hhead
  | succ i =>
    have := hr i later (by simpa using hg)
    rw [show index + (i + 1) = index + 1 + i by omega]
    refine Flows.congr ?_ this
    intro j hj
    exact update_of_ne (by omega) _ _

/-- If the pass over the scratch words accepts, it has found a set of words for
every instruction that is stored on every way to it. -/
theorem checkScratchFrom_spec (insns : List Insn) :
    ∀ (index : Nat) (masks : List (BitVec 16)) (valid : BitVec 16),
      masks.length = index + insns.length → (∀ i insn, insns[i]? = some insn →
        Targets masks.length (index + i) insn) → checkScratchFrom insns index masks valid = .ok () →
      ∃ stored : Nat → BitVec 16, (∀ j, Within (stored j) (masks[j]?.getD (allOnes 16))) ∧
        Within (stored index) valid ∧
        ∀ i insn, insns[i]? = some insn → Flows stored (index + i) insn := by
  induction insns with
  | nil =>
    intro index masks valid _ _ _
    refine ⟨fun _ => 0#16, ?_, ?_, ?_⟩
    · intro j b hb
      simp at hb
    · intro b hb
      simp at hb
    · simp
  | cons insn r ih =>
    intro index masks valid hlen htargets hcheck
    have hhere : Targets masks.length index insn := htargets 0 insn rfl
    have hlater : ∀ i later, r[i]? = some later → Targets masks.length (index + 1 + i) later := by
      intro i later hg
      have := htargets (i + 1) later (by simpa using hg)
      rwa [show index + (i + 1) = index + 1 + i by omega] at this
    have hlen' : masks.length = index + 1 + r.length := by
      rw [hlen, List.length_cons]
      omega
    have hn : ∀ (stored : Nat → BitVec 16) (held : BitVec 16),
        update stored index held (index + 1) = stored (index + 1) :=
      fun stored held => update_of_ne (by omega) _ _
    have hjump : ∀ (stored : Nat → BitVec 16) (held : BitVec 16) (k : Nat),
        update stored index held (index + 1 + k) = stored (index + 1 + k) :=
      fun stored held k => update_of_ne (by omega) _ _
    have hself : ∀ (stored : Nat → BitVec 16) (held : BitVec 16),
        update stored index held index = held :=
      fun stored held => update_self _ _ _
    rw [checkScratchFrom] at hcheck
    obtain ⟨hvalid, hmask⟩ :=
      within_and.mp (Within.refl (valid &&& masks[index]?.getD (allOnes 16)))
    generalize valid &&& masks[index]?.getD (allOnes 16) = held at *
    -- However the instruction narrows the masks, its own words join those of the later ones.
    have finish : ∀ {stored : Nat → BitVec 16},
        (∀ j, Within (stored j) (masks[j]?.getD (allOnes 16))) →
        Flows (update stored index held) index insn →
        (∀ i later, r[i]? = some later → Flows stored (index + 1 + i) later) →
        ∃ stored : Nat → BitVec 16, (∀ j, Within (stored j) (masks[j]?.getD (allOnes 16))) ∧
          Within (stored index) valid ∧
          ∀ i later, (insn :: r)[i]? = some later → Flows stored (index + i) later := by
      intro stored hmasks hflows hr
      refine ⟨update stored index held, ?_, ?_, flows_extend hflows hr⟩
      · intro j
        by_cases hj : j = index
        · subst hj
          rwa [hself]
        · rw [update_of_ne hj]
          exact hmasks j
      · rwa [hself]
    rw [Targets] at hhere
    cases hop : decode insn.code with
    | store | storeX =>
      simp only [hop] at hcheck
      obtain ⟨stored, hmasks, hstart, hr⟩ := ih _ _ _ hlen' hlater hcheck
      refine finish hmasks ?_ hr
      simp only [Flows, hop, hself, hn]
      exact hstart
    | loadMem | loadXMem =>
      simp only [hop] at hcheck
      split at hcheck
      · simp at hcheck
      · rename_i hread
        obtain ⟨stored, hmasks, hstart, hr⟩ := ih _ _ _ hlen' hlater hcheck
        refine finish hmasks ?_ hr
        simp only [Flows, hop, hself, hn]
        exact ⟨getLsbD_of_and_scratchWord_ne hread, hstart⟩
    | jump =>
      simp only [hop] at hcheck hhere
      obtain ⟨stored, hmasks, -, hr⟩ := ih _ _ _ (by simpa [narrow] using hlen')
        (by simpa [narrow] using hlater) hcheck
      refine finish (fun j => within_of_narrow (hmasks j)) ?_ hr
      simp only [Flows, hop, hself, hjump]
      exact getD_narrow_of_lt hhere (hmasks _)
    | branch test fromX =>
      simp only [hop] at hcheck hhere
      obtain ⟨stored, hmasks, -, hr⟩ := ih _ _ _ (by simpa [narrow] using hlen')
        (by simpa [narrow] using hlater) hcheck
      refine finish (fun j => within_of_narrow (within_of_narrow (hmasks j))) ?_ hr
      simp only [Flows, hop, hself, hjump]
      refine ⟨?_, ?_⟩
      · exact getD_narrow_of_lt hhere.1 (within_of_narrow (hmasks _))
      · exact getD_narrow_of_lt (by simpa [narrow] using hhere.2) (hmasks _)
    | loadAbs | loadLen | loadImm | loadXLen | loadXImm | alu _ _ | neg | returnK | returnA
    | tax | txa | invalid =>
      simp only [hop] at hcheck
      obtain ⟨stored, hmasks, hstart, hr⟩ := ih _ _ _ hlen' hlater hcheck
      refine finish hmasks ?_ hr
      simp only [Flows, hop, hself, hn]
      exact hstart

lemma decodeLoad_ne_alu (r : BitVec 16) (arith : Arith) (b : Bool) :
    decodeLoad r ≠ .alu arith b := by
  unfold decodeLoad
  split_ifs <;> simp

lemma decodeLoadX_ne_alu (r : BitVec 16) (arith : Arith) (b : Bool) :
    decodeLoadX r ≠ .alu arith b := by
  unfold decodeLoadX
  split_ifs <;> simp

lemma decodeJump_ne_alu (op : BitVec 16) (fromX : Bool) (arith : Arith) (b : Bool) :
    decodeJump op fromX ≠ .alu arith b := by
  unfold decodeJump
  split_ifs <;> simp

lemma decodeAlu_fromX {op : BitVec 16} {fromX b : Bool} {arith : Arith}
    (h : decodeAlu op fromX = .alu arith b) : b = fromX := by
  unfold decodeAlu at h
  split_ifs at h <;> simp only [Op.alu.injEq] at h <;> exact h.2.symm

lemma decode_alu_fromX {code : BitVec 16} {arith : Arith} {b : Bool}
    (h : decode code = .alu arith b) : b = (code &&& srcX != 0#16) := by
  unfold decode at h
  dsimp only at h
  split at h
  · exact absurd h (decodeLoad_ne_alu _ _ _)
  split at h
  · exact absurd h (decodeLoadX_ne_alu _ _ _)
  split at h
  · simp at h
  split at h
  · simp at h
  split at h
  · exact decodeAlu_fromX h
  split at h
  · exact absurd h (decodeJump_ne_alu _ _ _ _)
  split at h
  · split_ifs at h
  split at h
  · split_ifs at h
  · simp at h

lemma word_isSome (data : SeccompData) {offset : BitVec 32}
    (hlt : offset.toNat < dataBytes) (halign : offset.toNat % 4 = 0) :
    (data.word offset).isSome = true := by
  rw [dataBytes] at hlt
  unfold SeccompData.word
  dsimp only
  split_ifs
  · omega
  · rfl
  · rfl
  · rfl
  · rw [Option.isSome_map, Vector.getElem?_eq_getElem (by omega)]
    rfl
  · omega

structure Checked (insn : Insn) (following : Nat) : Prop where
  valid : decode insn.code ≠ .invalid
  offset : decode insn.code = .loadAbs →
    insn.k.toNat < dataBytes ∧ insn.k.toNat % 4 = 0
  word : Op.readsScratch (decode insn.code) ∨ Op.writesScratch (decode insn.code) →
    insn.k.toNat < memwords
  divisor : decode insn.code = .alu .div false → insn.k ≠ 0#32
  jump : decode insn.code = .jump → insn.k.toNat < following
  branch : ∀ test fromX, decode insn.code = .branch test fromX →
    insn.jt.toNat < following ∧ insn.jf.toNat < following

lemma checkInsn_spec {following : Nat} (hcheck : checkInsn insn i following = .ok ()) :
    Checked insn following := by
  have hdiv : decode insn.code = .alu .div false → (insn.code &&& srcX == 0#16) = true := by
    intro hop
    have := decode_alu_fromX hop
    simpa using this.symm
  unfold checkInsn at hcheck
  constructor
  · intro hop
    simp [hop] at hcheck
  · intro hop
    simp only [hop] at hcheck
    split at hcheck
    · simp at hcheck
    · omega
  · intro hop
    split at hcheck
    all_goals simp_all [Op.readsScratch, Op.writesScratch]
  · intro hop
    simp only [hop, hdiv hop] at hcheck
    split at hcheck
    · simp at hcheck
    · rename_i hne
      intro hzero
      exact hne ⟨trivial, hzero⟩
  · intro hop
    simp only [hop] at hcheck
    split at hcheck
    · simp at hcheck
    · omega
  · intro test fromX hop
    simp only [hop] at hcheck
    split at hcheck
    · simp at hcheck
    · omega

lemma checkInsns_spec {len : Nat} (insns : List Insn) : ∀ j, checkInsns len j insns = .ok () →
      ∀ i insn, insns[i]? = some insn → Checked insn (len - (j + i) - 1) := by
  induction insns with
  | nil => simp
  | cons head r ih =>
    intro j hcheck i insn hg
    rw [checkInsns] at hcheck
    split at hcheck
    · simp at hcheck
    · rename_i hhead
      cases i with
      | zero =>
        obtain rfl : head = insn := by simpa using hg
        exact checkInsn_spec hhead
      | succ i =>
        rw [show j + (i + 1) = j + 1 + i by omega]
        exact ih (j + 1) hcheck i insn (by simpa using hg)

lemma Checked.targets {len : Nat} (hchecked : Checked insn (len - i - 1)) :
    Targets len i insn := by
  unfold Targets
  split
  · rename_i hop
    have := hchecked.jump hop
    omega
  · rename_i test fromX hop
    have := hchecked.branch test fromX hop
    omega
  · trivial

lemma apply_eq_none {op : Arith} {a b : BitVec 32} (h : op.apply a b = none) :
    op = .div ∧ b = 0#32 := by
  cases op
  case div =>
      simp only [Arith.apply] at h
      split at h
      · exact ⟨rfl, ‹_›⟩
      · simp at h
  all_goals simp [Arith.apply] at h

variable {insns : List Insn} {words : Nat → BitVec 16} {stored : List Nat} {m : Machine}

/-- No fallback of the machine is met by `insn`, the words of `stored` having
been stored so far. -/
structure Safe (data : SeccompData) (stored : List Nat) (m : Machine) (insn : Insn) :
    Prop where
  valid : decode insn.code ≠ .invalid
  offset : decode insn.code = .loadAbs → (data.word insn.k).isSome
  word : Op.readsScratch (decode insn.code) ∨ Op.writesScratch (decode insn.code) →
    insn.k.toNat < m.scratch.length
  stored : Op.readsScratch (decode insn.code) → insn.k.toNat ∈ stored

def storedAfter (insn : Insn) (stored : List Nat) : List Nat :=
  if Op.writesScratch (decode insn.code) then insn.k.toNat :: stored else stored

def Stops (insn : Insn) (m : Machine) (value : BitVec 32) : Prop :=
  (decode insn.code = .returnK ∧ value = insn.k) ∨
  (decode insn.code = .returnA ∧ value = m.a) ∨
  (decode insn.code = .alu .div true ∧ m.x = 0#32 ∧ value = killThread)

/-- An execution from a machine, with the words stored before it, that meets no
fallback, and what it answers after how many instructions. -/
inductive SafeRun (insns : List Insn) (data : SeccompData) :
    List Nat → Machine → BitVec 32 → Nat → Prop
  | stop {stored : List Nat} {m : Machine} {insn : Insn} {value : BitVec 32}
      (hfetch : insns[m.pc]? = some insn) (hsafe : Safe data stored m insn)
      (hexecute : execute insn data { m with pc := m.pc + 1 } = .answer value)
      (hstops : Stops insn m value) : SafeRun insns data stored m value 1
  | step {stored : List Nat} {m m' : Machine} {insn : Insn} {value : BitVec 32} {count : Nat}
      (hfetch : insns[m.pc]? = some insn) (hsafe : Safe data stored m insn)
      (hexecute : execute insn data { m with pc := m.pc + 1 } = .next m')
      (hrest : SafeRun insns data (storedAfter insn stored) m' value count) :
      SafeRun insns data stored m value (count + 1)

lemma SafeRun.runFrom_eq {data : SeccompData}
    {value : BitVec 32} {count : Nat} (hrun : SafeRun insns data stored m value count) :
    ∀ extra steps, runFrom insns data (count + extra) (steps + 1) m = (value, steps + count) := by
  induction hrun with
  | stop hfetch _ hexecute _ =>
    intro extra steps
    rw [Nat.add_comm 1 extra, runFrom]
    simp only [hfetch, hexecute]
  | step hfetch _ hexecute _ ih =>
    intro extra steps
    rw [Nat.add_right_comm, runFrom]
    simp only [hfetch, hexecute, ih, Prod.mk.injEq, true_and]
    omega

structure Accepted (insns : List Insn) (words : Nat → BitVec 16) : Prop where
  checked : ∀ (i : Nat) (insn : Insn), insns[i]? = some insn →
    Checked insn (insns.length - i - 1)
  flows : ∀ (i : Nat) (insn : Insn), insns[i]? = some insn → Flows words i insn
  returns : ∀ insn, insns[insns.length - 1]? = some insn →
    (decode insn.code).isReturn = true
  nonempty : 0 < insns.length
  nothing : ∀ b, (words 0).getLsbD b = false

lemma accepted_of_verify {m : Memory} {raw : List Insn} {program : Program}
    (hverify : verify m raw = .ok program) :
    program.insns = raw ∧ ∃ words, Accepted raw words := by
  unfold verify at hverify
  split at hverify
  · simp at hverify
  rename_i hlen
  split at hverify
  · simp at hverify
  rename_i hinsns
  split at hverify
  · simp at hverify
  rename_i hl
  split at hverify
  · simp at hverify
  rename_i hscratch
  split at hverify
  · simp at hverify
  simp only [Except.ok.injEq] at hverify
  subst hverify
  refine ⟨rfl, ?_⟩
  have hchecked : ∀ i insn, raw[i]? = some insn → Checked insn (raw.length - i - 1) := by
    intro i insn hg
    simpa using checkInsns_spec raw 0 hinsns i insn hg
  unfold checkScratch at hscratch
  split at hscratch
  · simp at hscratch
  obtain ⟨words, -, hstart, hflows⟩ := checkScratchFrom_spec raw 0 _ _ (by simp) (by
      intro i insn hg
      rw [List.length_replicate, Nat.zero_add]
      exact (hchecked i insn hg).targets) hscratch
  refine ⟨words, hchecked, by simpa using hflows, ?_, ?_, ?_⟩
  · intro insn hg
    rw [List.getLast?_eq_getElem?, hg] at hl
    simpa using hl
  · rw [List.length_pos_iff]
    intro hnil
    simp [hnil] at hlen
  · intro b
    by_contra hb
    have := hstart b (by simpa using hb)
    simp at this

section

variable (haccepted : Accepted insns words)
include haccepted

lemma execute_accepted (data : SeccompData) (hfetch : insns[m.pc]? = some insn)
    (hstored : ∀ b, (words m.pc).getLsbD b = true → b ∈ stored) :
    (∃ v, execute insn data { m with pc := m.pc + 1 } = .answer v ∧ Stops insn m v) ∨
    ∃ m', execute insn data { m with pc := m.pc + 1 } = .next m' ∧
      m'.scratch.length = m.scratch.length ∧ m.pc < m'.pc ∧ m'.pc < insns.length ∧
      ∀ b, (words m'.pc).getLsbD b = true → b ∈ storedAfter insn stored := by
  have hchecked := haccepted.checked m.pc insn hfetch
  have htargets := hchecked.targets
  have hflows := haccepted.flows m.pc insn hfetch
  have hpc : m.pc < insns.length := by
    by_contra hge
    rw [List.getElem?_eq_none (by omega)] at hfetch
    simp at hfetch
  have hn : (decode insn.code).isReturn = false → m.pc + 1 < insns.length := by
    intro hop
    by_contra hge
    have := haccepted.returns insn (by rwa [show insns.length - 1 = m.pc by omega])
    rw [this] at hop
    exact absurd hop (by decide)
  -- The words stored on arrival are carried on, by `hstore` with the one just written.
  have hkeep : ∀ {t}, Within (words t) (words m.pc) → Op.writesScratch (decode insn.code) = false →
      ∀ b, (words t).getLsbD b = true → b ∈ storedAfter insn stored := by
    intro t hwithin hop b hb
    simpa [storedAfter, hop] using hstored b (hwithin b hb)
  have hstore : Within (words (m.pc + 1)) (words m.pc ||| scratchWord insn) →
      Op.writesScratch (decode insn.code) = true →
      ∀ b, (words (m.pc + 1)).getLsbD b = true → b ∈ storedAfter insn stored := by
    intro hwithin hop b hb
    rw [storedAfter, if_pos hop, List.mem_cons]
    rcases getLsbD_or_scratchWord (hchecked.word (.inr hop)) (hwithin b hb) with hb | hb
    · exact .inr (hstored b hb)
    · exact .inl hb
  unfold Flows at hflows
  unfold Targets at htargets
  unfold execute
  cases hop : decode insn.code with
  | returnK => exact .inl ⟨insn.k, rfl, .inl ⟨hop, rfl⟩⟩
  | returnA => exact .inl ⟨m.a, rfl, .inr (.inl ⟨hop, rfl⟩)⟩
  | invalid => exact absurd hop hchecked.valid
  | alu op fromX =>
    simp only [hop] at hflows hn hkeep ⊢
    cases happly : op.apply m.a (if fromX = true then m.x else insn.k) with
    | some r =>
      exact .inr ⟨_, rfl, rfl, by simp, hn rfl, hkeep hflows rfl⟩
    | none =>
      obtain ⟨rfl, hzero⟩ := apply_eq_none happly
      cases fromX with
      | true => exact .inl ⟨killThread, rfl, .inr (.inr ⟨hop, hzero, rfl⟩)⟩
      | false => exact absurd hzero (hchecked.divisor hop)
  | jump =>
    simp only [hop] at hflows htargets hkeep ⊢
    exact .inr ⟨_, rfl, rfl, by simp; omega, htargets, hkeep hflows rfl⟩
  | branch test fromX =>
    simp only [hop] at hflows htargets hkeep ⊢
    refine .inr ⟨_, rfl, rfl, by simp; omega, ?_⟩
    dsimp only
    cases test.holds m.a (if fromX = true then m.x else insn.k)
    · exact ⟨htargets.2, hkeep hflows.2 rfl⟩
    · exact ⟨htargets.1, hkeep hflows.1 rfl⟩
  | store | storeX =>
    simp only [hop] at hflows hn hstore ⊢
    exact .inr ⟨_, rfl, by simp, by simp, hn rfl, hstore hflows rfl⟩
  | loadMem | loadXMem =>
    simp only [hop] at hflows hn hkeep ⊢
    exact .inr ⟨_, rfl, rfl, by simp, hn rfl, hkeep hflows.2 rfl⟩
  | loadAbs | loadLen | loadImm | loadXLen | loadXImm | neg | tax | txa =>
    simp only [hop] at hflows hn hkeep ⊢
    exact .inr ⟨_, rfl, rfl, by simp, hn rfl, hkeep hflows rfl⟩

lemma safe_of_accepted (data : SeccompData)
    (hfetch : insns[m.pc]? = some insn) (hscratch : m.scratch.length = memwords)
    (hstored : ∀ b, (words m.pc).getLsbD b = true → b ∈ stored) : Safe data stored m insn := by
  have hchecked := haccepted.checked m.pc insn hfetch
  refine ⟨hchecked.valid, ?_, ?_, ?_⟩
  · intro hop
    exact word_isSome data (hchecked.offset hop).1 (hchecked.offset hop).2
  · intro hop
    rw [hscratch]
    exact hchecked.word hop
  · intro hop
    have hflows := haccepted.flows m.pc insn hfetch
    have hread : (words m.pc).getLsbD (insn.k.toNat % memwords) = true := by
      unfold Flows at hflows
      cases hdecode : decode insn.code <;> rw [hdecode] at hop hflows <;>
        first
        | exact hflows.1
        | simp [Op.readsScratch] at hop
    rw [Nat.mod_eq_of_lt (hchecked.word (.inl hop))] at hread
    exact hstored _ hread

lemma exists_safeRun (data : SeccompData) (l : Nat) :
    ∀ (m : Machine) (stored : List Nat), m.pc < insns.length →
      insns.length - m.pc ≤ l → m.scratch.length = memwords →
      (∀ b, (words m.pc).getLsbD b = true → b ∈ stored) →
      ∃ v n, SafeRun insns data stored m v n ∧ n ≤ insns.length - m.pc := by
  induction l with
  | zero =>
    intro m stored hpc hleft
    omega
  | succ l ih =>
    intro m stored hpc hleft hscratch hstored
    have hfetch := List.getElem?_eq_getElem hpc
    have hsafe := safe_of_accepted haccepted data hfetch hscratch hstored
    rcases execute_accepted haccepted data hfetch hstored with
      ⟨v, hexecute, hstops⟩ | ⟨m', hexecute, hlen, hafter, hinside, hwords⟩
    · exact ⟨v, 1, .stop hfetch hsafe hexecute hstops, by omega⟩
    · obtain ⟨v, n, hrun, hn⟩ :=
        ih m' _ hinside (by omega) (hlen.trans hscratch) hwords
      exact ⟨v, n + 1, .step hfetch hsafe hexecute hrun, by omega⟩

end

/-- A program the verifier accepts has, against every call, an execution that
meets no fallback, is no longer than the program, and is what `runCounted`
answers. -/
theorem verify_sound (memory : Memory) (raw : List Insn) (program : Program)
    (data : SeccompData) (hverify : verify memory raw = .ok program) :
    ∃ value count, SafeRun raw data [] Machine.start value count ∧
      count ≤ raw.length ∧ runCounted program data = (value, count) ∧ run program data = value := by
  obtain ⟨rfl, words, haccepted⟩ := accepted_of_verify hverify
  obtain ⟨value, count, hrun, hcount⟩ := exists_safeRun haccepted data _ Machine.start []
    haccepted.nonempty (Nat.le_refl _) rfl (by
      intro b hb
      rw [show Machine.start.pc = 0 from rfl, haccepted.nothing b] at hb
      simp at hb)
  have hcounted : runCounted program data = (value, count) := by
    have := hrun.runFrom_eq (program.insns.length + 1 - count) 0
    rw [runCounted, ← Nat.zero_add count, ← this]
    congr 1
    omega
  refine ⟨value, count, hrun, hcount, hcounted, ?_⟩
  rw [run, hcounted]

def divides : List Insn :=
  [⟨0x20#16, 0#8, 0#8, 0#32⟩, ⟨0x02#16, 0#8, 0#8, 3#32⟩, ⟨0x61#16, 0#8, 0#8, 3#32⟩,
    ⟨0x3c#16, 0#8, 0#8, 0#32⟩, ⟨0x16#16, 0#8, 0#8, 0#32⟩]

theorem verify_sound_divides : ∃ value count,
      SafeRun divides ⟨0#32, 0#32, 0#64, Vector.replicate 6 0#64⟩ [] Machine.start value count ∧
      count ≤ divides.length ∧
      runCounted ⟨divides⟩ ⟨0#32, 0#32, 0#64, Vector.replicate 6 0#64⟩ = (value, count) ∧
      run ⟨divides⟩ ⟨0#32, 0#32, 0#64, Vector.replicate 6 0#64⟩ = value :=
  verify_sound ⟨Allocator.exact, Allocator.exact⟩ divides ⟨divides⟩ _ (by decide)

end Ferrix.Seccomp.Verification

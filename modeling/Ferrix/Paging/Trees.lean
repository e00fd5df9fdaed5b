import Ferrix.Paging.Tables

/-!
What the words of a tree of page tables mean.  A cell of a level is what one descriptor of that
level covers, and a region what one table covers.
-/

namespace Ferrix.Paging.Trees

open Encodings Tables Tables.PhysMem

section

def cell (top level virt : Nat) : Nat := virt / span level % 512 ^ (top + 1 - level)

lemma span_pos (level : Nat) : 0 < span level := Nat.two_pow_pos _

lemma span_succ (level : Nat) : span (level + 1) = span level * 512 := by
  have hshift : shift (level + 1) = shift level + 9 := by
    simp only [shift]
    omega
  rw [span, span, hshift, pow_add]
  rfl

lemma pageSize_dvd_span (level : Nat) : pageSize ∣ span level := by
  rw [span, shift, pow_add]
  exact Nat.dvd_mul_right _ _

variable {top level virt : Nat}

lemma index_eq_cell (hl : level ≤ top) : index level virt = cell top level virt % 512 := by
  have hdvd : 512 ∣ 512 ^ (top + 1 - level) := dvd_pow_self _ (by omega)
  rw [index, cell, Nat.mod_mod_of_dvd _ hdvd, Nat.shiftRight_eq_div_pow]
  exact Nat.and_two_pow_sub_one_eq_mod _ 9

lemma cell_div (hl : level < top) : cell top level virt / 512 = cell top (level + 1) virt := by
  have hpow : 512 ^ (top + 1 - level) = 512 * 512 ^ (top + 1 - (level + 1)) := by
    rw [← pow_succ']
    congr 1
    omega
  rw [cell, cell, hpow, Nat.mod_mul_right_div_self, Nat.div_div_eq_div_mul, ← span_succ]

lemma cell_top_lt : cell top top virt < 512 := by
  have hpow : 512 ^ (top + 1 - top) = 512 := by
    rw [Nat.add_sub_cancel_left, pow_one]
  rw [cell, hpow]
  exact Nat.mod_lt _ (by decide)

end

def word {σ : Type} [PhysMem σ] (memory : σ) (table index : Nat) : Word :=
  read memory (descriptorAddress table index)

section

variable (σ : Type) [PhysMem σ]

/-- What a source of tables promises: a frame it hands out is a whole page, filled with zeroes
and in use for nothing else, and words written into frames in use are read back. -/
structure Contract where
  used : σ → Set Nat
  aligned {memory : σ} {frame : Nat} : frame ∈ used memory → pageSize ∣ frame
  allocate_none {memory after : σ} : allocateTable memory = (none, after) →
    used memory ⊆ used after ∧
      ∀ frame ∈ used memory, ∀ i < entries, word after frame i = word memory frame i
  allocate_some {memory after : σ} {fresh : Nat} : allocateTable memory = (some fresh, after) →
    fresh ∉ used memory ∧ fresh ∈ used after ∧ used memory ⊆ used after ∧
      (∀ i < entries, word after fresh i = 0) ∧
      ∀ frame ∈ used memory, ∀ i < entries, word after frame i = word memory frame i
  write {memory : σ} {frame i : Nat} (value : Word) : frame ∈ used memory → i < entries →
    used memory ⊆ used (write memory (descriptorAddress frame i) value) ∧
      word (write memory (descriptorAddress frame i) value) frame i = value ∧
      ∀ frame' ∈ used memory, ∀ i' < entries, ¬ (frame' = frame ∧ i' = i) →
        word (write memory (descriptorAddress frame i) value) frame' i' = word memory frame' i'
  released_page {memory : σ} (phys level : Nat) :
    used memory ⊆ used (released memory (.page phys level)) ∧
      ∀ frame ∈ used memory, ∀ i < entries,
        word (released memory (.page phys level)) frame i = word memory frame i
  released_table {memory : σ} (table : Nat) :
    used memory \ {table} ⊆ used (released memory (.table table)) ∧
      ∀ frame ∈ used memory \ {table}, ∀ i < entries,
        word (released memory (.table table)) frame i = word memory frame i

end

section

variable {encoding : Encoding} {level frame : Nat} {e : Word}

lemma isPresent_of_absent (hd : encoding.decode level e = .absent) :
    encoding.isPresent e = false := by
  rw [Encoding.decode] at hd
  split_ifs at hd with hpresent
  simpa using hpresent

lemma fields_of_leaf (hd : encoding.decode level e = .leaf frame) :
    encoding.isPresent e = true ∧ encoding.isLeaf e level = true ∧ encoding.address e = frame := by
  rw [Encoding.decode] at hd
  split_ifs at hd with hpresent hleaf
  exact ⟨hpresent, hleaf, Descriptor.leaf.inj hd⟩

lemma fields_of_table (hd : encoding.decode level e = .table frame) :
    encoding.isPresent e = true ∧ encoding.isLeaf e level = false ∧ encoding.address e = frame := by
  rw [Encoding.decode] at hd
  split_ifs at hd with hpresent hleaf
  exact ⟨hpresent, by simpa using hleaf, Descriptor.table.inj hd⟩

lemma decode_table (hpresent : encoding.isPresent e = true)
    (hleaf : ¬ encoding.isLeaf e level = true) :
    encoding.decode level e = .table (encoding.address e) := by
  rw [Encoding.decode, if_pos hpresent, if_neg hleaf]

lemma decode_absent (hpresent : encoding.isPresent e = false) :
    encoding.decode level e = .absent := by
  rw [Encoding.decode, hpresent]
  rfl

variable {σ : Type} [PhysMem σ] {m : σ} {virt table : Nat}

lemma translateFrom_absent
    (hd : encoding.decode level (word m table (index level virt)) = .absent) :
    translateFrom encoding m virt level table = none := by
  have hpresent := isPresent_of_absent hd
  rw [word] at hpresent
  rw [translateFrom.eq_def]
  simp [hpresent]

lemma translateFrom_leaf
    (hd : encoding.decode level (word m table (index level virt)) = .leaf frame) :
    translateFrom encoding m virt level table = checkedAdd frame (virt % span level) := by
  obtain ⟨hpresent, hleaf, haddress⟩ := fields_of_leaf hd
  rw [word] at hpresent hleaf haddress
  rw [translateFrom.eq_def]
  simp only [hpresent, hleaf, haddress, if_true]
  rw [span, Nat.and_two_pow_sub_one_eq_mod]

lemma translateFrom_table
    (hd : encoding.decode (level + 1) (word m table (index (level + 1) virt)) = .table frame) :
    translateFrom encoding m virt (level + 1) table =
      translateFrom encoding m virt level frame := by
  obtain ⟨hpresent, hleaf, haddress⟩ := fields_of_table hd
  rw [word] at hpresent hleaf haddress
  rw [translateFrom.eq_def]
  simp [hpresent, hleaf, haddress]

end

/-- A tree of tables: which frame holds the table of each region of each level. -/
structure Tree {σ : Type} [PhysMem σ] (arch : Architecture) (C : Contract σ)
    (root : Nat) (memory : σ) (tables : Nat → Nat → Option Nat) : Prop where
  root_at : tables arch.encoding.rootLevel 0 = some root
  up : ∀ level region frame, tables level region = some frame →
    level = arch.encoding.rootLevel ∧ region = 0 ∨
      level < arch.encoding.rootLevel ∧
        ∃ parent, tables (level + 1) (region / 512) = some parent ∧
          arch.encoding.decode (level + 1) (word memory parent (region % 512)) =
            .table frame
  down : ∀ level region frame, tables level region = some frame → ∀ i < 512, ∀ child,
    arch.encoding.decode level (word memory frame i) = .table child →
      ∃ lower, level = lower + 1 ∧ tables lower (512 * region + i) = some child
  leaf : ∀ level region frame, tables level region = some frame → ∀ i < 512, ∀ phys,
    arch.encoding.decode level (word memory frame i) = .leaf phys →
      span level ∣ phys ∧ phys + span level ≤ 2 ^ arch.encoding.physBits ∧
        level ≤ Level.gigabyte
  inj : ∀ level region level' region' frame, tables level region = some frame →
    tables level' region' = some frame → level = level' ∧ region = region'
  used : ∀ level region frame, tables level region = some frame → frame ∈ C.used memory

section

variable {σ : Type} [PhysMem σ] {arch : Architecture} {C : Contract σ} {root : Nat} {m m' : σ}
  {tables : Nat → Nat → Option Nat} {virt level region frame : Nat}

def regionOf (arch : Architecture) (level virt : Nat) : Nat :=
  cell arch.encoding.rootLevel level virt / 512

lemma regionOf_root (arch : Architecture) (virt : Nat) :
    regionOf arch arch.encoding.rootLevel virt = 0 :=
  Nat.div_eq_of_lt cell_top_lt

lemma regionOf_lower (hl : level < arch.encoding.rootLevel) :
    regionOf arch level virt = cell arch.encoding.rootLevel (level + 1) virt :=
  cell_div hl

lemma region_add_index (hl : level ≤ arch.encoding.rootLevel) :
    512 * regionOf arch level virt + index level virt =
      cell arch.encoding.rootLevel level virt := by
  rw [regionOf, index_eq_cell hl]
  exact Nat.div_add_mod _ _

lemma index_lt (level virt : Nat) : index level virt < 512 := by
  exact Nat.and_lt_two_pow _ (by decide : 0x1FF < 2 ^ 9)

variable (htree : Tree arch C root m tables)
include htree

lemma Tree.level_le
    (ht : tables level region = some frame) : level ≤ arch.encoding.rootLevel := by
  rcases htree.up _ _ _ ht with ⟨rfl, -⟩ | ⟨hlt, -⟩
  · exact le_rfl
  · exact hlt.le

lemma Tree.translate_eq
    (ht : tables level (regionOf arch level virt) = some frame) (largestBlock : Nat) :
    translate arch.encoding ⟨root, largestBlock⟩ m virt =
      translateFrom arch.encoding m virt level frame := by
  obtain ⟨n, hn⟩ : ∃ n, n = arch.encoding.rootLevel - level := ⟨_, rfl⟩
  induction n generalizing level frame with
  | zero =>
    have hle := htree.level_le ht
    obtain rfl : level = arch.encoding.rootLevel := by omega
    rw [regionOf_root, htree.root_at] at ht
    rw [← Option.some.inj ht, Tables.translate]
  | succ n ih =>
    rcases htree.up _ _ _ ht with ⟨rfl, -⟩ | ⟨hlt, p, hp, hd⟩
    · omega
    · rw [regionOf_lower hlt] at hp hd
      rw [← index_eq_cell hlt] at hd
      rw [ih hp (by omega), translateFrom_table hd]

lemma Tree.lower {child : Nat} (ht : tables level (regionOf arch level virt) = some frame)
    (hd : arch.encoding.decode level (word m frame (index level virt)) = .table child) :
    ∃ lower, level = lower + 1 ∧ tables lower (regionOf arch lower virt) = some child := by
  obtain ⟨lower, rfl, hc⟩ := htree.down _ _ _ ht _ (index_lt level virt) _ hd
  have hl := htree.level_le ht
  rw [region_add_index hl, ← regionOf_lower hl] at hc
  exact ⟨lower, rfl, hc⟩

variable (hsame : ∀ level frame, tables level (regionOf arch level virt) = some frame →
  word m' frame (index level virt) = word m frame (index level virt))
include hsame

lemma Tree.translateFrom_congr (ht : tables level (regionOf arch level virt) = some frame) :
    translateFrom arch.encoding m' virt level frame =
      translateFrom arch.encoding m virt level frame := by
  induction level using Nat.strong_induction_on generalizing frame with
  | _ level ih =>
    cases hd : arch.encoding.decode level (word m frame (index level virt)) with
    | absent =>
      rw [translateFrom_absent hd, translateFrom_absent]
      rw [hsame _ _ ht, hd]
    | leaf phys =>
      rw [translateFrom_leaf hd, translateFrom_leaf]
      rw [hsame _ _ ht, hd]
    | table child =>
      obtain ⟨lower, rfl, hc⟩ := htree.lower ht hd
      rw [translateFrom_table hd, translateFrom_table, ih lower (lt_add_one _) hc]
      rw [hsame _ _ ht, hd]

lemma Tree.translate_congr (largestBlock : Nat) :
    translate arch.encoding ⟨root, largestBlock⟩ m' virt =
      translate arch.encoding ⟨root, largestBlock⟩ m virt := by
  refine htree.translateFrom_congr hsame ?_
  rw [regionOf_root]
  exact htree.root_at

end

variable {σ : Type} [PhysMem σ] {arch : Architecture} {C : Contract σ}
  {root : Nat} {m m' : σ} {tables : Nat → Nat → Option Nat}
  {level region frame i child : Nat} {value : Word}

def SameWords (C : Contract σ) (tables : Nat → Nat → Option Nat) (memory memory' : σ) :
    Prop :=
  ∀ level region frame, tables level region = some frame → frame ∈ C.used memory' ∧
    ∀ i < 512, word memory' frame i = word memory frame i

structure Written (C : Contract σ) (memory memory' : σ) (frame i : Nat) (value : Word) :
    Prop where
  used : C.used memory ⊆ C.used memory'
  new : word memory' frame i = value
  old : ∀ frame' ∈ C.used memory, ∀ i' < 512, ¬ (frame' = frame ∧ i' = i) →
    word memory' frame' i' = word memory frame' i'

lemma written (hused : frame ∈ C.used m) (hi : i < 512) (value : Word) :
    Written C m (write m (descriptorAddress frame i) value) frame i value := by
  obtain ⟨husage, hnew, hold⟩ := C.write value hused hi
  exact ⟨husage, hnew, hold⟩

def setTable (tables : Nat → Nat → Option Nat) (level region : Nat) (frame : Option Nat) :
    Nat → Nat → Option Nat :=
  fun level' region' => if level' = level ∧ region' = region then frame else tables level' region'

lemma setTable_self (tables : Nat → Nat → Option Nat) (level region : Nat)
    (frame : Option Nat) : setTable tables level region frame level region = frame :=
  if_pos ⟨rfl, rfl⟩

lemma setTable_of_ne {level' region' : Nat} {frame : Option Nat}
    (hne : ¬ (level' = level ∧ region' = region)) :
    setTable tables level region frame level' region' = tables level' region' :=
  if_neg hne

variable (htree : Tree arch C root m tables)
include htree

lemma Tree.same (hsame : SameWords C tables m m') : Tree arch C root m' tables where
  root_at := htree.root_at
  up := by
    intro level region frame ht
    rcases htree.up _ _ _ ht with hr | ⟨hlt, p, hp, hd⟩
    · exact .inl hr
    · refine .inr ⟨hlt, p, hp, ?_⟩
      rw [(hsame _ _ _ hp).2 _ (Nat.mod_lt _ (by decide)), hd]
  down := by
    intro level region frame ht i hi child hd
    rw [(hsame _ _ _ ht).2 i hi] at hd
    exact htree.down _ _ _ ht i hi child hd
  leaf := by
    intro level region frame ht i hi phys hd
    rw [(hsame _ _ _ ht).2 i hi] at hd
    exact htree.leaf _ _ _ ht i hi phys hd
  inj := htree.inj
  used := fun _ _ _ ht => (hsame _ _ _ ht).1

lemma Tree.sameWords (hused : C.used m ⊆ C.used m')
    (hwords : ∀ frame ∈ C.used m, ∀ i < 512, word m' frame i = word m frame i) :
    SameWords C tables m m' :=
  fun _ _ _ ht => ⟨hused (htree.used _ _ _ ht), hwords _ (htree.used _ _ _ ht)⟩

lemma Tree.translate_written (ht : tables level region = some frame)
    (hwritten : Written C m m' frame i value) {virt : Nat}
    (hcell : cell arch.encoding.rootLevel level virt ≠ 512 * region + i)
    (largestBlock : Nat) : translate arch.encoding ⟨root, largestBlock⟩ m' virt =
      translate arch.encoding ⟨root, largestBlock⟩ m virt := by
  refine htree.translate_congr (fun level' frame' ht' => ?_) largestBlock
  refine hwritten.old frame' (htree.used _ _ _ ht') _ (index_lt level' virt) ?_
  rintro ⟨rfl, rfl⟩
  obtain ⟨rfl, rfl⟩ := htree.inj _ _ _ _ _ ht' ht
  exact hcell (region_add_index (htree.level_le ht')).symm

lemma Tree.set (ht : tables level region = some frame) (hi : i < 512)
    (hwritten : Written C m m' frame i value)
    (hold : ∀ child, arch.encoding.decode level (word m frame i) ≠ .table child)
    (hnew : ∀ child, arch.encoding.decode level value ≠ .table child)
    (hleaf : ∀ phys, arch.encoding.decode level value = .leaf phys →
      span level ∣ phys ∧ phys + span level ≤ 2 ^ arch.encoding.physBits ∧
        level ≤ Level.gigabyte) : Tree arch C root m' tables where
  root_at := htree.root_at
  up := by
    intro level' region' frame' ht'
    rcases htree.up _ _ _ ht' with hr | ⟨hlt, p, hp, hd⟩
    · exact .inl hr
    · refine .inr ⟨hlt, p, hp, ?_⟩
      rw [hwritten.old _ (htree.used _ _ _ hp) _ (Nat.mod_lt _ (by decide)), hd]
      rintro ⟨rfl, hindex⟩
      obtain ⟨hl, -⟩ := htree.inj _ _ _ _ _ hp ht
      rw [hl, hindex] at hd
      exact hold _ hd
  down := by
    intro level' region' frame' ht' i' hi' child hd
    by_cases hslot : frame' = frame ∧ i' = i
    · obtain ⟨rfl, rfl⟩ := hslot
      obtain ⟨rfl, -⟩ := htree.inj _ _ _ _ _ ht' ht
      rw [hwritten.new] at hd
      exact absurd hd (hnew child)
    · rw [hwritten.old _ (htree.used _ _ _ ht') i' hi' hslot] at hd
      exact htree.down _ _ _ ht' i' hi' child hd
  leaf := by
    intro level' region' frame' ht' i' hi' phys hd
    by_cases hslot : frame' = frame ∧ i' = i
    · obtain ⟨rfl, rfl⟩ := hslot
      obtain ⟨rfl, -⟩ := htree.inj _ _ _ _ _ ht' ht
      rw [hwritten.new] at hd
      exact hleaf phys hd
    · rw [hwritten.old _ (htree.used _ _ _ ht') i' hi' hslot] at hd
      exact htree.leaf _ _ _ ht' i' hi' phys hd
  inj := htree.inj
  used := fun _ _ _ ht' => hwritten.used (htree.used _ _ _ ht')

variable (ht : tables (level + 1) region = some frame)
include ht

lemma Tree.lower_none (hi : i < 512)
    (hno : ∀ child, arch.encoding.decode (level + 1) (word m frame i) ≠ .table child) :
    tables level (512 * region + i) = none := by
  cases hlower : tables level (512 * region + i) with
  | none => rfl
  | some child =>
    have hdiv : (512 * region + i) / 512 = region := by omega
    have hmod : (512 * region + i) % 512 = i := by omega
    have hlt := htree.level_le ht
    rcases htree.up _ _ _ hlower with ⟨rfl, -⟩ | ⟨-, p, hp, hd⟩
    · exact absurd hlt (Nat.not_succ_le_self _)
    · rw [hdiv, ht] at hp
      rw [hmod, ← Option.some.inj hp] at hd
      exact absurd hd (hno child)

lemma Tree.link {fresh : Nat} (hi : i < 512) (hwritten : Written C m m' frame i value)
    (habsent : arch.encoding.decode (level + 1) (word m frame i) = .absent)
    (hv : arch.encoding.decode (level + 1) value = .table fresh)
    (hused : fresh ∈ C.used m) (hfresh : ∀ level region, tables level region ≠ some fresh)
    (hzero : ∀ i < 512, word m fresh i = 0) : Tree arch C root m'
      (setTable tables level (512 * region + i) (some fresh)) := by
  have hlt := htree.level_le ht
  have hdiv : (512 * region + i) / 512 = region := by omega
  have hmod : (512 * region + i) % 512 = i := by omega
  have hnone : tables level (512 * region + i) = none :=
    htree.lower_none ht hi fun child => by simp [habsent]
  have hold : ∀ {level' region' frame'}, tables level' region' = some frame' →
      setTable tables level (512 * region + i) (some fresh) level' region' = some frame' := by
    intro level' region' frame' ht'
    rwa [setTable_of_ne]
    rintro ⟨rfl, rfl⟩
    rw [hnone] at ht'
    cases ht'
  -- Each field below splits on this: the new table, all zero, or one that was there before.
  have hcases : ∀ {level' region' frame'},
      setTable tables level (512 * region + i) (some fresh) level' region' = some frame' →
      level' = level ∧ region' = 512 * region + i ∧ frame' = fresh ∨
        tables level' region' = some frame' := by
    intro level' region' frame' ht'
    rw [setTable] at ht'
    split_ifs at ht' with heq
    · exact .inl ⟨heq.1, heq.2, (Option.some.inj ht').symm⟩
    · exact .inr ht'
  have hzero' : ∀ j < 512, word m' fresh j = 0 := by
    intro j hj
    rw [hwritten.old fresh hused j hj, hzero j hj]
    rintro ⟨rfl, -⟩
    exact hfresh _ _ ht
  refine ⟨hold htree.root_at, ?_, ?_, ?_, ?_, ?_⟩
  · intro level' region' frame' ht'
    rcases hcases ht' with ⟨rfl, rfl, rfl⟩ | ht'
    · refine .inr ⟨hlt, frame, ?_, ?_⟩
      · rw [hdiv]
        exact hold ht
      · rw [hmod, hwritten.new, hv]
    · rcases htree.up _ _ _ ht' with hr | ⟨hlt', p, hp, hd⟩
      · exact .inl hr
      · refine .inr ⟨hlt', p, hold hp, ?_⟩
        rw [hwritten.old _ (htree.used _ _ _ hp) _ (Nat.mod_lt _ (by decide)), hd]
        rintro ⟨rfl, hindex⟩
        obtain ⟨hl, -⟩ := htree.inj _ _ _ _ _ hp ht
        rw [hl, hindex, habsent] at hd
        cases hd
  · intro level' region' frame' ht' i' hi' child hd
    rcases hcases ht' with ⟨rfl, rfl, rfl⟩ | hh
    · rw [hzero' i' hi', decode_zero] at hd
      cases hd
    · by_cases hslot : frame' = frame ∧ i' = i
      · obtain ⟨rfl, rfl⟩ := hslot
        obtain ⟨rfl, rfl⟩ := htree.inj _ _ _ _ _ hh ht
        rw [hwritten.new, hv] at hd
        obtain rfl := Descriptor.table.inj hd
        exact ⟨level, rfl, setTable_self ..⟩
      · rw [hwritten.old _ (htree.used _ _ _ hh) i' hi' hslot] at hd
        obtain ⟨lower, hlower, hc⟩ := htree.down _ _ _ hh i' hi' child hd
        exact ⟨lower, hlower, hold hc⟩
  · intro level' region' frame' ht' i' hi' phys hd
    rcases hcases ht' with ⟨rfl, rfl, rfl⟩ | hh
    · rw [hzero' i' hi', decode_zero] at hd
      cases hd
    · by_cases hslot : frame' = frame ∧ i' = i
      · obtain ⟨rfl, rfl⟩ := hslot
        obtain ⟨rfl, -⟩ := htree.inj _ _ _ _ _ hh ht
        rw [hwritten.new, hv] at hd
        cases hd
      · rw [hwritten.old _ (htree.used _ _ _ hh) i' hi' hslot] at hd
        exact htree.leaf _ _ _ hh i' hi' phys hd
  · intro level₁ region₁ level₂ region₂ frame' htable₁ htable₂
    rcases hcases htable₁ with ⟨rfl, rfl, rfl⟩ | hheld₁ <;>
      rcases hcases htable₂ with ⟨rfl, rfl, heq⟩ | hheld₂
    · exact ⟨rfl, rfl⟩
    · exact absurd hheld₂ (hfresh _ _)
    · exact absurd (heq ▸ hheld₁) (hfresh _ _)
    · exact htree.inj _ _ _ _ _ hheld₁ hheld₂
  · intro level' region' frame' ht'
    rcases hcases ht' with ⟨-, -, rfl⟩ | ht'
    · exact hwritten.used hused
    · exact hwritten.used (htree.used _ _ _ ht')

lemma Tree.unlink (hi : i < 512) (hwritten : Written C m m' frame i 0)
    (hc : tables level (512 * region + i) = some child)
    (he : ∀ j < 512, arch.encoding.decode level (word m child j) = .absent) :
    Tree arch C root m' (setTable tables level (512 * region + i) none) := by
  have hlt := htree.level_le ht
  have hcases : ∀ {level' region' frame'},
      setTable tables level (512 * region + i) none level' region' = some frame' →
      ¬ (level' = level ∧ region' = 512 * region + i) ∧ tables level' region' = some frame' := by
    intro level' region' frame' ht'
    rw [setTable] at ht'
    split_ifs at ht' with heq
    exact ⟨heq, ht'⟩
  have hslot : ∀ {level' region' frame' i' : Nat}, tables (level' + 1) region' = some frame' →
      i' < 512 → frame' = frame ∧ i' = i →
        level' = level ∧ 512 * region' + i' = 512 * region + i := by
    rintro level' region' frame' i' ht' - ⟨rfl, rfl⟩
    obtain ⟨hl, rfl⟩ := htree.inj _ _ _ _ _ ht' ht
    exact ⟨Nat.succ.inj hl, rfl⟩
  constructor
  · rw [setTable_of_ne, htree.root_at]
    rintro ⟨rfl, -⟩
    exact absurd hlt (Nat.not_succ_le_self _)
  · intro level' region' frame' ht'
    obtain ⟨hne, ht'⟩ := hcases ht'
    rcases htree.up _ _ _ ht' with hroot | ⟨hlt', p, hp, hd⟩
    · exact .inl hroot
    · have hsplit : 512 * (region' / 512) + region' % 512 = region' := Nat.div_add_mod _ _
      refine .inr ⟨hlt', p, ?_, ?_⟩
      · rwa [setTable_of_ne]
        rintro ⟨hl, hr⟩
        rw [hl, hr, hc] at hp
        rw [hl, ← Option.some.inj hp, he _ (Nat.mod_lt _ (by decide))] at hd
        cases hd
      · rw [hwritten.old _ (htree.used _ _ _ hp) _ (Nat.mod_lt _ (by decide)), hd]
        intro hat
        obtain ⟨hl, hr⟩ := hslot hp (Nat.mod_lt _ (by decide)) hat
        exact hne ⟨hl, hsplit.symm.trans hr⟩
  · intro level' region' frame' ht' i' hi' child' hd
    have hh := (hcases ht').2
    by_cases hat : frame' = frame ∧ i' = i
    · rw [hat.1, hat.2, hwritten.new, decode_zero] at hd
      cases hd
    · rw [hwritten.old _ (htree.used _ _ _ hh) i' hi' hat] at hd
      obtain ⟨lower, rfl, hlower⟩ := htree.down _ _ _ hh i' hi' child' hd
      refine ⟨lower, rfl, ?_⟩
      rwa [setTable_of_ne]
      rintro ⟨rfl, hr⟩
      obtain ⟨rfl, rfl⟩ : region' = region ∧ i' = i := by omega
      exact hat ⟨Option.mem_unique hh ht, rfl⟩
  · intro level' region' frame' ht' i' hi' phys hd
    obtain ⟨-, ht'⟩ := hcases ht'
    by_cases hat : frame' = frame ∧ i' = i
    · rw [hat.1, hat.2, hwritten.new, decode_zero] at hd
      cases hd
    · rw [hwritten.old _ (htree.used _ _ _ ht') i' hi' hat] at hd
      exact htree.leaf _ _ _ ht' i' hi' phys hd
  · intro level₁ region₁ level₂ region₂ frame' htable₁ htable₂
    exact htree.inj _ _ _ _ _ (hcases htable₁).2 (hcases htable₂).2
  · intro level' region' frame' ht'
    exact hwritten.used (htree.used _ _ _ (hcases ht').2)

end Ferrix.Paging.Trees

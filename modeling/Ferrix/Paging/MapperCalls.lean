import Ferrix.Paging.Trees

namespace Ferrix.Paging.MapperCalls

open Encodings Tables Tables.PhysMem Trees

variable {σ : Type} [PhysMem σ] {arch : Architecture} {C : Contract σ}
  {root phys : Nat} {m m' : σ} {tables : Nat → Nat → Option Nat} {flags : MapFlags}
variable {mapper : Mapper}

def look (arch : Architecture) (root : Nat) (memory : σ) (virt : Nat) : Option Nat :=
  translate arch.encoding (Mapper.new root) memory virt

def cellOf (arch : Architecture) (level virt : Nat) : Nat :=
  cell arch.encoding.rootLevel level virt

/-- Memory with a record of the frames it has handed out for tables, the newest first. -/
structure Recorded (σ : Type) where
  memory : σ
  handed : List Nat

instance : PhysMem (Recorded σ) where
  read recorded address := read recorded.memory address
  write recorded address value := ⟨write recorded.memory address value, recorded.handed⟩
  allocateTable recorded :=
    match allocateTable recorded.memory with
    | (none, memory) => (none, ⟨memory, recorded.handed⟩)
    | (some frame, memory) => (some frame, ⟨memory, frame :: recorded.handed⟩)
  released recorded frame := ⟨released recorded.memory frame, recorded.handed⟩

/-- The frames are ones a descriptor can hold. -/
def Fits (arch : Architecture) (frames : List Nat) : Prop :=
  ∀ frame ∈ frames, frame < 2 ^ arch.encoding.physBits

lemma Fits.of_subset {frames frames' : List Nat} (hfits : Fits arch frames')
    (hsub : frames ⊆ frames') : Fits arch frames :=
  fun frame hframe => hfits frame (hsub hframe)

namespace Recorded

lemma read_mk (m : σ) (handed : List Nat) (address : Nat) :
    read (Recorded.mk m handed) address = read m address := rfl

lemma write_mk (m : σ) (handed : List Nat) (address : Nat) (value : Word) :
    write (Recorded.mk m handed) address value = ⟨write m address value, handed⟩ := rfl

lemma allocate_none (hallocate : allocateTable m = (none, m')) (handed : List Nat) :
    allocateTable (Recorded.mk m handed) = (none, ⟨m', handed⟩) := by
  change (match allocateTable m with | (none, memory) => _ | (some frame, memory) => _) = _
  rw [hallocate]

lemma allocate_some {frame : Nat} (hallocate : allocateTable m = (some frame, m'))
    (handed : List Nat) :
    allocateTable (Recorded.mk m handed) = (some frame, ⟨m', frame :: handed⟩) := by
  change (match allocateTable m with | (none, memory) => _ | (some frame, memory) => _) = _
  rw [hallocate]

end Recorded

/-- A mapping on recorded memory is the mapping, with what it was handed put on the record. -/
theorem mapFrom_recorded (encoding : Encoding) (virt phys target : Nat) (flags : MapFlags)
    (level table : Nat) (m : σ) (taken : List Nat) : ∃ taken', taken ⊆ taken' ∧
      mapFrom encoding virt phys target flags level table (Recorded.mk m taken) =
        ((mapFrom encoding virt phys target flags level table m).1,
          ⟨(mapFrom encoding virt phys target flags level table m).2, taken'⟩) := by
  induction level using Nat.strong_induction_on generalizing table m taken with
  | _ level ih =>
    rw [mapFrom.eq_def, mapFrom.eq_def]
    dsimp only [Recorded.read_mk, Recorded.write_mk]
    split_ifs
    · exact ⟨taken, List.Subset.refl _, rfl⟩
    · cases level with
      | zero => exact ⟨taken, List.Subset.refl _, rfl⟩
      | succ level => exact ih level (lt_add_one _) ..
    · rcases hallocate : allocateTable m with ⟨none | fresh, after⟩
      · rw [Recorded.allocate_none hallocate]
        exact ⟨taken, List.Subset.refl _, rfl⟩
      · rw [Recorded.allocate_some hallocate]
        cases level with
        | zero => exact ⟨_, List.subset_cons_self _ _, rfl⟩
        | succ level =>
          obtain ⟨taken', hsub, heq⟩ := ih level (lt_add_one _) fresh _ (fresh :: taken)
          exact ⟨taken', List.Subset.trans (List.subset_cons_self _ _) hsub, heq⟩
    · exact ⟨taken, List.Subset.refl _, rfl⟩
    · exact ⟨taken, List.Subset.refl _, rfl⟩

lemma taken_subset_mapFrom (encoding : Encoding) (virt phys target : Nat) (flags : MapFlags)
    (level table : Nat) (m : σ) (taken : List Nat) : taken ⊆
      (mapFrom encoding virt phys target flags level table (Recorded.mk m taken)).2.handed := by
  obtain ⟨taken', hsub, heq⟩ := mapFrom_recorded encoding virt phys target flags level table m taken
  rwa [heq]

lemma mapOne_recorded (encoding : Encoding) (mapper : Mapper) (virt phys target : Nat)
    (flags : MapFlags) (m : σ) (taken : List Nat) : ∃ taken', taken ⊆ taken' ∧
      mapOne encoding mapper virt phys target flags (Recorded.mk m taken) =
        ((mapOne encoding mapper virt phys target flags m).1,
          ⟨(mapOne encoding mapper virt phys target flags m).2, taken'⟩) :=
  mapFrom_recorded encoding virt phys target flags encoding.rootLevel mapper.root m taken

lemma rootLevel_bounds (arch : Architecture) : Level.gigabyte ≤ arch.encoding.rootLevel ∧
      arch.encoding.rootLevel ≤ Level.root := by
  cases arch <;> decide

section

variable {level virt frame virt' : Nat} {value : Word}

section

variable (htree : Tree arch C root m tables)
include htree

section

variable (ht : tables level (regionOf arch level virt) = some frame)
include ht

lemma look_absent (hd : arch.encoding.decode level (word m frame (index level virt)) = .absent) :
    look arch root m virt = none :=
  (htree.translate_eq ht _).trans (translateFrom_absent hd)

lemma look_leaf (hd : arch.encoding.decode level (word m frame (index level virt)) = .leaf phys) :
    look arch root m virt = some (phys + virt % span level) := by
  obtain ⟨-, hroom, -⟩ := htree.leaf _ _ _ ht _ (index_lt level virt) _ hd
  have hlt : phys + virt % span level < 2 ^ 64 := by
    have hmod := Nat.mod_lt virt (span_pos level)
    have hbits := Nat.pow_le_pow_right (by decide : 0 < 2) (fields arch).physBits_le
    omega
  refine (htree.translate_eq ht _).trans ((translateFrom_leaf hd).trans ?_)
  rw [checkedAdd, if_pos hlt]

lemma look_written (hwritten : Written C m m' frame (index level virt) value)
    (hcell : cellOf arch level virt' ≠ cellOf arch level virt) :
    look arch root m' virt' = look arch root m virt' := by
  refine htree.translate_written ht hwritten ?_ _
  rw [region_add_index (htree.level_le ht)]
  exact hcell

end

lemma look_same (hsame : SameWords C tables m m') (virt : Nat) :
    look arch root m' virt = look arch root m virt :=
  htree.translate_congr (fun _ _ ht => (hsame _ _ _ ht).2 _ (index_lt _ _)) _

end

lemma same_slot (hl : level ≤ arch.encoding.rootLevel)
    (hcell : cellOf arch level virt' = cellOf arch level virt) :
    regionOf arch level virt' = regionOf arch level virt ∧
      index level virt' = index level virt := by
  rw [cellOf, cellOf] at hcell
  rw [regionOf, regionOf, index_eq_cell hl, index_eq_cell hl, hcell]
  exact ⟨rfl, rfl⟩

end

def Keeps (arch : Architecture) (C : Contract σ) (root : Nat) (memory memory' : σ) :
    Prop :=
  (∃ tables, Tree arch C root memory' tables) ∧
    ∀ virt, look arch root memory' virt = look arch root memory virt

lemma keeps_self (htree : Tree arch C root m tables) : Keeps arch C root m m :=
  ⟨⟨tables, htree⟩, fun _ => rfl⟩

section

variable {level virt phys target table : Nat}

def Maps (arch : Architecture) (C : Contract σ) (root : Nat) (memory : σ)
    (virt phys target : Nat) (result : Except MapError Unit × σ) : Prop :=
  match result.1 with
  | .error _ => Keeps arch C root memory result.2
  | .ok () => (∃ tables, Tree arch C root result.2 tables) ∧
      ∀ virt', if cellOf arch target virt' = cellOf arch target virt then
          look arch root memory virt' = none ∧
            look arch root result.2 virt' = some (phys + virt' % span target)
        else look arch root result.2 virt' = look arch root memory virt'

lemma Maps.of_keeps {result : Except MapError Unit × σ} (hkeeps : Keeps arch C root m m')
    (hmaps : Maps arch C root m' virt phys target result) :
    Maps arch C root m virt phys target result := by
  obtain ⟨-, hlook⟩ := hkeeps
  rcases result with ⟨e | ⟨⟩, after⟩
  · exact ⟨hmaps.1, fun v => (hmaps.2 v).trans (hlook v)⟩
  · refine ⟨hmaps.1, fun v => ?_⟩
    have hv := hmaps.2 v
    rw [hlook] at hv
    exact hv

lemma link_keeps (flags : MapFlags) (htree : Tree arch C root m tables)
    (ht : tables (level + 1) (regionOf arch (level + 1) virt) = some table)
    (hd : arch.encoding.decode (level + 1) (word m table (index (level + 1) virt)) = .absent)
    {fresh : Nat} {after : σ} (hallocate : allocateTable m = (some fresh, after))
    (hfits : fresh < 2 ^ arch.encoding.physBits) :
    let linked := write after (descriptorAddress table (index (level + 1) virt))
      (arch.encoding.tableDescriptor fresh flags)
    Keeps arch C root m linked ∧ ∃ tables, Tree arch C root linked tables ∧
        tables level (regionOf arch level virt) = some fresh := by
  intro linked
  obtain ⟨hnot, hused, hsub, hzero, hsame⟩ := C.allocate_some hallocate
  have hsame' := htree.sameWords hsub hsame
  have htree' := htree.same hsame'
  have hlevel := htree.level_le ht
  have hword := hsame _ (htree.used _ _ _ ht) _ (index_lt (level + 1) virt)
  have hvalue : arch.encoding.decode (level + 1)
      (arch.encoding.tableDescriptor fresh flags) = .table fresh :=
    decode_tableDescriptor arch (hlevel.trans (rootLevel_bounds arch).2)
      (Nat.succ_ne_zero _) (C.aligned hused) hfits
  have hwritten : Written C after linked table (index (level + 1) virt)
      (arch.encoding.tableDescriptor fresh flags) :=
    written (htree'.used _ _ _ ht) (index_lt _ _) _
  have habsent : arch.encoding.decode (level + 1)
      (word after table (index (level + 1) virt)) = .absent := by
    rw [hword, hd]
  have hfresh : ∀ level r, tables level r ≠ some fresh :=
    fun _ _ ht' => hnot (htree.used _ _ _ ht')
  have hlinked := htree'.link ht (index_lt _ _) hwritten habsent hvalue hused hfresh hzero
  rw [region_add_index hlevel, ← regionOf_lower hlevel] at hlinked
  have hat : setTable tables level (regionOf arch level virt) (some fresh) level
      (regionOf arch level virt) = some fresh := setTable_self ..
  refine ⟨⟨⟨_, hlinked⟩, fun v => ?_⟩, _, hlinked, hat⟩
  rcases ne_or_eq (cellOf arch (level + 1) v) (cellOf arch (level + 1) virt)
    with hcell | hcell
  · exact (look_written htree' ht hwritten hcell).trans (look_same htree hsame' v)
  · obtain ⟨hr, hindex⟩ := same_slot hlevel hcell
    have hbefore : look arch root m v = none := by
      refine look_absent htree (hr ▸ ht) ?_
      rw [hindex, hd]
    have hlower : setTable tables level (regionOf arch level virt) (some fresh) level
        (regionOf arch level v) = some fresh := by
      rw [cellOf, cellOf, ← regionOf_lower hlevel, ← regionOf_lower hlevel] at hcell
      rw [hcell, setTable_self]
    have hne : ¬ (fresh = table ∧ index level v = index (level + 1) virt) :=
      fun heq => hfresh _ _ (heq.1 ▸ ht)
    rw [hbefore]
    refine look_absent hlinked hlower ?_
    rw [hwritten.old _ hused _ (index_lt _ _) hne, hzero _ (index_lt _ _)]
    exact decode_zero arch level

variable (hgrants : arch.Grants flags) (htarget : target ≤ Level.gigabyte)
  (hphys : span target ∣ phys) (hroom : phys + span target ≤ 2 ^ arch.encoding.physBits)
include hgrants htarget hphys hroom

section

variable (htree : Tree arch C root m tables)
  (ht : tables target (regionOf arch target virt) = some table)
include htree ht

lemma write_leaf (hold : ∀ child, arch.encoding.decode target
      (word m table (index target virt)) ≠ .table child) :
    let written := write m (descriptorAddress table (index target virt))
      (arch.encoding.leafDescriptor phys target flags)
    Tree arch C root written tables ∧ ∀ v, look arch root written v =
        if cellOf arch target v = cellOf arch target virt then
          some (phys + v % span target)
        else look arch root m v := by
  intro written
  have hvalue : arch.encoding.decode target
      (arch.encoding.leafDescriptor phys target flags) = .leaf phys := by
    refine decode_leafDescriptor arch htarget hgrants ((pageSize_dvd_span target).trans hphys) ?_
    have hpos := span_pos target
    omega
  have hwritten : Written C m written table (index target virt)
      (arch.encoding.leafDescriptor phys target flags) :=
    Trees.written (htree.used _ _ _ ht) (index_lt target virt) _
  have hset := htree.set ht (index_lt _ _) hwritten hold (by simp [hvalue]) (by
      intro phys' hphys'
      rw [hvalue] at hphys'
      obtain rfl := Descriptor.leaf.inj hphys'
      exact ⟨hphys, hroom, htarget⟩)
  refine ⟨hset, fun v => ?_⟩
  split_ifs with hcell
  · obtain ⟨hr, hindex⟩ := same_slot (htree.level_le ht) hcell
    refine look_leaf hset (hr ▸ ht) ?_
    rw [hindex, hwritten.new, hvalue]
  · exact look_written htree ht hwritten hcell

lemma install_maps
    (hd : arch.encoding.decode target (word m table (index target virt)) = .absent) :
    Maps arch C root m virt phys target
      (.ok (), write m (descriptorAddress table (index target virt))
        (arch.encoding.leafDescriptor phys target flags)) := by
  obtain ⟨hset, hlook⟩ := write_leaf hgrants htarget hphys hroom htree ht (by simp [hd])
  refine ⟨⟨_, hset⟩, fun v => ?_⟩
  have hv := hlook v
  split_ifs at hv ⊢ with hcell
  · obtain ⟨hr, hindex⟩ := same_slot (htree.level_le ht) hcell
    refine ⟨look_absent htree (hr ▸ ht) ?_, hv⟩
    rw [hindex, hd]
  · exact hv

end

lemma mapFrom_spec (hlevel : target ≤ level) (htree : Tree arch C root m tables)
    (ht : tables level (regionOf arch level virt) = some table) {taken : List Nat}
    (hfits : Fits arch
      (mapFrom arch.encoding virt phys target flags level table (Recorded.mk m taken)).2.handed) :
    Maps arch C root m virt phys target
      (mapFrom arch.encoding virt phys target flags level table m) := by
  induction level using Nat.strong_induction_on generalizing table m tables taken with
  | _ level ih =>
    rw [mapFrom.eq_def] at hfits ⊢
    dsimp only [Recorded.read_mk, Recorded.write_mk] at hfits ⊢
    split
    · rename_i hgt
      rw [if_pos hgt] at hfits
      split_ifs at hfits ⊢ with hpresent hleaf
      · exact keeps_self htree
      · obtain ⟨lower, rfl, hchild⟩ := htree.lower ht (decode_table hpresent hleaf)
        exact ih lower (lt_add_one _) (Nat.lt_succ_iff.mp hgt) htree hchild hfits
      · obtain ⟨lower, rfl⟩ := Nat.exists_eq_add_one_of_ne_zero (Nat.ne_zero_of_lt hgt)
        have hd : arch.encoding.decode (lower + 1)
            (word m table (index (lower + 1) virt)) = .absent :=
          decode_absent (by simpa [word] using hpresent)
        split
        · rename_i after hallocate
          obtain ⟨hused, hwords⟩ := C.allocate_none hallocate
          have hsame := htree.sameWords hused hwords
          exact ⟨⟨tables, htree.same hsame⟩, look_same htree hsame⟩
        · rename_i fresh after hallocate
          rw [Recorded.allocate_some hallocate taken] at hfits
          have hfresh := hfits.of_subset (taken_subset_mapFrom ..) fresh List.mem_cons_self
          obtain ⟨hkeeps, tables', htree', ht'⟩ :=
            link_keeps flags htree ht hd hallocate hfresh
          exact .of_keeps hkeeps
            (ih lower (lt_add_one _) (Nat.lt_succ_iff.mp hgt) htree' ht' hfits)
    · obtain rfl : target = level := by omega
      split_ifs with hpresent
      · exact keeps_self htree
      · exact install_maps hgrants htarget hphys hroom htree ht
          (decode_absent (by simpa [word] using hpresent))

lemma mapOne_spec (virt : Nat) (htree : Tree arch C mapper.root m tables) (taken : List Nat)
    (hfits : Fits arch
      (mapOne arch.encoding mapper virt phys target flags (Recorded.mk m taken)).2.handed) :
    Maps arch C mapper.root m virt phys target
      (mapOne arch.encoding mapper virt phys target flags m) := by
  refine mapFrom_spec hgrants htarget hphys hroom
    (htarget.trans (rootLevel_bounds arch).1) htree ?_ hfits
  rw [regionOf_root]
  exact htree.root_at

end

variable {level virt table frame : Nat} {path : List Step}

/-- The steps of a walk down to the table of a level, deepest first. -/
def PathTo (arch : Architecture) (tables : Nat → Nat → Option Nat) (virt : Nat) :
    Nat → List Step → Prop
  | level, [] => level = arch.encoding.rootLevel
  | level, step :: path =>
    tables level (regionOf arch level virt) = some step.table ∧
      tables (level + 1) (regionOf arch (level + 1) virt) = some step.parent ∧
      step.slot = index (level + 1) virt ∧ PathTo arch tables virt (level + 1) path

lemma PathTo.length (hpath : PathTo arch tables virt level path) :
    level + path.length = arch.encoding.rootLevel := by
  induction path generalizing level with
  | nil => exact hpath
  | cons t path ih =>
    have hr := ih hpath.2.2.2
    rw [List.length_cons]
    omega

lemma PathTo.congr {tables' : Nat → Nat → Option Nat} (hpath : PathTo arch tables virt level path)
    (hsame : ∀ level' ≥ level, ∀ r, tables' level' r = tables level' r) :
    PathTo arch tables' virt level path := by
  induction path generalizing level with
  | nil => exact hpath
  | cons t path ih =>
    obtain ⟨ht, hp, hslot, hr⟩ := hpath
    refine ⟨?_, ?_, hslot, ih hr fun level' hle => hsame level' (Nat.le_of_succ_le hle)⟩
    · rw [hsame level le_rfl, ht]
    · rw [hsame (level + 1) (Nat.le_succ _), hp]

def Finds (arch : Architecture) (memory : σ) (tables : Nat → Nat → Option Nat)
    (virt : Nat) : Except MapError Found × List Step → Prop
  | (.ok (.hole level), path) =>
    ∃ frame, tables level (regionOf arch level virt) = some frame ∧
      arch.encoding.decode level (word memory frame (index level virt)) = .absent ∧
      PathTo arch tables virt level path
  | (.ok (.leaf slot entry level), path) =>
    ∃ frame, tables level (regionOf arch level virt) = some frame ∧
      slot = descriptorAddress frame (index level virt) ∧
      entry = word memory frame (index level virt) ∧
      arch.encoding.decode level entry = .leaf (arch.encoding.address entry) ∧
      PathTo arch tables virt level path
  | (.error _, _) => False

section

variable (htree : Tree arch C root m tables)
include htree

lemma findLeafFrom_spec (ht : tables level (regionOf arch level virt) = some table)
    (hpath : PathTo arch tables virt level path) : Finds arch m tables virt
      (findLeafFrom arch.encoding m virt level table path) := by
  induction level using Nat.strong_induction_on generalizing table path with
  | _ level ih =>
    rw [findLeafFrom.eq_def]
    dsimp only
    split_ifs with hpresent hleaf
    · refine ⟨table, ht, rfl, rfl, ?_, hpath⟩
      rw [Encoding.decode, if_pos hpresent, if_pos hleaf]
    · obtain ⟨lower, rfl, hchild⟩ := htree.lower ht (decode_table hpresent hleaf)
      have hshort : path.length < 3 := by
        have hlen := hpath.length
        have hroot := (rootLevel_bounds arch).2
        simp only [Level.root] at hroot
        omega
      rw [pushStep, if_pos hshort]
      exact ih lower (lt_add_one _) hchild ⟨hchild, ht, rfl, hpath⟩
    · exact ⟨table, ht, decode_absent (by simpa [word] using hpresent), hpath⟩

omit htree in
lemma findLeaf_spec (htree : Tree arch C mapper.root m tables) (virt : Nat) :
    Finds arch m tables virt (findLeaf arch.encoding mapper m virt) := by
  refine findLeafFrom_spec htree ?_ rfl
  rw [regionOf_root]
  exact htree.root_at

lemma unlink_keeps (ht : tables (level + 1) (regionOf arch (level + 1) virt) = some frame)
    (hc : tables level (regionOf arch level virt) = some table)
    (he : ∀ j < 512, arch.encoding.decode level (word m table j) = .absent) :
    let unlinked := write m (descriptorAddress frame (index (level + 1) virt)) 0
    Tree arch C root unlinked (setTable tables level (regionOf arch level virt) none) ∧
      ∀ v, look arch root unlinked v = look arch root m v := by
  intro unlinked
  have hl := htree.level_le ht
  have hr : 512 * regionOf arch (level + 1) virt + index (level + 1) virt =
      regionOf arch level virt := by
    rw [region_add_index hl, regionOf_lower hl]
  have hwritten : Written C m unlinked frame (index (level + 1) virt) 0 :=
    written (htree.used _ _ _ ht) (index_lt _ _) _
  have hunlinked := htree.unlink ht (index_lt _ _) hwritten (hr ▸ hc) he
  rw [hr] at hunlinked
  refine ⟨hunlinked, fun v => ?_⟩
  rcases ne_or_eq (cellOf arch (level + 1) v) (cellOf arch (level + 1) virt)
    with hcell | hcell
  · exact look_written htree ht hwritten hcell
  · obtain ⟨hsame, hi⟩ := same_slot hl hcell
    rw [cellOf, cellOf, ← regionOf_lower hl, ← regionOf_lower hl] at hcell
    have hbefore : look arch root m v = none :=
      look_absent htree (hcell ▸ hc) (he _ (index_lt _ _))
    have hp : setTable tables level (regionOf arch level virt) none (level + 1)
        (regionOf arch (level + 1) v) = some frame := by
      rw [setTable_of_ne (fun heq => Nat.succ_ne_self _ heq.1), hsame, ht]
    rw [hbefore]
    refine look_absent hunlinked hp ?_
    rw [hi, hwritten.new]
    exact decode_zero arch _

omit htree in
lemma release_table_same {r : Nat} (htree : Tree arch C root m (setTable tables level r none))
    (hinj : ∀ level' r', tables level' r' = some table → level' = level ∧ r' = r) :
    SameWords C (setTable tables level r none) m (released m (.table table)) := by
  intro level' r' frame' ht'
  have hm : frame' ∈ C.used m \ {table} := by
    refine ⟨htree.used _ _ _ ht', ?_⟩
    rintro rfl
    rw [setTable] at ht'
    split_ifs at ht' with heq
    exact heq (hinj _ _ ht')
  exact ⟨(C.released_table table).1 hm, (C.released_table table).2 _ hm⟩

lemma prune_spec (hpath : PathTo arch tables virt level path) :
    Keeps arch C root m (prune arch.encoding path m) := by
  induction path generalizing m tables level with
  | nil => exact keeps_self htree
  | cons step path ih =>
    obtain ⟨ht, hparent, hslot, hrest⟩ := hpath
    rw [prune]
    split_ifs with hisEmpty
    · have he : ∀ j < 512, arch.encoding.decode level (word m step.table j) = .absent := by
        intro j hj
        have hall := List.all_eq_true.mp hisEmpty j (List.mem_range.mpr hj)
        exact decode_absent (by simpa [word] using hall)
      obtain ⟨hunlinked, hlook⟩ := unlink_keeps htree hparent ht he
      rw [← hslot] at hunlinked hlook
      have hsame := release_table_same hunlinked (fun _ _ hh => htree.inj _ _ _ _ _ hh ht)
      have hrest' : PathTo arch
          (setTable tables level (regionOf arch level virt) none) virt (level + 1) path :=
        hrest.congr fun level' hle r =>
          setTable_of_ne fun heq => Nat.not_succ_le_self _ (heq.1 ▸ hle)
      obtain ⟨htree', hkept⟩ := ih (hunlinked.same hsame) hrest'
      refine ⟨htree', fun v => ?_⟩
      rw [hkept v, look_same hunlinked hsame v, hlook v]
    · exact keeps_self htree

lemma remove_spec (ht : tables level (regionOf arch level virt) = some frame)
    (hd : arch.encoding.decode level (word m frame (index level virt)) = .leaf phys) :
    let removed := write m (descriptorAddress frame (index level virt)) 0
    Tree arch C root removed tables ∧ ∀ v, look arch root removed v =
        if cellOf arch level v = cellOf arch level virt then none
        else look arch root m v := by
  intro removed
  have hzero := decode_zero arch level
  have hwritten : Written C m removed frame (index level virt) 0 :=
    written (htree.used _ _ _ ht) (index_lt _ _) _
  have hset := htree.set ht (index_lt _ _) hwritten (by simp [hd])
    (fun child => by rw [hzero]; exact Descriptor.noConfusion)
    (fun phys => by rw [hzero]; exact Descriptor.noConfusion)
  refine ⟨hset, fun v => ?_⟩
  split_ifs with hcell
  · obtain ⟨hr, hindex⟩ := same_slot (htree.level_le ht) hcell
    refine look_absent hset (hr ▸ ht) ?_
    rw [hindex, hwritten.new, hzero]
  · exact look_written htree ht hwritten hcell

end

lemma protect_keeps (hgrants : arch.Grants flags) (htree : Tree arch C root m tables)
    (ht : tables level (regionOf arch level virt) = some frame)
    (hd : arch.encoding.decode level (word m frame (index level virt)) = .leaf phys) :
    Keeps arch C root m (write m (descriptorAddress frame (index level virt))
        (arch.encoding.leafDescriptor phys level flags)) := by
  obtain ⟨hphys, hroom, hlevel⟩ := htree.leaf _ _ _ ht _ (index_lt level virt) _ hd
  obtain ⟨hset, hlook⟩ := write_leaf hgrants hlevel hphys hroom htree ht (by simp [hd])
  refine ⟨⟨_, hset⟩, fun v => ?_⟩
  have hv := hlook v
  split_ifs at hv with hcell
  · obtain ⟨hr, hindex⟩ := same_slot (htree.level_le ht) hcell
    rw [hv, look_leaf htree (hr ▸ ht) (hindex.symm ▸ hd)]
  · exact hv

end Ferrix.Paging.MapperCalls

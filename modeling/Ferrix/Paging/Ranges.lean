import Ferrix.Paging.MapperCalls

/-!
The loops over a range.  Among canonical addresses a block's cell is the block, so that a loop
changes the translations from where it started to where it stopped and no others.
-/

namespace Ferrix.Paging.Ranges

open Encodings Tables Tables.PhysMem Trees MapperCalls

section

variable {arch : Architecture} {l virt v w : Nat}

lemma isAlignedTo_span (l virt : Nat) : isAlignedTo virt (span l) = true ↔ span l ∣ virt := by
  rw [isAlignedTo, span, Nat.and_two_pow_sub_one_eq_mod, beq_iff_eq, Nat.dvd_iff_mod_eq_zero]

lemma isAlignedTo_pageSize (virt : Nat) : isAlignedTo virt pageSize = true ↔ pageSize ∣ virt :=
  isAlignedTo_span Level.page virt

/-- The addresses each walk takes: two halves of a window of four levels, or a window of three. -/
theorem isCanonical_iff (arch : Architecture) :
    arch.encoding.rootLevel = 3 ∧ arch.encoding.virtBits = 48 ∧
        (∀ v, arch.encoding.isCanonical v = true ↔ v < 2 ^ 47 ∨ 2 ^ 64 - 2 ^ 47 ≤ v ∧ v < 2 ^ 64) ∨
      arch.encoding.rootLevel = 2 ∧ arch.encoding.virtBits ≤ 39 ∧
        ∀ v, arch.encoding.isCanonical v = true ↔ v < 2 ^ arch.encoding.virtBits := by
  have hsigned : ∀ v, signExtended 48 v = true ↔ v < 2 ^ 47 ∨ 2 ^ 64 - 2 ^ 47 ≤ v ∧ v < 2 ^ 64 := by
    intro v
    simp only [signExtended, Nat.shiftRight_eq_div_pow, Bool.or_eq_true, beq_iff_eq]
    omega
  have hzero : ∀ bits v, zeroExtended bits v = true ↔ v < 2 ^ bits := by
    intro bits v
    rw [zeroExtended, Nat.shiftRight_eq_div_pow, beq_iff_eq, Nat.div_eq_zero_iff]
    have hpos := Nat.two_pow_pos bits
    omega
  cases arch with
  | x86_64 => exact .inl ⟨rfl, rfl, hsigned⟩
  | aarch64 => exact .inl ⟨rfl, rfl, hsigned⟩
  | armv7a => exact .inr ⟨rfl, by decide, hzero 32⟩
  | vtd => exact .inr ⟨rfl, by decide, hzero 39⟩
  | stage2 => exact .inr ⟨rfl, by decide, hzero 39⟩

lemma lt_of_isCanonical (hv : arch.encoding.isCanonical v = true) : v < 2 ^ 64 := by
  rcases isCanonical_iff arch with ⟨-, -, hiff⟩ | ⟨-, hbits, hiff⟩
  · have hv := (hiff v).mp hv
    omega
  · have hbits := Nat.pow_le_pow_right (by decide : 0 < 2) hbits
    exact lt_of_lt_of_le ((hiff v).mp hv) (hbits.trans (by decide))

lemma div_span_eq (hlevel : l ≤ Level.gigabyte) (hv : arch.encoding.isCanonical v = true)
    (hw : arch.encoding.isCanonical w = true) (hcell : cellOf arch l v = cellOf arch l w) :
    v / span l = w / span l := by
  rcases isCanonical_iff arch with ⟨hroot, -, hiff⟩ | ⟨hroot, hbits, hiff⟩
  · have hv := (hiff v).mp hv
    have hw := (hiff w).mp hw
    rw [cellOf, cellOf, hroot, cell, cell] at hcell
    simp only [Level.gigabyte] at hlevel
    interval_cases l <;> norm_num [span, shift] at hcell ⊢ <;> omega
  · have hbits := Nat.pow_le_pow_right (by decide : 0 < 2) hbits
    have hv := lt_of_lt_of_le ((hiff v).mp hv) hbits
    have hw := lt_of_lt_of_le ((hiff w).mp hw) hbits
    rw [cellOf, cellOf, hroot, cell, cell] at hcell
    simp only [Level.gigabyte] at hlevel
    interval_cases l <;> norm_num [span, shift] at hcell ⊢ <;> omega

lemma cellOf_eq_of_div (hdiv : v / span l = w / span l) : cellOf arch l v = cellOf arch l w := by
  rw [cellOf, cellOf, cell, cell, hdiv]

lemma div_span_eq_iff (halign : span l ∣ virt) :
    v / span l = virt / span l ↔ virt ≤ v ∧ v < virt + span l := by
  obtain ⟨b, rfl⟩ := halign
  have hpos := span_pos l
  rw [Nat.mul_div_cancel_left _ hpos, Nat.div_eq_iff hpos, Nat.mul_comm]
  omega

lemma cellOf_eq_iff (hlevel : l ≤ Level.gigabyte) (halign : span l ∣ virt)
    (hvirt : arch.encoding.isCanonical virt = true) (hv : arch.encoding.isCanonical v = true) :
    cellOf arch l v = cellOf arch l virt ↔ virt ≤ v ∧ v < virt + span l := by
  rw [← div_span_eq_iff halign]
  exact ⟨div_span_eq hlevel hv hvirt, cellOf_eq_of_div⟩

lemma mod_span_eq (halign : span l ∣ virt) (hle : virt ≤ v) (hlt : v < virt + span l) :
    v % span l = v - virt := by
  obtain ⟨b, rfl⟩ := halign
  obtain ⟨o, rfl⟩ := Nat.exists_eq_add_of_le hle
  rw [Nat.mul_add_mod, Nat.mod_eq_of_lt (by omega), Nat.add_sub_cancel_left]

lemma or_span_sub_one (l virt : Nat) :
    virt ||| (span l - 1) = span l * (virt / span l) + (span l - 1) := by
  have hlow : virt % span l ||| (span l - 1) = span l - 1 := by
    apply Nat.eq_of_testBit_eq
    intro bit
    rw [span, Nat.testBit_or, Nat.testBit_mod_two_pow, Nat.testBit_two_pow_sub_one]
    cases decide (bit < shift l) <;> simp
  have hlt : ∀ rest < span l, span l * (virt / span l) + rest = span l * (virt / span l) ||| rest :=
    fun rest hrest => Nat.two_pow_add_eq_or_of_lt hrest _
  have hpos := span_pos l
  calc virt ||| (span l - 1) = (span l * (virt / span l) + virt % span l) ||| (span l - 1) := by
        rw [Nat.div_add_mod]
    _ = span l * (virt / span l) ||| (virt % span l ||| (span l - 1)) := by
        rw [hlt _ (Nat.mod_lt _ hpos), Nat.or_assoc]
    _ = span l * (virt / span l) + (span l - 1) := by
        rw [hlow, hlt _ (by omega)]

lemma stepOver_spec {len done : Nat} (l : Nat) (hlt : virt + done < 2 ^ 64)
    (hdone : done < len) (hvirt : pageSize ∣ virt) (hlen : pageSize ∣ len) :
    let next := stepOver virt len (virt + done) l
    done < next ∧ next ≤ len ∧ pageSize ∣ next ∧
      ∀ v, virt + done ≤ v → v < virt + next → v < 2 ^ 64 →
        v / span l = (virt + done) / span l := by
  have hpos := span_pos l
  have hdivmod := Nat.div_add_mod (virt + done) (span l)
  have hmod := Nat.mod_lt (virt + done) hpos
  have hin : ∀ v, virt + done ≤ v → v < span l * ((virt + done) / span l) + span l →
      v / span l = (virt + done) / span l := by
    intro v hle hv
    rw [Nat.div_eq_iff hpos, Nat.mul_comm]
    omega
  rw [stepOver, or_span_sub_one, checkedAdd]
  split
  · rename_i next hn
    split_ifs at hn
    obtain rfl := Option.some.inj hn
    have hend : span l * ((virt + done) / span l) + (span l - 1) + 1 =
        span l * ((virt + done) / span l) + span l := by omega
    have hdvd : pageSize ∣ span l * ((virt + done) / span l) + span l :=
      Nat.dvd_add ((pageSize_dvd_span l).mul_right _) (pageSize_dvd_span l)
    rw [hend]
    refine ⟨by omega, Nat.min_le_right _ _, ?_, fun v hle hv _ => hin v hle (by omega)⟩
    rcases Nat.le_total (span l * ((virt + done) / span l) + span l - virt) len
      with hle | hle
    · rw [Nat.min_eq_left hle]
      exact Nat.dvd_sub hdvd hvirt
    · rw [Nat.min_eq_right hle]
      exact hlen
  · rename_i hn
    split_ifs at hn with hroom
    exact ⟨hdone, le_rfl, hlen, fun v hle _ hv => hin v hle (by omega)⟩

end

variable {σ : Type} [PhysMem σ] {arch : Architecture} {C : Contract σ}
  {root l n : Nat} {m m' m'' : σ} {tables : Nat → Nat → Option Nat} {flags : MapFlags}

/-- A call that changes the translations of a stretch of addresses and no others. -/
def Changes (arch : Architecture) (C : Contract σ) (root : Nat)
    (memory memory' : σ) (first stop : Nat) (answer : Nat → Option Nat) : Prop :=
  (∃ tables, Tree arch C root memory' tables) ∧
    ∀ v, arch.encoding.isCanonical v = true → look arch root memory' v =
      if first ≤ v ∧ v < stop then answer v else look arch root memory v

def Free (arch : Architecture) (root : Nat) (memory : σ) (first stop : Nat) : Prop :=
  ∀ v, arch.encoding.isCanonical v = true → first ≤ v → v < stop →
    look arch root memory v = none

def CanonicalRange (arch : Architecture) (virt len : Nat) : Prop :=
  ∀ v, virt ≤ v → v < virt + len → arch.encoding.isCanonical v = true

section

variable {first middle stop : Nat} {answer : Nat → Option Nat}

lemma Changes.trans (hf : Changes arch C root m m' first middle answer)
    (hsecond : Changes arch C root m' m'' middle stop answer)
    (hle : first ≤ middle) (hle' : middle ≤ stop) :
    Changes arch C root m m'' first stop answer := by
  refine ⟨hsecond.1, fun v hv => ?_⟩
  rw [hsecond.2 v hv, hf.2 v hv]
  split_ifs <;> first | rfl | omega

lemma Free.trans (hf : Free arch root m first middle)
    (hchanges : Changes arch C root m m' first middle answer)
    (hsecond : Free arch root m' middle stop) :
    Free arch root m first stop := by
  intro v hv hle hlt
  rcases lt_or_ge v middle with hbelow | habove
  · exact hf v hv hle hbelow
  · have hlook := hchanges.2 v hv
    rw [if_neg (by omega), hsecond v hv habove hlt] at hlook
    exact hlook.symm

lemma keeps_trans (hf : Keeps arch C root m m') (hsecond : Keeps arch C root m' m'') :
    Keeps arch C root m m'' :=
  ⟨hsecond.1, fun v => (hsecond.2 v).trans (hf.2 v)⟩

lemma keeps_changes (hkeeps : Keeps arch C root m m') :
    Changes arch C root m m' first first answer := by
  refine ⟨hkeeps.1, fun v _ => ?_⟩
  rw [if_neg (by omega), hkeeps.2 v]

lemma Changes.of_free (htree : Tree arch C root m tables) (hf : Free arch root m first stop) :
    Changes arch C root m m first stop (fun _ => none) := by
  refine ⟨⟨tables, htree⟩, fun v hv => ?_⟩
  split_ifs with hin
  · exact hf v hv hin.1 hin.2
  · rfl

end

section

variable {virt phys len done : Nat} {mapper : Mapper} {result : Except MapError Unit × σ}

lemma chooseLevel_spec (arch : Architecture) (largest : Nat) {remaining : Nat}
    (hvirt : pageSize ∣ virt) (hphys : pageSize ∣ phys) (hremaining : pageSize ≤ remaining) :
    let l := chooseLevel arch.encoding virt phys remaining largest
    l ≤ largest ∧ span l ∣ virt ∧ span l ∣ phys ∧ span l ≤ remaining := by
  induction largest with
  | zero => exact ⟨le_rfl, hvirt, hphys, hremaining⟩
  | succ largest ih =>
    rw [chooseLevel]
    split_ifs with hfits
    · simp only [Bool.and_eq_true, decide_eq_true_eq, isAlignedTo_span] at hfits
      exact ⟨le_rfl, hfits.1.1.2, hfits.1.2, hfits.2⟩
    · exact ⟨ih.1.trans (Nat.le_succ _), ih.2⟩

lemma of_checkRange (hcheck : checkRange arch.encoding virt phys len = .ok ()) :
    pageSize ∣ virt ∧ pageSize ∣ phys ∧ pageSize ∣ len ∧ CanonicalRange arch virt len ∧
      phys + len < 2 ^ 64 ∧ phys + len ≤ 2 ^ arch.encoding.physBits := by
  rw [checkRange] at hcheck
  dsimp only at hcheck
  split_ifs at hcheck with haligned hlen hvirt hoverflow hcanonical hroom
  simp only [Bool.or_eq_true, Bool.not_eq_true', not_or, Bool.not_eq_false] at haligned hvirt
  rw [isAlignedTo_pageSize, isAlignedTo_pageSize] at haligned
  refine ⟨haligned.1, haligned.2, Nat.dvd_of_mod_eq_zero (not_not.mp hlen), ?_, by omega, by omega⟩
  intro v hle hlt
  have hpositive : len ≠ 0 := by omega
  simp only [ne_eq, hpositive, not_false_eq_true, true_and, Bool.or_eq_true, Bool.not_eq_true',
    Bool.and_eq_true, decide_eq_true_eq, not_or, not_and, Bool.not_eq_false] at hcanonical
  obtain ⟨hl, hcross⟩ := hcanonical
  rcases isCanonical_iff arch with ⟨-, hbits, hiff⟩ | ⟨-, -, hiff⟩
  · rw [hbits] at hcross
    rw [hiff] at hvirt hl hcross ⊢
    omega
  · rw [hiff] at hl ⊢
    omega

lemma changes_of_maps (hmaps : Maps arch C root m virt phys l (.ok (), m'))
    (hl : l ≤ Level.gigabyte) (halign : span l ∣ virt)
    (hvirt : arch.encoding.isCanonical virt = true) :
    Free arch root m virt (virt + span l) ∧ Changes arch C root m m' virt (virt + span l)
        (fun v => some (phys + (v - virt))) := by
  obtain ⟨htree, hlook⟩ := hmaps
  refine ⟨fun v hv hle hlt => ?_, htree, fun v hv => ?_⟩
  · have hcell := hlook v
    rw [if_pos ((cellOf_eq_iff hl halign hvirt hv).mpr ⟨hle, hlt⟩)] at hcell
    exact hcell.1
  · have hcell := hlook v
    simp only [cellOf_eq_iff hl halign hvirt hv] at hcell
    split_ifs at hcell ⊢ with hin
    · rw [hcell.2, mod_span_eq halign hin.1 hin.2]
    · exact hcell

/-- What the loop of `map_range` leaves from the offset it is at: a mapping of the addresses up to
where it stopped, none of which led anywhere. -/
def Installs (arch : Architecture) (C : Contract σ) (root : Nat) (memory : σ)
    (virt phys len done : Nat) (result : Except MapError Unit × σ) : Prop :=
  ∃ upTo, done ≤ upTo ∧ upTo ≤ len ∧ (result.1 = .ok () → upTo = len) ∧
    Free arch root memory (virt + done) (virt + upTo) ∧
    Changes arch C root memory result.2 (virt + done) (virt + upTo)
      (fun v => some (phys + (v - virt)))

lemma Installs.nothing (hdone : done ≤ len)
    (hok : result.1 = .ok () → done = len) (hkeeps : Keeps arch C root m result.2) :
    Installs arch C root m virt phys len done result :=
  ⟨done, le_rfl, hdone, hok, fun _ _ _ _ => by omega, keeps_changes hkeeps⟩

lemma Installs.step {bytes : Nat} (hf : Free arch root m (virt + done) (virt + done + bytes))
    (hchanges : Changes arch C root m m' (virt + done)
      (virt + done + bytes) (fun v => some (phys + done + (v - (virt + done)))))
    (hr : Installs arch C root m' virt phys len (done + bytes) result) :
    Installs arch C root m virt phys len done result := by
  obtain ⟨upTo, hle, hlen, hok, hf', hchanges'⟩ := hr
  rw [← Nat.add_assoc] at hf' hchanges'
  have hb : Changes arch C root m m' (virt + done)
      (virt + done + bytes) (fun v => some (phys + (v - virt))) := by
    refine ⟨hchanges.1, fun v hv => ?_⟩
    rw [hchanges.2 v hv]
    split_ifs with hin
    · exact congrArg some (by omega : phys + done + (v - (virt + done)) = phys + (v - virt))
    · rfl
  exact ⟨upTo, by omega, hlen, hok, hf.trans hb hf', hb.trans hchanges' (by omega) (by omega)⟩

lemma taken_subset_mapLoop (encoding : Encoding) (mapper : Mapper) (virt phys len : Nat)
    (flags : MapFlags) (n done : Nat) (m : σ) (taken : List Nat) : taken ⊆
      (mapLoop encoding mapper virt phys len flags n done (Recorded.mk m taken)).2.handed := by
  induction n generalizing done m taken with
  | zero => exact List.Subset.refl _
  | succ n ih =>
    rw [mapLoop]
    split_ifs
    · split
      · rename_i at_ frame _ _
        obtain ⟨taken', hsub, hone⟩ := mapOne_recorded encoding mapper at_ frame
          (chooseLevel encoding at_ frame (len - done) mapper.largestBlock) flags m taken
        dsimp only
        rw [hone]
        rcases (mapOne encoding mapper at_ frame _ flags m).1 with e | ⟨⟩
        · exact hsub
        · exact List.Subset.trans hsub (ih ..)
      · exact List.Subset.refl _
    · exact List.Subset.refl _

lemma mapLoop_spec (hgrants : arch.Grants flags)
    (hlargest : mapper.largestBlock ≤ Level.gigabyte) (hvirt : pageSize ∣ virt)
    (hphys : pageSize ∣ phys) (hlen : pageSize ∣ len) (hcanonical : CanonicalRange arch virt len)
    (hroom : phys + len < 2 ^ 64) (hbits : phys + len ≤ 2 ^ arch.encoding.physBits)
    (hrounds : len ≤ done + n * pageSize) (hdone : done ≤ len) (hpages : pageSize ∣ done)
    (htree : Tree arch C mapper.root m tables) {taken : List Nat} (hfits : Fits arch
      (mapLoop arch.encoding mapper virt phys len flags n done (Recorded.mk m taken)).2.handed) :
    Installs arch C mapper.root m virt phys len done
      (mapLoop arch.encoding mapper virt phys len flags n done m) := by
  induction n generalizing done m tables taken with
  | zero =>
    exact .nothing hdone (fun _ => by omega) (keeps_self htree)
  | succ n ih =>
    rw [mapLoop] at hfits ⊢
    split_ifs at hfits ⊢ with hlt
    · have hat := hcanonical (virt + done) (Nat.le_add_right _ _) (by omega)
      have hremaining : pageSize ≤ len - done :=
        Nat.le_of_dvd (by omega) (Nat.dvd_sub hlen hpages)
      rw [checkedAdd, if_pos (lt_of_isCanonical hat), checkedAdd, if_pos (by omega)] at hfits ⊢
      dsimp only at hfits ⊢
      obtain ⟨hl, hspanVirt, hspanPhys, hspan⟩ := chooseLevel_spec arch
        mapper.largestBlock (Nat.dvd_add hvirt hpages) (Nat.dvd_add hphys hpages) hremaining
      generalize chooseLevel arch.encoding (virt + done) (phys + done) (len - done)
        mapper.largestBlock = l at *
      have hgigabyte := hl.trans hlargest
      have hmaps := mapOne_spec hgrants hgigabyte hspanPhys (by omega) (virt + done) htree taken
      obtain ⟨taken', hsub, hone⟩ := mapOne_recorded arch.encoding mapper (virt + done)
        (phys + done) l flags m taken
      rw [hone] at hfits hmaps
      rcases hplain : mapOne arch.encoding mapper (virt + done) (phys + done) l flags m
        with ⟨e | ⟨⟩, after⟩
      · rw [hplain] at hfits hmaps
        exact .nothing hdone (fun hok => by cases hok) (hmaps hfits)
      · rw [hplain] at hfits hmaps
        -- what the block was handed is still on the record when the loop ends
        have hmaps := hmaps (hfits.of_subset (taken_subset_mapLoop ..))
        obtain ⟨hf, hchanges⟩ := changes_of_maps hmaps hgigabyte hspanVirt hat
        obtain ⟨tables', htree'⟩ := hchanges.1
        have hp := Nat.le_of_dvd (span_pos l) (pageSize_dvd_span l)
        rw [Nat.succ_mul] at hrounds
        exact .step hf hchanges (ih (by omega) (by omega)
          (Nat.dvd_add hpages (pageSize_dvd_span l)) htree' hfits)
    · exact .nothing hdone (fun _ => by omega) (keeps_self htree)

lemma mapRange_spec (mapper : Mapper) (virt phys len : Nat) (hgrants : arch.Grants flags)
    (hlargest : mapper.largestBlock ≤ Level.gigabyte) (htree : Tree arch C mapper.root m tables)
    (hfits : Fits arch
      (mapRange arch.encoding mapper virt phys len flags (Recorded.mk m [])).2.handed) :
    Installs arch C mapper.root m virt phys len 0
      (mapRange arch.encoding mapper virt phys len flags m) := by
  rw [mapRange] at hfits ⊢
  split
  · exact .nothing (Nat.zero_le _) (fun hok => by cases hok) (keeps_self htree)
  · rename_i hcheck
    obtain ⟨hvirt, hphys, hlen, hcanonical, hroom, hbits⟩ := of_checkRange hcheck
    have hrounds : len ≤ 0 + len / pageSize * pageSize := by
      rw [Nat.div_mul_cancel hlen, Nat.zero_add]
    rw [hcheck] at hfits
    exact mapLoop_spec hgrants hlargest hvirt hphys hlen hcanonical hroom hbits hrounds
      (Nat.zero_le _) (Nat.dvd_zero _) htree hfits

lemma canonicalRange_of_mapRange (hmap : mapRange arch.encoding mapper virt phys len
      flags m = (.ok (), m')) : CanonicalRange arch virt len := by
  rw [mapRange] at hmap
  split at hmap
  · cases hmap
  · rename_i hcheck
    exact (of_checkRange hcheck).2.2.2.1

end

variable {virt len done : Nat} {mapper : Mapper} {result : Except MapError Nat × σ}

lemma free_of_hole {frame : Nat} (htree : Tree arch C root m tables)
    (ht : tables l (regionOf arch l virt) = some frame)
    (hd : arch.encoding.decode l (word m frame (index l virt)) = .absent) {stop : Nat}
    (hspan : ∀ v, virt ≤ v → v < stop → v < 2 ^ 64 → v / span l = virt / span l) :
    Free arch root m virt stop := by
  intro v hv hle hlt
  obtain ⟨hr, hi⟩ := same_slot (htree.level_le ht)
    (cellOf_eq_of_div (hspan v hle hlt (lt_of_isCanonical hv)))
  refine look_absent htree (hr ▸ ht) ?_
  rw [hi, hd]

lemma remove_changes {slot : Nat} {entry : Word} {path : List Step}
    (htree : Tree arch C root m tables)
    (hfound : Finds arch m tables virt (.ok (.leaf slot entry l), path))
    (halign : span l ∣ virt) (hvirt : arch.encoding.isCanonical virt = true) :
    Changes arch C root m (prune arch.encoding path (released (write m slot 0)
        (.page (arch.encoding.address entry) l)))
      virt (virt + span l) (fun _ => none) := by
  obtain ⟨f, ht, rfl, rfl, hd, hpath⟩ := hfound
  obtain ⟨hremoved, hlook⟩ := remove_spec htree ht hd
  obtain ⟨-, -, hlevel⟩ := htree.leaf _ _ _ ht _ (index_lt l virt) _ hd
  obtain ⟨hused, hwords⟩ := C.released_page (arch.encoding.address (word m f (index l virt))) l
  have hsame := hremoved.sameWords hused hwords
  obtain ⟨htree', hpruned⟩ := prune_spec (hremoved.same hsame) hpath
  refine ⟨htree', fun v hv => ?_⟩
  rw [hpruned v, look_same hremoved hsame v, hlook v]
  simp only [cellOf_eq_iff hlevel halign hvirt hv]

def Removes (arch : Architecture) (C : Contract σ) (root : Nat) (memory : σ)
    (virt len done : Nat) (result : Except MapError Nat × σ) : Prop :=
  ∃ upTo, done ≤ upTo ∧ upTo ≤ len ∧ (∀ removed, result.1 = .ok removed → upTo = len) ∧
    Changes arch C root memory result.2 (virt + done) (virt + upTo)
      (fun _ => none)

lemma Removes.nothing (hdone : done ≤ len)
    (hok : ∀ removed, result.1 = .ok removed → done = len) (hkeeps : Keeps arch C root m result.2) :
    Removes arch C root m virt len done result :=
  ⟨done, le_rfl, hdone, hok, keeps_changes hkeeps⟩

lemma Removes.step (hle : done ≤ n)
    (hchanges : Changes arch C root m m' (virt + done) (virt + n) (fun _ => none))
    (hr : Removes arch C root m' virt len n result) :
    Removes arch C root m virt len done result := by
  obtain ⟨upTo, hn, hlen, hok, hchanges'⟩ := hr
  exact ⟨upTo, hle.trans hn, hlen, hok, hchanges.trans hchanges' (by omega) (by omega)⟩

lemma aligned_of_not {virt len : Nat}
    (h : ¬ (!isAlignedTo virt pageSize || len % pageSize != 0) = true) :
    pageSize ∣ virt ∧ pageSize ∣ len := by
  simp only [Bool.or_eq_true, Bool.not_eq_true', bne_iff_ne, not_or, Bool.not_eq_false, ne_eq,
    not_not, isAlignedTo_pageSize] at h
  exact ⟨h.1, Nat.dvd_of_mod_eq_zero h.2⟩

variable (htree : Tree arch C mapper.root m tables)
include htree

lemma unmapLoop_spec (hvirt : pageSize ∣ virt) (hlen : pageSize ∣ len)
    (hcanonical : CanonicalRange arch virt len) {rounds : Nat}
    (hrounds : len ≤ done + rounds * pageSize) (hdone : done ≤ len) (hpages : pageSize ∣ done)
    (removed : Nat) : Removes arch C mapper.root m virt len done
      (unmapLoop arch.encoding mapper virt len rounds done removed m) := by
  induction rounds generalizing done removed m tables with
  | zero => exact .nothing hdone (fun _ _ => by omega) (keeps_self htree)
  | succ rounds ih =>
    rw [unmapLoop]
    rw [Nat.succ_mul] at hrounds
    split_ifs with hlt
    · have hat := hcanonical (virt + done) (Nat.le_add_right _ _) (by omega)
      have hfound := findLeaf_spec htree (virt + done)
      rw [checkedAdd, if_pos (lt_of_isCanonical hat)]
      dsimp only
      split
      · rename_i hfind
        rw [hfind] at hfound
        exact hfound.elim
      · rename_i l path hfind
        rw [hfind] at hfound
        obtain ⟨f, ht, hd, -⟩ := hfound
        obtain ⟨hprogress, hn, hdvd, hspan⟩ :=
          stepOver_spec l (lt_of_isCanonical hat) hlt hvirt hlen
        have hpage := Nat.le_of_dvd (by omega) (Nat.dvd_sub hdvd hpages)
        exact .step hprogress.le (.of_free htree (free_of_hole htree ht hd hspan))
          (ih htree (by omega) hn hdvd removed)
      · rename_i slot entry l path hfind
        rw [hfind] at hfound
        split_ifs with hblock
        · exact .nothing hdone (fun _ hok => by cases hok) (keeps_self htree)
        · simp only [Bool.or_eq_true, Bool.not_eq_true', decide_eq_true_eq, not_or,
            Bool.not_eq_false, isAlignedTo_span, not_lt] at hblock
          have hchanges := remove_changes htree hfound hblock.1 hat
          obtain ⟨tables', htree'⟩ := hchanges.1
          have hpage := Nat.le_of_dvd (span_pos l) (pageSize_dvd_span l)
          refine .step (Nat.le_add_right _ (span l)) (Nat.add_assoc virt _ _ ▸ hchanges)
            (ih htree' (by omega) (by omega) (Nat.dvd_add hpages (pageSize_dvd_span l)) _)
    · exact .nothing hdone (fun _ _ => by omega) (keeps_self htree)

lemma unmapRange_spec (hcanonical : CanonicalRange arch virt len) :
    Removes arch C mapper.root m virt len 0 (unmapRange arch.encoding mapper virt len m) := by
  rw [unmapRange]
  split_ifs with haligned
  · exact .nothing (Nat.zero_le _) (fun _ hok => by cases hok) (keeps_self htree)
  · obtain ⟨hvirt, hlen⟩ := aligned_of_not haligned
    have hrounds : len ≤ 0 + len / pageSize * pageSize := by
      rw [Nat.div_mul_cancel hlen, Nat.zero_add]
    exact unmapLoop_spec htree hvirt hlen hcanonical hrounds (Nat.zero_le _) (Nat.dvd_zero _) 0

lemma pruneLoop_keeps (n : Nat) : Keeps arch C mapper.root m
      (pruneLoop arch.encoding mapper virt len n done m).2 := by
  induction n generalizing done m tables with
  | zero => exact keeps_self htree
  | succ n ih =>
    rw [pruneLoop]
    split_ifs
    · split
      · exact keeps_self htree
      · rename_i at_ _
        have hfound := findLeaf_spec htree at_
        split
        · exact keeps_self htree
        · rename_i l path hfind
          rw [hfind] at hfound
          obtain ⟨f, -, -, hpath⟩ := hfound
          have hpruned := prune_spec htree hpath
          obtain ⟨tables', htree'⟩ := hpruned.1
          exact keeps_trans hpruned (ih htree')
        · exact ih htree
    · exact keeps_self htree

variable (mapper) in
lemma pruneRange_keeps (virt len : Nat) : Keeps arch C mapper.root m
      (pruneRange arch.encoding mapper virt len m).2 := by
  rw [pruneRange]
  split_ifs
  · exact keeps_self htree
  · exact pruneLoop_keeps htree _

lemma protectLoop_keeps (hgrants : arch.Grants flags) (n : Nat) : Keeps arch C mapper.root m
      (protectLoop arch.encoding mapper virt len flags n done m).2 := by
  induction n generalizing done m tables with
  | zero => exact keeps_self htree
  | succ n ih =>
    rw [protectLoop]
    split_ifs
    · split
      · exact keeps_self htree
      · rename_i at_ _
        have hfound := findLeaf_spec htree at_
        split
        · exact keeps_self htree
        · exact keeps_self htree
        · rename_i slot e l path hfind
          rw [hfind] at hfound
          split_ifs
          · exact keeps_self htree
          · obtain ⟨f, ht, rfl, rfl, hd, -⟩ := hfound
            have hkeeps := protect_keeps hgrants htree ht hd
            obtain ⟨tables', htree'⟩ := hkeeps.1
            exact keeps_trans hkeeps (ih htree')
    · exact keeps_self htree

variable (mapper) in
lemma protectRange_keeps (hgrants : arch.Grants flags) (virt len : Nat) :
    Keeps arch C mapper.root m (protectRange arch.encoding mapper virt len flags m).2 := by
  rw [protectRange]
  split_ifs
  · exact keeps_self htree
  · exact protectLoop_keeps htree hgrants _

end Ferrix.Paging.Ranges

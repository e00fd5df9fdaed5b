import Ferrix.AddressSpaces.Space
import Ferrix.Foundations.SortedSearch

/-!
The vector operations as cuts of an ordered list: splitting, carving and merging
in terms of what lies below and above an address.
-/

namespace Ferrix.AddressSpaces.Cutting

open Foundations Stretches Stretch Regions Space List PageRange
open Foundations.SortedSearch (insertIdx_length_append)

def stretch : Stretch Vma where
  start region := region.range.start
  stop region := region.range.stop
  head region address := { region with range := ⟨region.range.start, address⟩ }
  tail region address := ⟨⟨address, region.range.stop⟩, region.flags,
    region.backing.advancedBy (address - region.range.start), region.cow⟩
  start_head _ _ := rfl
  stop_head _ _ := rfl
  start_tail _ _ := rfl
  stop_tail _ _ := rfl

structure ValidRegion (low high : Nat) (region : Vma) : Prop where
  lt : region.range.start < region.range.stop
  start_aligned : isPageAligned region.range.start = true
  stop_aligned : isPageAligned region.range.stop = true
  low_le : low ≤ region.range.start
  le_high : region.range.stop ≤ high
  base_aligned : isPageAligned region.backing.base = true
  covers : region.backing.base + region.range.bytes < 2 ^ 64

lemma validateBacking_eq_ok {backing : Backing} {len : Nat} :
    validateBacking backing len = .ok () ↔
      isPageAligned backing.base = true ∧ backing.base + len < 2 ^ 64 := by
  rw [Backing.validateBacking_eq, validateBackingBase, checkedAdd]
  split
  · simp_all
  · split <;> simp_all

variable {r next right left : Vma} {low high : Nat}

lemma checkOne_eq_ok : checkOne low high r = .ok () ↔ ValidRegion low high r := by
  rw [checkOne]
  constructor
  · intro h
    split at h
    · simp at h
    · split at h
      · simp at h
      · split at h
        · simp at h
        · rename_i hlt haligned hwindow
          simp only [Bool.or_eq_true, Bool.not_eq_true', not_or, Bool.not_eq_false] at haligned
          rcases hbacking : validateBacking r.backing r.range.bytes with e | _
          · simp [hbacking] at h
          · obtain ⟨hbase, hc⟩ := validateBacking_eq_ok.mp hbacking
            exact ⟨by omega, haligned.1, haligned.2, by omega, by omega, hbase, hc⟩
  · intro h
    have hlt := h.lt
    have hlow := h.low_le
    have hhigh := h.le_high
    rw [if_neg (by omega), if_neg (by simp [h.start_aligned, h.stop_aligned]),
      if_neg (by omega), validateBacking_eq_ok.mpr ⟨h.base_aligned, h.covers⟩]

lemma mergeable_iff (h : left.backing.base + left.range.bytes < 2 ^ 64) :
    mergeable left right = true ↔ left.range.stop = right.range.start ∧
      left.flags = right.flags ∧ right.backing = left.backing.advancedBy left.range.bytes := by
  rw [mergeable, Bool.and_eq_true, Bool.and_eq_true, Backing.contiguousBacking_iff h, beq_iff_eq,
    beq_iff_eq, and_assoc]

def merged (left right : Vma) : Vma :=
  { left with
    range := ⟨left.range.start, right.range.stop⟩
    cow := left.cow || right.cow }

lemma validRegion_merged (hl : ValidRegion low high left)
    (hr : ValidRegion low high right) (h : mergeable left right = true) :
    ValidRegion low high (merged left right) := by
  obtain ⟨hmeets, -, hbacking⟩ := (mergeable_iff hl.covers).mp h
  have hc := hr.covers
  rw [hbacking, Backing.base_advancedBy hl.covers, bytes, bytes] at hc
  have hll := hl.lt
  have hrl := hr.lt
  refine ⟨?_, hl.start_aligned, hr.stop_aligned, hl.low_le, hr.le_high, hl.base_aligned, ?_⟩
  · change left.range.start < right.range.stop
    omega
  · change left.backing.base + (right.range.stop - left.range.start) < 2 ^ 64
    omega

lemma mergeable_merged (hl : ValidRegion low high left)
    (hr : ValidRegion low high right) (h : mergeable left right = true) :
    mergeable (merged left right) next = mergeable right next := by
  obtain ⟨hmeets, hflags, hbacking⟩ := (mergeable_iff hl.covers).mp h
  have hvalid := validRegion_merged hl hr h
  have hll := hl.lt
  have hrl := hr.lt
  have hc := hvalid.covers
  change left.backing.base + (right.range.stop - left.range.start) < 2 ^ 64 at hc
  rw [Bool.eq_iff_iff, mergeable_iff hvalid.covers, mergeable_iff hr.covers, hbacking]
  rw [Backing.advancedBy_advancedBy (by rw [bytes, bytes]; omega)]
  have hbytes : left.range.bytes + right.range.bytes = right.range.stop - left.range.start := by
    rw [bytes, bytes]
    omega
  rw [hbytes, ← hflags]
  exact Iff.rfl

section

variable {a : Nat} (h : ValidRegion low high r)
  (hstart : r.range.start < a) (hstop : a < r.range.stop)

include h hstart hstop

lemma base_tail : (stretch.tail r a).backing.base = r.backing.base + (a - r.range.start) := by
  have hc := h.covers
  rw [bytes] at hc
  exact Backing.base_advancedBy (by omega)

lemma covers_tail : (stretch.tail r a).backing.base +
    (stretch.tail r a).range.bytes < 2 ^ 64 := by
  have hc := h.covers
  rw [bytes] at hc
  rw [base_tail h hstart hstop]
  change _ + (r.range.stop - a) < 2 ^ 64
  omega

lemma mergeable_tail : mergeable (stretch.tail r a) next = mergeable r next := by
  have hc := h.covers
  rw [bytes] at hc
  rw [Bool.eq_iff_iff, mergeable_iff (covers_tail h hstart hstop), mergeable_iff h.covers]
  change r.range.stop = _ ∧ r.flags = _ ∧
    _ = (r.backing.advancedBy (a - r.range.start)).advancedBy (r.range.stop - a) ↔ _
  rw [Backing.advancedBy_advancedBy (by omega)]
  have hbytes : a - r.range.start + (r.range.stop - a) = r.range.bytes := by
    rw [bytes]
    omega
  rw [hbytes]

variable (haligned : isPageAligned a = true)

include haligned

lemma validRegion_head : ValidRegion low high (stretch.head r a) := by
  have hc := h.covers
  rw [bytes] at hc
  have hhigh := h.le_high
  refine ⟨hstart, h.start_aligned, haligned, h.low_le, ?_, h.base_aligned, ?_⟩
  · change a ≤ high
    omega
  · change r.backing.base + (a - r.range.start) < 2 ^ 64
    omega

lemma validRegion_tail : ValidRegion low high (stretch.tail r a) := by
  have hlow := h.low_le
  refine ⟨hstop, haligned, h.stop_aligned, ?_, h.le_high, ?_, covers_tail h hstart hstop⟩
  · change low ≤ a
    omega
  · have hs := (isPageAligned_iff _).mp h.start_aligned
    have ha := (isPageAligned_iff _).mp haligned
    have hb := (isPageAligned_iff _).mp h.base_aligned
    rw [base_tail h hstart hstop, isPageAligned_iff]
    omega

end

def joining (low high : Nat) : Joining stretch where
  valid := ValidRegion low high
  joins := mergeable
  join := merged
  start_join _ _ := rfl
  stop_join _ _ := rfl
  solid _ h := h.lt
  meets _ _ h := by
    rw [mergeable, Bool.and_eq_true, Bool.and_eq_true, beq_iff_eq] at h
    exact h.1.1
  valid_join _ _ hl hr h := validRegion_merged hl hr h
  joins_join _ _ _ := rfl
  join_joins _ _ _ hl hr h := mergeable_merged hl hr h
  joins_head _ _ _ := rfl
  tail_joins _ _ _ h hstart hstop := mergeable_tail h hstart hstop

section

variable {l back mid : List Vma} {r new : Vma} {a : Nat}

lemma set_length_append : (l ++ r :: back).set l.length new = l ++ new :: back := by
  rw [set_append_right _ _ le_rfl, Nat.sub_self, set_cons_zero]

lemma getElem?_length_append : (l ++ r :: back)[l.length]? = some r := by simp

lemma length_takeWhile_append {p : Vma → Bool} (hfront : ∀ r ∈ l, p r = true)
    (hback : ∀ r ∈ back, p r = false) :
    ((l ++ back).takeWhile p).length = l.length := by
  have hnone : back.takeWhile p = [] := by
    rcases back with _ | ⟨r, back⟩
    · rfl
    · exact takeWhile_cons_of_neg (by simp [hback r])
  rw [takeWhile_append_of_pos hfront, hnone, append_nil]

lemma firstTouching_append (hfront : ∀ r ∈ l, r.range.stop ≤ a)
    (hback : ∀ r ∈ back, a < r.range.stop) :
    firstTouching (l ++ back) a = l.length :=
  length_takeWhile_append (by simpa using hfront) (by simpa using hback)

lemma firstBeyond_append (hfront : ∀ r ∈ l, r.range.start < a)
    (hback : ∀ r ∈ back, a ≤ r.range.start) :
    firstBeyond (l ++ back) a = l.length :=
  length_takeWhile_append (by simpa using hfront) (by simpa using hback)

lemma carveWhole_append (l mid back : List Vma) {last : Nat} (hl : last = l.length + mid.length) :
    carveWhole (l ++ mid ++ back) l.length last = (l ++ back, mid.map unmapped) := by
  subst hl
  rw [carveWhole]
  rcases mid with _ | ⟨r, mid⟩
  · simp
  · rw [if_neg (by simp)]
    simp

end

variable {low high : Nat} {rs : List Vma} {l : List Vma} {range : PageRange}
  {back mid : List Vma}

lemma touched_indices (h : stretch.Ordered (l ++ mid ++ back))
    (hlt : range.start < range.stop) (hfront : ∀ r ∈ l, r.range.stop ≤ range.start)
    (hmid : ∀ r ∈ mid, range.start < r.range.stop ∧ r.range.start < range.stop)
    (hback : ∀ r ∈ back, range.stop ≤ r.range.start) :
    firstTouching (l ++ mid ++ back) range.start = l.length ∧
      firstBeyond (l ++ mid ++ back) range.stop = l.length + mid.length := by
  constructor
  · rw [append_assoc]
    refine firstTouching_append hfront ?_
    intro r hr
    rcases mem_append.mp hr with hr | hr
    · exact (hmid r hr).1
    · have hstart := hback r hr
      have hsolid : r.range.start < r.range.stop :=
        h.solid r (mem_append_right _ hr)
      omega
  · rw [firstBeyond_append ?_ hback, length_append]
    intro r hr
    rcases mem_append.mp hr with hr | hr
    · have hstop := hfront r hr
      have hsolid : r.range.start < r.range.stop := h.solid r (by simp [hr])
      omega
    · exact (hmid r hr).2

lemma splitAt_eq (h : stretch.Ordered rs) (a : Nat) : Space.splitAt rs a =
      stretch.below a rs ++ stretch.above a rs := by
  cases h.cut a with
  | clean l back hfront hback =>
    have htouching : firstTouching (l ++ back) a = l.length := by
      refine firstTouching_append hfront ?_
      intro r hr
      exact Nat.lt_of_le_of_lt (hback r hr) (h.solid r (mem_append_right _ hr))
    rw [below_clean hfront hback h, above_clean hfront hback h, Space.splitAt, htouching]
    rcases back with _ | ⟨r, back⟩
    · simp
    · rw [getElem?_length_append]
      exact if_pos (.inl (hback r (by simp)))
  | inside l r back hfront hstart hstop hback =>
    have hrest := (ordered_append.mp h).2.1
    have htouching : firstTouching (l ++ r :: back) a = l.length := by
      refine firstTouching_append hfront ?_
      exact forall_mem_cons.mpr ⟨hstop, fun o ho =>
        Nat.lt_of_le_of_lt (hback o ho) (hrest.solid o (by simp [ho]))⟩
    rw [below_inside hfront hback h hstart hstop, above_inside hfront hback h hstart hstop,
      Space.splitAt, htouching]
    have hsplits : ¬ (r.range.start ≥ a ∨ r.range.stop ≤ a) := by
      rw [not_or, Nat.not_le, Nat.not_le]
      exact ⟨hstart, hstop⟩
    rw [getElem?_length_append]
    dsimp only
    rw [if_neg hsplits, set_length_append]
    have hsplit : ∀ head : Vma, l ++ head :: back = (l ++ [head]) ++ back := by simp
    have hlen : ∀ head : Vma, l.length + 1 = (l ++ [head]).length := by simp
    rw [hsplit, hlen, insertIdx_length_append]
    rfl

lemma unmappingOf_head (h : ValidRegion low high r) (a : Nat) :
    unmappingOf r ⟨r.range.start, a⟩ = unmapped (stretch.head r a) := by
  have := h.covers
  rw [unmappingOf, Nat.sub_self, Backing.advancedBy_zero (by omega)]
  rfl

lemma carveTail_carveWhole (back : List Vma) (h : (joining low high).Sound mid)
    (hfront : ∀ r ∈ l, r.range.stop ≤ range.stop) (hmid : ∀ r ∈ mid, r.range.start < range.stop) :
    let tailed := carveTail (l ++ mid ++ back) (l.length + mid.length) range
    let whole := carveWhole tailed.1 l.length tailed.2.1
    (whole.1, whole.2 ++ tailed.2.2.toList) = (l ++ stretch.above range.stop mid ++ back,
        (stretch.below range.stop mid).map unmapped) := by
  have hordered := h.ordered
  rcases eq_nil_or_concat mid with rfl | ⟨inner, r, rfl⟩
  · have hsame : carveTail (l ++ [] ++ back) (l.length + 0) range =
        (l ++ [] ++ back, l.length + 0, none) := by
      rcases eq_nil_or_concat l with rfl | ⟨l, r, rfl⟩
      · rfl
      · have hat : (l.concat r ++ [] ++ back)[l.length]? = some r := by simp
        rw [length_concat, Nat.add_zero, carveTail, hat]
        exact if_pos (hfront r (by simp))
    have hnone : carveWhole (l ++ [] ++ back) l.length (l.length + 0) =
        (l ++ back, []) := carveWhole_append l [] back rfl
    rw [length_nil, hsame]
    dsimp only
    rw [hnone]
    simp [Stretch.below, Stretch.above]
  · rw [concat_eq_append] at h hordered hmid ⊢
    obtain ⟨hinner, -, hbefore⟩ := ordered_append.mp hordered
    have hwithin : ∀ other ∈ inner, stretch.stop other ≤ range.stop := by
      intro other hother
      exact (hbefore other hother r (by simp)).trans (hmid r (by simp)).le
    have hlen : l.length + (inner ++ [r]).length = l.length + inner.length + 1 := by
      simp [Nat.add_assoc]
    have hat : (l ++ (inner ++ [r]) ++ back)[l.length + inner.length]? = some r := by
      simp
    have hset : ∀ new, (l ++ (inner ++ [r]) ++ back).set
        (l.length + inner.length) new = l ++ inner ++ new :: back := by
      intro new
      rw [← length_append, ← append_assoc l, append_assoc _ [r],
        singleton_append, set_length_append]
    rw [hlen, carveTail, hat, below_append, above_append, below_of_stop_le hinner hwithin,
      above_of_stop_le hwithin, nil_append]
    dsimp only
    by_cases hstop : r.range.stop ≤ range.stop
    · have hone : ∀ other ∈ [r], stretch.stop other ≤ range.stop :=
        forall_mem_singleton.mpr hstop
      rw [if_pos hstop]
      rw [carveWhole_append l _ back hlen.symm, above_of_stop_le hone,
        below_of_stop_le (ordered_append.mp hordered).2.1 hone]
      simp
    · have hr := h.valid r (by simp)
      have hin : stretch.start r < range.stop := hmid r (by simp)
      have hout : range.stop < stretch.stop r := not_le.mp hstop
      rw [if_neg hstop]
      rw [hset, carveWhole_append l inner _ rfl, above_singleton hin hout,
        below_singleton hin hout, unmappingOf_head hr]
      simp [stretch, bytes]

lemma carveInterior_outside (h : range.start ≤ r.range.start ∨ r.range.stop ≤ range.stop) :
    carveInterior (l ++ r :: back) l.length range = none := by
  rw [carveInterior, getElem?_length_append]
  exact if_pos h

lemma carveInterior_inside (hstart : r.range.start < range.start)
    (hstop : range.stop < r.range.stop) :
    carveInterior (l ++ r :: back) l.length range =
      some (l ++ stretch.head r range.start :: stretch.tail r range.stop :: back,
        unmapped (stretch.tail (stretch.head r range.stop) range.start)) := by
  have hinside : ¬ (r.range.start ≥ range.start ∨ r.range.stop ≤ range.stop) := by
    omega
  have hinsert : ∀ head tail : Vma, (l ++ head :: back).insertIdx (l.length + 1) tail =
      l ++ head :: tail :: back := by
    intro head tail
    simpa using insertIdx_length_append (l ++ [head]) back tail
  rw [carveInterior, getElem?_length_append]
  dsimp only
  rw [if_neg hinside, set_length_append, hinsert]
  rfl

lemma carveHead_outside (h : range.start ≤ r.range.start) :
    carveHead (l ++ r :: back) l.length range = (l ++ r :: back, [], l.length) := by
  rw [carveHead, getElem?_length_append]
  exact if_pos h

lemma carveHead_inside (h : r.range.start < range.start) :
    carveHead (l ++ r :: back) l.length range = (l ++ stretch.head r range.start :: back,
        [unmapped (stretch.tail r range.start)], l.length + 1) := by
  rw [carveHead, getElem?_length_append]
  dsimp only
  rw [if_neg (not_le.mpr h), set_length_append]
  rfl

lemma le_start_below {start stop : Nat} (hmid : ∀ other ∈ mid, start ≤ stretch.start other) :
    ∀ other ∈ stretch.below stop mid, start ≤ stretch.start other := by
  intro other ho
  obtain ⟨source, hsource, heq⟩ := exists_start_of_mem_below ho
  rw [heq]
  exact hmid source hsource

/-- Carving keeps what is below and above the range, and reports what lies
between. -/
theorem carve_eq (h : (joining low high).Sound rs) (hlt : range.start < range.stop) :
    carve rs range = (stretch.below range.start rs ++ stretch.above range.stop rs,
        (stretch.above range.start (stretch.below range.stop rs)).map unmapped) := by
  obtain ⟨l, mid, back, rfl, hfront, hmid, hback⟩ :=
    h.ordered.exists_touched range.start range.stop
  obtain ⟨hfrontmid, horderedback, -⟩ := ordered_append.mp h.ordered
  obtain ⟨horderedfront, horderedmid, -⟩ := ordered_append.mp hfrontmid
  have hfront' : ∀ r ∈ l, stretch.stop r ≤ range.stop :=
    fun r hr => (hfront r hr).trans hlt.le
  have hback' : ∀ r ∈ back, range.start ≤ stretch.start r :=
    fun r hr => hlt.le.trans (hback r hr)
  obtain ⟨hf, hl⟩ := touched_indices h.ordered hlt hfront hmid hback
  rw [below_append, below_append, above_append, above_append, below_append, below_append,
    above_append, above_append, below_of_stop_le horderedfront hfront, below_of_le_start hback',
    above_of_stop_le hfront', above_of_le_start horderedback hback,
    below_of_stop_le horderedfront hfront', below_of_le_start hback, above_of_stop_le hfront,
    append_nil, nil_append, nil_append, carve]
  rw [hf, hl]
  rcases mid with _ | ⟨r, mid⟩
  · simp [Stretch.below, Stretch.above]
  have hreach := (hmid r (by simp)).1
  obtain ⟨-, horderedrest, hafter⟩ := ordered_cons.mp horderedmid
  have hsoundmid := (Joining.sound_append.mp (Joining.sound_append.mp h).1).2.1
  have hrest := (Joining.sound_cons.mp hsoundmid).2.1
  have hsplit : r :: mid = [r] ++ mid := rfl
  rw [if_neg (by simp)]
  rcases lt_or_ge (stretch.start r) range.start with hstart | hstart
  · have hmidstart : ∀ other ∈ mid, range.start ≤ stretch.start other :=
      fun other hother => hreach.le.trans (hafter other hother)
    rcases lt_or_ge range.stop (stretch.stop r) with hstop | hstop
    · -- The range is strictly inside `r`, which is then the only one it touches.
      have hnil : mid = [] := by
        refine eq_nil_iff_forall_not_mem.mpr fun other hother => ?_
        have hother' := hafter other hother
        have hin : stretch.start other < range.stop := (hmid other (by simp [hother])).2
        omega
      subst hnil
      have hheadstart : stretch.start (stretch.head r range.stop) < range.start := hstart
      have hheadstop : range.start < stretch.stop (stretch.head r range.stop) := hlt
      rw [append_assoc, singleton_append, carveInterior_inside hstart hstop,
        below_singleton hstart hreach, above_singleton (hstart.trans hlt) hstop,
        below_singleton (hstart.trans hlt) hstop, above_singleton hheadstart hheadstop]
      simp [Stretch.above]
    · have hfront'' : ∀ other ∈ l ++ [stretch.head r range.start], other.range.stop ≤ range.stop :=
        forall_mem_append.mpr ⟨hfront', forall_mem_singleton.mpr hlt.le⟩
      have hcarved := carveTail_carveWhole back hrest hfront''
        (fun other hother => (hmid other (by simp [hother])).2)
      have hone : ∀ other ∈ [r], stretch.stop other ≤ range.stop :=
        forall_mem_singleton.mpr hstop
      rw [append_assoc, cons_append, carveInterior_outside (.inr hstop), carveHead_inside hstart]
      rw [length_append, length_singleton] at hcarved
      simp only [append_assoc, cons_append, nil_append, Prod.mk.injEq] at hcarved
      dsimp only
      rw [append_assoc [_], length_cons, Nat.add_comm mid.length, ← Nat.add_assoc,
        hcarved.1, hcarved.2, hsplit, below_append, below_append, above_append, above_append,
        below_singleton hstart hreach, below_of_le_start hmidstart, above_of_stop_le hone,
        below_of_stop_le (ordered_append.mp (hsplit ▸ horderedmid)).1 hone,
        above_singleton hstart hreach,
        above_of_le_start (horderedrest.below range.stop) (le_start_below hmidstart)]
      simp [Stretch.above]
  · have hcarved := carveTail_carveWhole back hsoundmid hfront'
      (fun other hother => (hmid other hother).2)
    have hmidstart : ∀ other ∈ r :: mid, range.start ≤ stretch.start other :=
      forall_mem_cons.mpr ⟨hstart, fun other hother => hreach.le.trans (hafter other hother)⟩
    rw [append_assoc, cons_append, carveInterior_outside (.inl hstart), carveHead_outside hstart]
    dsimp only at hcarved ⊢
    rw [← cons_append, ← append_assoc, nil_append, hcarved, below_of_le_start hmidstart,
      above_of_le_start (horderedmid.below range.stop) (le_start_below hmidstart)]
    simp [Stretch.above]

end Ferrix.AddressSpaces.Cutting

import Ferrix.AddressSpaces.Merging

namespace Ferrix.AddressSpaces.SpaceCalls

open Foundations Allocation Stretches Stretch Regions Space
open Cutting Merging List AddressSpace Joining

/-- What every call keeps: valid regions in order, no two of them mergeable. -/
structure Sound (space : AddressSpace) : Prop where
  regions : (joining space.low space.high).Sound space.regions
  settled : (joining space.low space.high).Settled space.regions

def Fits (space : AddressSpace) : Prop := space.regions.length ≤ space.capacity

/-- The regions became `list` with neighbours joined, in the same window; if they
fitted their vector, so does `list`. -/
structure Became (space space' : AddressSpace) (list : List Vma) : Prop where
  low : space'.low = space.low
  high : space'.high = space.high
  joined : (joining space.low space.high).Joined list space'.regions
  room : Fits space → list.length ≤ space'.capacity

variable {space : AddressSpace} {space' : AddressSpace}

/-- A call on `space` failed and changed nothing, or succeeded as `Done` says of its answer and of
what it left. -/
def Outcome {α : Type} (space : AddressSpace) (result : Except VmaError α × AddressSpace)
    (Done : α → AddressSpace → Prop) : Prop :=
  (∃ error, result = (.error error, space)) ∨
    ∃ answer space', result = (.ok answer, space') ∧ Done answer space'

lemma Outcome.map {α β : Type} {result : Except VmaError α × AddressSpace} {f : α → β}
    {Done : α → AddressSpace → Prop} {Done' : β → AddressSpace → Prop}
    (h : Outcome space result Done)
    (hdone : ∀ answer space', Done answer space' → Done' (f answer) space') :
    Outcome space (result.1.map f, result.2) Done' := by
  rcases h with ⟨e, rfl⟩ | ⟨answer, space', rfl, h⟩
  · exact .inl ⟨e, rfl⟩
  · exact .inr ⟨f answer, space', rfl, hdone answer space' h⟩

lemma Became.fits {list : List Vma} (h : Became space space' list) (hfits : Fits space) :
    Fits space' :=
  h.joined.length_le.trans (h.room hfits)

lemma Became.sound {list : List Vma} (h : Became space space' list) : Sound space' := by
  constructor
  · rw [h.low, h.high]
    exact h.joined.sound
  · rw [h.low, h.high]
    exact h.joined.settled

def replaced (range : PageRange) (regions new : List Vma) : List Vma :=
  stretch.below range.start regions ++ new ++ stretch.above range.stop regions

lemma replaced_nil (range : PageRange) (regions : List Vma) : replaced range regions [] =
      stretch.below range.start regions ++ stretch.above range.stop regions := by
  rw [replaced, append_nil]

variable {range : PageRange}

lemma stop_lt_of_below (hvalid : range.Valid) : ∀ r ∈ stretch.below range.start space.regions,
      ∀ s ∈ stretch.above range.stop space.regions, stretch.stop r < stretch.start s := by
  intro r hr s hs
  have hstop := stop_le_of_mem_below hr
  have hstart := le_start_of_mem_above hs
  have hlt := hvalid.lt
  omega

lemma of_checkRange (hr : space.checkRange range = .ok ()) :
    space.low ≤ range.start ∧ range.stop ≤ space.high := by
  rw [checkRange] at hr
  split at hr
  · simp at hr
  · omega

variable {region : Vma}

lemma validRegion_of_checks (hvalid : region.range.Valid)
    (hr : space.checkRange region.range = .ok ())
    (hbacking : validateBacking region.backing region.range.bytes = .ok ()) :
    ValidRegion space.low space.high region := by
  obtain ⟨hlow, hhigh⟩ := of_checkRange hr
  obtain ⟨hbase, hc⟩ := validateBacking_eq_ok.mp hbacking
  exact ⟨hvalid.lt, hvalid.start_aligned, hvalid.stop_aligned, hlow, hhigh, hbase, hc⟩

lemma place_joined {low high : Nat} {l back : List Vma} (h : (joining low high).Sound (l ++ back))
    (hfront : (joining low high).Settled l) (hback : (joining low high).Settled back)
    (hbefore : ∀ other ∈ l, other.range.stop ≤ region.range.start)
    (hafter : ∀ other ∈ back, region.range.stop ≤ other.range.start)
    (hr : ValidRegion low high region) :
    (joining low high).Joined (l ++ [region] ++ back) (place (l ++ back) region) := by
  obtain ⟨hsoundfront, hsoundback, hbetween⟩ := sound_append.mp h
  have hlt := hr.lt
  have hi : firstTouching (l ++ back) region.range.start = l.length := by
    refine firstTouching_append hbefore ?_
    intro other ho
    have hstart := hafter other ho
    have hsolid := (hsoundback.valid other ho).lt
    omega
  have hmin : min l.length (l ++ back).length = l.length := by simp
  rw [place, hi, hmin, Foundations.SortedSearch.insertIdx_length_append]
  have hlist : l ++ region :: back = l ++ [region] ++ back := by simp
  rw [hlist]
  refine mergeSpan_joined ?_ hfront hback rfl
  rw [append_assoc, singleton_append]
  refine sound_append.mpr ⟨hsoundfront, sound_cons.mpr ⟨hr, hsoundback, hafter⟩, ?_⟩
  exact fun r hr => forall_mem_cons.mpr ⟨hbefore r hr, hbetween r hr⟩

lemma grow_spec (space : AddressSpace) (m : Memory) (additional : Nat) :
    Outcome space (space.grow m additional) fun _ space' => ∃ n,
      (Fits space → space.regions.length + additional ≤ n) ∧
        space' = { space with capacity := n } := by
  rw [grow]
  dsimp only
  split
  · exact .inl ⟨_, rfl⟩
  split
  · rename_i hroom
    exact .inr ⟨(), _, rfl, space.capacity, fun _ => hroom, rfl⟩
  split
  · rcases hreserve : tryReserve m.regions space.regions.length space.capacity additional
      with _ | n
    · exact .inl ⟨_, rfl⟩
    · exact .inr ⟨(), _, rfl, n, fun hfits => (le_of_tryReserve hfits hreserve).1, rfl⟩
  · exact .inl ⟨_, rfl⟩

def within (range : PageRange) (regions : List Vma) : List Vma :=
  stretch.above range.start (stretch.below range.stop regions)

variable {regions : List Vma}

lemma length_within_le (h : stretch.Ordered regions) (hvalid : range.Valid) :
    (within range regions).length ≤
      firstBeyond regions range.stop - firstTouching regions range.start := by
  obtain ⟨l, mid, back, rfl, hfront, hmid, hback⟩ := h.exists_touched range.start range.stop
  obtain ⟨hfirst, hl⟩ := touched_indices h hvalid.lt hfront hmid hback
  have hfront' : ∀ other ∈ stretch.below range.stop l, stretch.stop other ≤ range.start := by
    rw [below_of_stop_le (ordered_append.mp (ordered_append.mp h).1).1
      fun other hother => (hfront other hother).trans hvalid.lt.le]
    exact hfront
  rw [hfirst, hl, Nat.add_sub_cancel_left, within, below_append, below_append, above_append,
    above_append, above_of_stop_le hfront', below_of_le_start hback]
  have hnil : stretch.above range.start [] = [] := rfl
  rw [hnil, nil_append, append_nil]
  exact (length_above_le _ _).trans (length_below_le _ _)

lemma foldl_pushWithin (room : Nat) (unmappings removed : List Unmapping)
    (h : unmappings.length + removed.length ≤ room) :
    removed.foldl (pushWithin room) unmappings = unmappings ++ removed := by
  induction removed generalizing unmappings with
  | nil => simp
  | cons first removed ih =>
    rw [length_cons] at h
    rw [foldl_cons, pushWithin, if_pos (by omega),
      ih _ (by rw [length_append, length_singleton]; omega)]
    simp

/-- The regions split at both edges of a range, and changed by `f` inside it. -/
def rewritten (range : PageRange) (f : Vma → Vma) (regions : List Vma) : List Vma :=
  stretch.below range.start regions ++
    (stretch.below range.stop (stretch.above range.start regions)).map f ++
    stretch.above range.stop (stretch.above range.start regions)

/-- A change of a region that leaves where it lies and what backs it. -/
structure Recolours (f : Vma → Vma) : Prop where
  range : ∀ region, (f region).range = region.range
  backing : ∀ region, (f region).backing = region.backing

lemma reprotected_recolours (flags : VmaFlags) : Recolours (AddressSpace.reprotected flags) := by
  constructor <;> intro region <;> rw [reprotected] <;> dsimp only <;> split <;> rfl

lemma marked_recolours : Recolours AddressSpace.marked := by
  constructor <;> intro region <;> rw [marked] <;> split <;> rfl

section

variable {low high : Nat} {f : Vma → Vma} (hf : Recolours f)
include hf

lemma Recolours.start (region : Vma) : stretch.start (f region) = stretch.start region :=
  congrArg PageRange.start (hf.range region)

lemma Recolours.stop (region : Vma) : stretch.stop (f region) = stretch.stop region :=
  congrArg PageRange.stop (hf.range region)

lemma Recolours.sound (h : (joining low high).Sound regions) :
    (joining low high).Sound (regions.map f) := by
  refine h.map hf.start hf.stop fun region hr => ?_
  obtain ⟨hlt, hstart, hstop, hlow, hhigh, hbase, hc⟩ := hr
  rw [← hf.range] at hlt hstart hstop hlow hhigh hc
  rw [← hf.backing] at hbase hc
  exact ⟨hlt, hstart, hstop, hlow, hhigh, hbase, hc⟩

end

lemma splitAt_splitAt (h : stretch.Ordered regions) (hvalid : range.Valid) :
    Space.splitAt (Space.splitAt regions range.start) range.stop = rewritten range id regions := by
  have hbelow : ∀ other ∈ stretch.below range.start regions, stretch.stop other ≤ range.stop :=
    fun other hother => (stop_le_of_mem_below hother).trans hvalid.lt.le
  have hordered : stretch.Ordered
      (stretch.below range.start regions ++ stretch.above range.start regions) :=
    ordered_append.mpr ⟨h.below _, h.above _, fun _ hr _ hs =>
      (stop_le_of_mem_below hr).trans (le_start_of_mem_above hs)⟩
  rw [splitAt_eq h, splitAt_eq hordered, below_append, above_append,
    below_of_stop_le (h.below _) hbelow, above_of_stop_le hbelow, nil_append, rewritten,
    map_id, append_assoc]

lemma map_span (f : Vma → Vma) (l mid back : List Vma) {first last : Nat}
    (hfirst : first = l.length) (hl : last = l.length + mid.length) :
    (l ++ mid ++ back).take first ++ (((l ++ mid ++ back).drop first).take (last - first)).map f ++
        (l ++ mid ++ back).drop (max first last) = l ++ mid.map f ++ back := by
  subst hfirst hl
  have hmax : max l.length (l.length + mid.length) = (l ++ mid).length := by simp
  rw [hmax, drop_left, append_assoc l mid back, take_left, drop_left,
    Nat.add_sub_cancel_left, take_left]

section

variable (h : Sound space)
include h

lemma Sound.below {a : Nat} (haligned : isPageAligned a = true) :
    (joining space.low space.high).Sound (stretch.below a space.regions) :=
  h.regions.below fun region hr hstart hstop =>
    validRegion_head (h.regions.valid region hr) hstart hstop haligned

lemma Sound.above {a : Nat} (haligned : isPageAligned a = true) :
    (joining space.low space.high).Sound (stretch.above a space.regions) :=
  h.regions.above fun region hr hstart hstop =>
    validRegion_tail (h.regions.valid region hr) hstart hstop haligned

lemma length_rewritten_le (range : PageRange) (f : Vma → Vma) :
    (rewritten range f space.regions).length ≤ space.regions.length + 2 := by
  have hordered := h.regions.ordered
  have hfirst := hordered.length_below_above (Nat.le_refl range.start)
  have hsecond := (hordered.above range.start).length_below_above (Nat.le_refl range.stop)
  rw [SpaceCalls.rewritten, length_append, length_append, length_map]
  omega

lemma cloneForFork_spec (m : Memory) : Outcome space (space.cloneForFork m) fun c space' =>
      Became space space' (space.regions.map marked) ∧
        Became space c (space.regions.map marked) := by
  rw [cloneForFork]
  dsimp only
  split
  · exact .inl ⟨_, rfl⟩
  rcases hreserve : tryReserve m.list 0 0 space.regions.length with _ | n
  · exact .inl ⟨_, rfl⟩
  · have hmarked := mergeAll_joined (marked_recolours.sound h.regions)
    have hroom := (le_of_tryReserve le_rfl hreserve).1
    refine .inr ⟨_, _, rfl, ⟨rfl, rfl, hmarked, fun hfits => ?_⟩, ⟨rfl, rfl, hmarked, fun _ => ?_⟩⟩
    · rw [length_map]
      exact hfits
    · rw [length_map]
      change _ ≤ n
      omega

lemma setHigh_spec (high : Nat) :
    Outcome space (space.setHigh high) fun _ space' => space'.regions = space.regions ∧
      space'.capacity = space.capacity ∧ Sound space' := by
  rw [setHigh]
  split
  · exact .inl ⟨_, rfl⟩
  split
  · exact .inl ⟨_, rfl⟩
  split
  · exact .inl ⟨_, rfl⟩
  · rename_i hl
    refine .inr ⟨(), _, rfl, rfl, rfl, ⟨?_, h.regions.ordered⟩, h.settled⟩
    intro region hr
    have hvalid := h.regions.valid region hr
    refine { hvalid with le_high := ?_ }
    have hordered := h.regions.ordered
    rcases eq_nil_or_concat space.regions with hnil | ⟨regions, l, hconcat⟩
    · rw [hnil] at hr
      exact absurd hr not_mem_nil
    · rw [hconcat, concat_eq_append] at hr hordered hl
      rw [List.getLast?_append, List.getLast?_singleton, Option.some_or, Option.any_some,
        decide_eq_true_eq, Nat.not_lt] at hl
      obtain ⟨-, hsolid, hbefore⟩ := ordered_append.mp hordered
      have hlt : l.range.start < l.range.stop := hsolid.solid l (by simp)
      rcases mem_append.mp hr with hr | hr
      · have hstop : region.range.stop ≤ l.range.start := hbefore region hr l (by simp)
        change region.range.stop ≤ high
        omega
      · rw [mem_singleton.mp hr]
        exact hl

variable (hvalid : range.Valid)
include hvalid

lemma Sound.carved : (joining space.low space.high).Joined (replaced range space.regions [])
    (replaced range space.regions []) := by
  rw [replaced_nil]
  refine ⟨?_, ?_, le_rfl, fun _ _ _ hx => hx, fun _ hx => hx⟩
  · exact sound_append.mpr ⟨h.below hvalid.start_aligned, h.above hvalid.stop_aligned,
      fun r hr s hs => (stop_lt_of_below hvalid r hr s hs).le⟩
  · exact settled_append_of_lt (settled_below h.regions h.settled)
      (settled_above h.regions h.settled) (stop_lt_of_below hvalid)

lemma length_replaced_le (n : List Vma) :
    (replaced range space.regions n).length ≤ space.regions.length + 1 + n.length := by
  have := h.regions.ordered.length_below_above hvalid.lt.le
  rw [replaced, length_append, length_append]
  omega

lemma exists_of_not_overlaps (hfree : ¬ overlaps space.regions range = true) :
    ∃ l back, space.regions = l ++ back ∧ (∀ region ∈ l, region.range.stop ≤ range.start) ∧
      ∀ region ∈ back, range.stop ≤ region.range.start := by
  obtain ⟨l, mid, back, hregions, hfront, hmid, hback⟩ :=
    h.regions.ordered.exists_touched range.start range.stop
  have hordered := h.regions.ordered
  rw [hregions] at hordered hfree ⊢
  rcases mid with _ | ⟨region, mid⟩
  · exact ⟨l, back, by rw [append_nil], hfront, hback⟩
  · exfalso
    refine hfree ?_
    rw [overlaps, (touched_indices hordered hvalid.lt hfront hmid hback).1]
    rw [append_assoc, cons_append, getElem?_length_append, Option.any_some,
      decide_eq_true_eq]
    exact (hmid region (by simp)).2

lemma replaced_of_not_overlaps (hfree : ¬ overlaps space.regions range = true) :
    replaced range space.regions [] = space.regions := by
  obtain ⟨l, back, hregions, hfront, hback⟩ := exists_of_not_overlaps h hvalid hfree
  have hordered := h.regions.ordered
  rw [hregions] at hordered ⊢
  have hfront' : ∀ other ∈ l, stretch.stop other ≤ range.stop :=
    fun other hother => (hfront other hother).trans hvalid.lt.le
  have hback' : ∀ other ∈ back, range.start ≤ stretch.start other :=
    fun other hother => hvalid.lt.le.trans (hback other hother)
  rw [replaced_nil, below_clean hfront hback' hordered, above_clean hfront' hback hordered]

omit hvalid in
lemma place_replaced (hvalid : region.range.Valid)
    (hr : ValidRegion space.low space.high region) :
    (joining space.low space.high).Joined (replaced region.range space.regions [region])
      (place (replaced region.range space.regions []) region) := by
  have hcarved := (h.carved hvalid).sound
  rw [replaced_nil] at hcarved ⊢
  exact place_joined hcarved (settled_below h.regions h.settled)
    (settled_above h.regions h.settled) (fun _ ho => stop_le_of_mem_below ho)
    (fun _ ho => le_start_of_mem_above ho) hr

lemma insertRegion_spec (m : Memory) (flags : VmaFlags) (backing : Backing) (cow : Bool) :
    Outcome space (space.insertRegion m ⟨range, flags, backing, cow⟩) fun _ space' =>
      replaced range space.regions [] = space.regions ∧
        Became space space' (replaced range space.regions [⟨range, flags, backing, cow⟩]) := by
  rw [insertRegion]
  rcases hrange : space.checkRange range with e | _
  · exact .inl ⟨e, rfl⟩
  rcases hbacking : validateBacking backing range.bytes with e | _
  · exact .inl ⟨e, rfl⟩
  dsimp only
  split
  · exact .inl ⟨_, rfl⟩
  rename_i hfree
  rcases grow_spec space m 1 with
    ⟨e, hgrow⟩ | ⟨_, _, hgrow, n, hcapacity, rfl⟩
  · rw [hgrow]
    exact .inl ⟨e, rfl⟩
  · rw [hgrow]
    have hr : ValidRegion space.low space.high ⟨range, flags, backing, cow⟩ :=
      validRegion_of_checks hvalid hrange hbacking
    have hp := place_replaced h hvalid hr
    have hsame := replaced_of_not_overlaps h hvalid hfree
    rw [hsame] at hp
    refine .inr ⟨(), _, rfl, hsame, rfl, rfl, hp, fun hfits => ?_⟩
    have hroom := hcapacity hfits
    have hlen := congrArg List.length hsame
    rw [replaced_nil, length_append] at hlen
    rw [replaced, length_append, length_append, length_singleton]
    change _ ≤ n
    omega

lemma roomToCarve_spec (memory : Memory) (additional : Nat) :
    Outcome space (space.roomToCarve memory range additional) fun room space' => ∃ capacity,
      (Fits space → space.regions.length + additional ≤ capacity) ∧
        (within range space.regions).length ≤ room ∧
        space' = { space with capacity := capacity } := by
  rw [roomToCarve]
  rcases hreserve : tryReserve memory.list 0 0 (firstBeyond space.regions range.stop -
      firstTouching space.regions range.start + 1) with _ | room
  · exact .inl ⟨_, rfl⟩
  have hroom := (le_of_tryReserve le_rfl hreserve).1
  have hlen := length_within_le h.regions.ordered hvalid
  rcases grow_spec space memory additional with
    ⟨error, hgrow⟩ | ⟨_, _, hgrow, capacity, hcapacity, rfl⟩
  · rw [hgrow]
    exact .inl ⟨error, rfl⟩
  · rw [hgrow]
    exact .inr ⟨room, _, rfl, capacity, hcapacity, by omega, rfl⟩

lemma mapFixed_spec (m : Memory) (flags : VmaFlags) (backing : Backing) :
    Outcome space (space.mapFixed m range flags backing) fun unmappings space' =>
      unmappings = (within range space.regions).map unmapped ∧
        Became space space' (replaced range space.regions [⟨range, flags, backing, false⟩]) := by
  rw [mapFixed]
  rcases hrange : space.checkRange range with e | _
  · exact .inl ⟨e, rfl⟩
  rcases hbacking : validateBacking backing range.bytes with e | _
  · exact .inl ⟨e, rfl⟩
  dsimp only
  rcases roomToCarve_spec h hvalid m 2 with
    ⟨e, hroom⟩ | ⟨room, _, hroom, n, hcapacity, hlist, rfl⟩
  · rw [hroom]
    exact .inl ⟨e, rfl⟩
  · rw [hroom]
    dsimp only
    rw [carve_eq h.regions hvalid.lt, foldl_pushWithin room [] _ (by simpa [within] using hlist)]
    refine .inr ⟨_, _, rfl, rfl, rfl, rfl, ?_, fun hfits => ?_⟩
    · have hr : ValidRegion space.low space.high ⟨range, flags, backing, false⟩ :=
        validRegion_of_checks hvalid hrange hbacking
      have hp := place_replaced h hvalid hr
      rw [replaced_nil] at hp
      exact hp
    · have := length_replaced_le h hvalid [⟨range, flags, backing, false⟩]
      rw [length_singleton] at this
      have hroom := hcapacity hfits
      change _ ≤ n
      omega

lemma remove_spec (m : Memory) : Outcome space (space.remove m range) fun unmappings space' =>
      unmappings = (within range space.regions).map unmapped ∧
        Became space space' (replaced range space.regions []) := by
  rw [remove]
  rcases space.checkRange range with e | _
  · exact .inl ⟨e, rfl⟩
  dsimp only
  rcases roomToCarve_spec h hvalid m 1 with
    ⟨e, hroom⟩ | ⟨room, _, hroom, n, hcapacity, hlist, rfl⟩
  · rw [hroom]
    exact .inl ⟨e, rfl⟩
  · have hlen := length_replaced_le h hvalid []
    rw [hroom]
    dsimp only
    rw [carve_eq h.regions hvalid.lt, foldl_pushWithin room [] _ (by simpa [within] using hlist),
      ← replaced_nil]
    refine .inr ⟨_, _, rfl, rfl, rfl, rfl, h.carved hvalid, fun hfits => ?_⟩
    have hroom := hcapacity hfits
    change _ ≤ n
    rw [length_nil] at hlen
    omega

lemma length_replaced_of_not_splits
    (hsplits : ¬ (space.regions[firstTouching space.regions range.start]?.any fun region =>
      region.range.start < range.start && region.range.stop > range.stop) = true) :
    (replaced range space.regions []).length ≤ space.regions.length := by
  obtain ⟨l, mid, back, hregions, hfront, hmid, hback⟩ :=
    h.regions.ordered.exists_touched range.start range.stop
  have hordered := h.regions.ordered
  rw [hregions] at hordered hsplits ⊢
  rw [(touched_indices hordered hvalid.lt hfront hmid hback).1] at hsplits
  obtain ⟨hfrontmid, horderedback, -⟩ := ordered_append.mp hordered
  obtain ⟨horderedfront, horderedmid, -⟩ := ordered_append.mp hfrontmid
  have hfront' : ∀ other ∈ l, stretch.stop other ≤ range.stop :=
    fun other hother => (hfront other hother).trans hvalid.lt.le
  have hback' : ∀ other ∈ back, range.start ≤ stretch.start other :=
    fun other hother => hvalid.lt.le.trans (hback other hother)
  have hmiddle : (stretch.below range.start mid).length +
      (stretch.above range.stop mid).length ≤ mid.length := by
    rcases mid with _ | ⟨region, mid⟩
    · exact le_rfl
    obtain ⟨hsolid, horderedrest, hafter⟩ := ordered_cons.mp horderedmid
    have hreach := (hmid region (by simp)).1
    have hbelow : stretch.below range.start mid = [] :=
      below_of_le_start fun other hother => hreach.le.trans (hafter other hother)
    have hsplit : region :: mid = [region] ++ mid := rfl
    rw [hsplit, below_append, above_append, hbelow, append_nil, length_append,
      length_append, length_singleton]
    have hrest := length_above_le (S := stretch) range.stop mid
    have hone := length_below_le (S := stretch) range.start [region]
    rw [length_singleton] at hone
    rcases lt_or_ge range.stop (stretch.stop region) with hstop | hstop
    · have hstart : range.start ≤ stretch.start region := by
        rw [append_assoc, cons_append, getElem?_length_append, Option.any_some,
          Bool.and_eq_true, decide_eq_true_eq, decide_eq_true_eq] at hsplits
        refine not_lt.mp fun hlt => hsplits ⟨hlt, hstop⟩
      have hnone : stretch.below range.start [region] = [] :=
        below_of_le_start (forall_mem_singleton.mpr hstart)
      have hself := length_above_le (S := stretch) range.stop [region]
      rw [length_singleton] at hself
      rw [hnone, length_nil]
      omega
    · have hnone : stretch.above range.stop [region] = [] :=
        above_of_stop_le (forall_mem_singleton.mpr hstop)
      rw [hnone, length_nil]
      omega
  rw [replaced_nil, below_append, below_append, above_append, above_append,
    below_of_stop_le horderedfront hfront, below_of_le_start hback', above_of_stop_le hfront',
    above_of_le_start horderedback hback]
  simp only [length_append, length_nil, nil_append]
  omega

lemma removeQuietly_spec (m : Memory) :
    Outcome space (space.removeQuietly m range) fun _ space' =>
      Became space space' (replaced range space.regions []) := by
  have hcarved := h.carved hvalid
  have hlen := length_replaced_le h hvalid []
  rw [length_nil] at hlen
  rw [removeQuietly, carve_eq h.regions hvalid.lt, ← replaced_nil]
  rcases space.checkRange range with e | _
  · exact .inl ⟨e, rfl⟩
  dsimp only
  split
  · split
    · rcases hreserve : tryReserve m.regions space.regions.length space.capacity 1
        with _ | capacity
      · exact .inl ⟨_, rfl⟩
      · refine .inr ⟨(), _, rfl, rfl, rfl, hcarved, fun hfits => ?_⟩
        have := (le_of_tryReserve hfits hreserve).1
        change _ ≤ capacity
        omega
    · exact .inl ⟨_, rfl⟩
  · rename_i hquiet
    refine .inr ⟨(), _, rfl, rfl, rfl, hcarved, fun hfits => ?_⟩
    change space.regions.length ≤ space.capacity at hfits
    change _ ≤ space.capacity
    rw [Bool.and_eq_true, beq_iff_eq, not_and] at hquiet
    by_cases hsplits : (space.regions[firstTouching space.regions range.start]?.any fun region =>
        region.range.start < range.start && region.range.stop > range.stop) = true
    · have := hquiet hsplits
      omega
    · exact (length_replaced_of_not_splits h hvalid hsplits).trans hfits

lemma Sound.rewritten {f : Vma → Vma} (hf : Recolours f) :
    (joining space.low space.high).Sound (rewritten range f space.regions) := by
  have habove := h.above hvalid.start_aligned
  have hmid := habove.below fun region hregion hstart hstop =>
    validRegion_head (habove.valid region hregion) hstart hstop hvalid.stop_aligned
  have hback := habove.above fun region hregion hstart hstop =>
    validRegion_tail (habove.valid region hregion) hstart hstop hvalid.stop_aligned
  refine sound_append.mpr ⟨sound_append.mpr
    ⟨h.below hvalid.start_aligned, hf.sound hmid, ?_⟩, hback, ?_⟩
  · intro r hr s hs
    obtain ⟨t, ht, rfl⟩ := mem_map.mp hs
    obtain ⟨u, hu, heq⟩ := exists_start_of_mem_below ht
    rw [hf.start, heq]
    exact (stop_le_of_mem_below hr).trans (le_start_of_mem_above hu)
  · intro r hr s hs
    refine Nat.le_trans ?_ (le_start_of_mem_above hs)
    rcases mem_append.mp hr with hr | hr
    · exact (stop_le_of_mem_below hr).trans hvalid.lt.le
    · obtain ⟨t, ht, rfl⟩ := mem_map.mp hr
      rw [hf.stop]
      exact stop_le_of_mem_below ht

lemma protect_joined {f : Vma → Vma} (hf : Recolours f) {first last : Nat}
    (hregions : regions = rewritten range id space.regions)
    (hfirst : first = firstTouching regions range.start)
    (hl : last = firstBeyond regions range.stop) :
    (joining space.low space.high).Joined (rewritten range f space.regions)
      (mergeSpan (regions.take first ++ ((regions.drop first).take (last - first)).map f ++
        regions.drop (max first last)) first last) := by
  have habove := h.regions.ordered.above range.start
  have hsound := h.rewritten hvalid hf
  have hsplit := (h.rewritten hvalid (f := id) ⟨fun _ => rfl, fun _ => rfl⟩).ordered
  have hmid : ∀ region ∈ stretch.below range.stop (stretch.above range.start space.regions),
      range.start < region.range.stop ∧ region.range.start < range.stop := by
    intro region hr
    have hsolid : region.range.start < region.range.stop := (habove.below _).solid region hr
    have hstop : region.range.stop ≤ range.stop := stop_le_of_mem_below hr
    obtain ⟨source, hsource, heq⟩ := exists_start_of_mem_below hr
    have hstart : range.start ≤ stretch.start source := le_start_of_mem_above hsource
    have heq' : region.range.start = stretch.start source := heq
    omega
  rw [SpaceCalls.rewritten, map_id] at hsplit hregions
  obtain ⟨htouching, hbeyond⟩ := touched_indices hsplit hvalid.lt
    (fun _ hr => stop_le_of_mem_below hr) hmid
    (fun _ hr => le_start_of_mem_above hr)
  rw [← hregions, ← hfirst] at htouching
  rw [← hregions, ← hl] at hbeyond
  rw [hregions, map_span f _ _ _ htouching hbeyond, htouching]
  refine mergeSpan_joined hsound (settled_below h.regions h.settled)
    (settled_above (h.above hvalid.start_aligned) (settled_above h.regions h.settled)) ?_
  rw [hbeyond, length_map]

lemma protect_spec (memory : Memory) (flags : VmaFlags) :
    Outcome space (space.protect memory range flags) fun _ space' =>
      isFullyMapped space.regions range = true ∧
        Became space space' (rewritten range (reprotected flags) space.regions) := by
  rw [protect]
  rcases space.checkRange range with error | _
  · exact .inl ⟨error, rfl⟩
  dsimp only
  split
  · exact .inl ⟨_, rfl⟩
  rename_i hmapped
  rcases grow_spec space memory 2 with
    ⟨error, hgrow⟩ | ⟨_, _, hgrow, capacity, hcapacity, rfl⟩
  · rw [hgrow]
    exact .inl ⟨error, rfl⟩
  · rw [hgrow]
    refine .inr ⟨(), _, rfl, by simpa using hmapped, rfl, rfl, ?_, ?_⟩
    · exact protect_joined h hvalid (reprotected_recolours flags)
        (splitAt_splitAt h.regions.ordered hvalid) rfl rfl
    · exact fun hfits => (length_rewritten_le h range _).trans (hcapacity hfits)

end

lemma not_validRegion {low high : Nat} {text : String}
    (hcheck : checkOne low high region = .error text) : ¬ ValidRegion low high region := by
  intro hvalid
  rw [checkOne_eq_ok.mpr hvalid] at hcheck
  simp at hcheck

lemma checkFrom_some (low high : Nat) (l : Vma) (regions : List Vma) :
    checkFrom low high (some l) regions = .ok () ↔
      (∀ region ∈ regions, ValidRegion low high region) ∧
        ((l :: regions).IsChain fun left r => left.range.stop ≤ r.range.start) ∧
        (joining low high).Settled (l :: regions) := by
  induction regions generalizing l with
  | nil => simp [checkFrom, Joining.Settled]
  | cons region regions ih =>
    have hsettled : (joining low high).Settled (l :: region :: regions) ↔
        mergeable l region = false ∧ (joining low high).Settled (region :: regions) :=
      isChain_cons_cons
    rw [checkFrom, isChain_cons_cons, hsettled]
    rcases hcheck : checkOne low high region with text | _
    · simp [not_validRegion hcheck]
    · have hvalid : ValidRegion low high region := checkOne_eq_ok.mp hcheck
      dsimp only
      split
      · rename_i hoverlap
        simp [not_le.mpr hoverlap]
      split
      · rename_i hmergeable
        simp [hmergeable]
      · rename_i hapart hmergeable
        rw [ih]
        simp [hvalid, not_lt.mp hapart, hmergeable]

lemma checkInvariants_eq_ok : space.checkInvariants = .ok () ↔ Sound space := by
  have hiff : Sound space ↔ (joining space.low space.high).Sound space.regions ∧
      (joining space.low space.high).Settled space.regions :=
    ⟨fun h => ⟨h.regions, h.settled⟩, fun h => ⟨h.1, h.2⟩⟩
  have hsound : ∀ regions : List Vma, (joining space.low space.high).Sound regions ↔
      (∀ region ∈ regions, ValidRegion space.low space.high region) ∧
        regions.IsChain fun l r => l.range.stop ≤ r.range.start := by
    intro regions
    constructor
    · exact fun h => ⟨h.valid, (ordered_iff_isChain.mp h.ordered).2⟩
    · rintro ⟨hvalid, hchain⟩
      exact ⟨hvalid, ordered_iff_isChain.mpr ⟨fun region hr => (hvalid region hr).lt, hchain⟩⟩
  rw [checkInvariants, hiff, hsound]
  rcases space.regions with _ | ⟨region, regions⟩
  · simp [checkFrom, Joining.Settled]
  rw [checkFrom]
  rcases hcheck : checkOne space.low space.high region with text | _
  · simp [not_validRegion hcheck]
  · have hvalid : ValidRegion space.low space.high region := checkOne_eq_ok.mp hcheck
    rw [checkFrom_some]
    simp [hvalid, and_assoc]

abbrev CheckedRange : Type := { range : PageRange // range.Valid }

inductive Call where
  | insert (range : CheckedRange) (flags : VmaFlags) (backing : Backing)
  | insertRegion (range : CheckedRange) (flags : VmaFlags) (backing : Backing) (cow : Bool)
  | mapFixed (range : CheckedRange) (flags : VmaFlags) (backing : Backing)
  | remove (range : CheckedRange)
  | removeQuietly (range : CheckedRange)
  | protect (range : CheckedRange) (flags : VmaFlags)
  | setHigh (high : Nat)
  | cloneForFork

inductive Answer where
  | done
  | removed (unmappings : List Unmapping)
  | child (space : AddressSpace)

def perform (memory : Memory) (space : AddressSpace) :
    Call → Except VmaError Answer × AddressSpace
  | .insert range flags backing =>
    let result := space.insert memory range.1 flags backing
    (result.1.map fun _ => .done, result.2)
  | .insertRegion range flags backing cow =>
    let result := space.insertRegion memory ⟨range.1, flags, backing, cow⟩
    (result.1.map fun _ => .done, result.2)
  | .mapFixed range flags backing =>
    let result := space.mapFixed memory range.1 flags backing
    (result.1.map .removed, result.2)
  | .remove range =>
    let result := space.remove memory range.1
    (result.1.map .removed, result.2)
  | .removeQuietly range =>
    let result := space.removeQuietly memory range.1
    (result.1.map fun _ => .done, result.2)
  | .protect range flags =>
    let result := space.protect memory range.1 flags
    (result.1.map fun _ => .done, result.2)
  | .setHigh high =>
    let result := space.setHigh high
    (result.1.map fun _ => .done, result.2)
  | .cloneForFork =>
    let result := space.cloneForFork memory
    (result.1.map .child, result.2)

/-- What a successful call can have done. -/
inductive Succeeds (space : AddressSpace) : Call → Answer → AddressSpace → Prop where
  | insert (range : CheckedRange) (flags : VmaFlags) (backing : Backing) {space' : AddressSpace}
      (hfree : replaced range.1 space.regions [] = space.regions)
      (hbecame : Became space space'
        (replaced range.1 space.regions [⟨range.1, flags, backing, false⟩])) :
      Succeeds space (.insert range flags backing) .done space'
  | insertRegion (range : CheckedRange) (flags : VmaFlags) (backing : Backing) (cow : Bool)
      {space' : AddressSpace} (hfree : replaced range.1 space.regions [] = space.regions)
      (hbecame : Became space space'
        (replaced range.1 space.regions [⟨range.1, flags, backing, cow⟩])) :
      Succeeds space (.insertRegion range flags backing cow) .done space'
  | mapFixed (range : CheckedRange) (flags : VmaFlags) (backing : Backing)
      {space' : AddressSpace}
      (hbecame : Became space space'
        (replaced range.1 space.regions [⟨range.1, flags, backing, false⟩])) :
      Succeeds space (.mapFixed range flags backing)
        (.removed ((within range.1 space.regions).map unmapped)) space'
  | remove (range : CheckedRange) {space' : AddressSpace}
      (hbecame : Became space space' (replaced range.1 space.regions [])) :
      Succeeds space (.remove range)
        (.removed ((within range.1 space.regions).map unmapped)) space'
  | removeQuietly {range : CheckedRange} {space' : AddressSpace}
      (hbecame : Became space space' (replaced range.1 space.regions [])) :
      Succeeds space (.removeQuietly range) .done space'
  | protect (range : CheckedRange) {flags : VmaFlags} {space' : AddressSpace}
      (hmapped : isFullyMapped space.regions range.1 = true)
      (hbecame : Became space space'
        (rewritten range.1 (AddressSpace.reprotected flags) space.regions)) :
      Succeeds space (.protect range flags) .done space'
  | setHigh {high : Nat} {space' : AddressSpace} (hregions : space'.regions = space.regions)
      (hcapacity : space'.capacity = space.capacity) (hsound : Sound space') :
      Succeeds space (.setHigh high) .done space'
  | cloneForFork {child space' : AddressSpace}
      (hbecame : Became space space' (space.regions.map AddressSpace.marked))
      (hchild : Became space child (space.regions.map AddressSpace.marked)) :
      Succeeds space .cloneForFork (.child child) space'

lemma perform_cases (h : Sound space) (m : Memory) (call : Call) :
    Outcome space (perform m space call) (Succeeds space call) := by
  cases call with
  | insert range flags backing =>
    exact (insertRegion_spec h range.2 m flags backing false).map
      fun _ _ ⟨hfree, hbecame⟩ => .insert range flags backing hfree hbecame
  | insertRegion range flags backing cow =>
    exact (insertRegion_spec h range.2 m flags backing cow).map
      fun _ _ ⟨hfree, hbecame⟩ => .insertRegion range flags backing cow hfree hbecame
  | mapFixed range flags backing =>
    refine (mapFixed_spec h range.2 m flags backing).map ?_
    rintro _ _ ⟨rfl, hbecame⟩
    exact .mapFixed range flags backing hbecame
  | remove range =>
    refine (remove_spec h range.2 m).map ?_
    rintro _ _ ⟨rfl, hbecame⟩
    exact .remove range hbecame
  | removeQuietly range =>
    exact (removeQuietly_spec h range.2 m).map fun _ _ hbecame => .removeQuietly hbecame
  | protect range flags =>
    exact (protect_spec h range.2 m flags).map
      fun _ _ ⟨hmapped, hbecame⟩ => .protect range hmapped hbecame
  | setHigh high =>
    exact (setHigh_spec h high).map
      fun _ _ ⟨hregions, hcapacity, hsound⟩ => .setHigh hregions hcapacity hsound
  | cloneForFork =>
    exact (cloneForFork_spec h m).map fun _ _ ⟨hbecame, hc⟩ => .cloneForFork hbecame hc

lemma Succeeds.of_perform {m : Memory} {call : Call} {answer : Answer} (h : Sound space)
    (hperform : perform m space call = (.ok answer, space')) :
    Succeeds space call answer space' := by
  rcases perform_cases h m call with ⟨e, hfailed⟩ | ⟨_, _, hdone, hsucceeds⟩
  · exact absurd (hfailed.symm.trans hperform) (by simp)
  · cases hdone.symm.trans hperform
    exact hsucceeds

variable {call : Call} {answer : Answer} (hsucceeds : Succeeds space call answer space')
include hsucceeds

/-- A successful call moved the upper bound, or made one list of the space and of any copy. -/
theorem Succeeds.cases :
    (space'.regions = space.regions ∧ space'.capacity = space.capacity ∧ Sound space' ∧
      ∀ c, answer ≠ .child c) ∨ ∃ list, Became space space' list ∧
      ∀ c, answer = .child c → Became space c list := by
  cases hsucceeds with
  | setHigh hregions hcapacity hsound => exact .inl ⟨hregions, hcapacity, hsound, nofun⟩
  | cloneForFork hbecame hc =>
    refine .inr ⟨_, hbecame, ?_⟩
    rintro c ⟨⟩
    exact hc
  | _ => exact .inr ⟨_, ‹Became _ _ _›, nofun⟩

lemma Succeeds.sound : Sound space' ∧ ∀ c, answer = .child c → Sound c := by
  rcases hsucceeds.cases with ⟨-, -, hsound, hnone⟩ | ⟨list, hbecame, hc⟩
  · exact ⟨hsound, fun c heq => absurd heq (hnone c)⟩
  · exact ⟨hbecame.sound, fun c heq => (hc c heq).sound⟩

lemma Succeeds.fits (hfits : Fits space) : Fits space' ∧ ∀ c, answer = .child c → Fits c := by
  rcases hsucceeds.cases with ⟨hregions, hcapacity, -, hnone⟩ | ⟨list, hbecame, hc⟩
  · refine ⟨?_, fun c heq => absurd heq (hnone c)⟩
    rw [Fits, hregions, hcapacity]
    exact hfits
  · exact ⟨hbecame.fits hfits, fun c heq => (hc c heq).fits hfits⟩

end Ferrix.AddressSpaces.SpaceCalls

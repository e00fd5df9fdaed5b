import Ferrix.AddressSpaces.SpaceCalls

/-!
An address space as a map from addresses to pages, and what each call does to
that map.
-/

namespace Ferrix.AddressSpaces.PageMap

open Foundations.Stretches.Stretch Regions Space Cutting SpaceCalls List AddressSpace Option

structure Page where
  flags : VmaFlags
  backing : Backing
  deriving DecidableEq

def pageOf (region : Vma) (address : Nat) : Page :=
  ⟨region.flags, region.backing.advancedBy (address - region.range.start)⟩

def pageAt (space : AddressSpace) (address : Nat) : Option Page :=
  (space.find address).map fun region => pageOf region address

abbrev Pages : Type := Nat → Option Page

namespace Pages

def set (range : PageRange) (flags : VmaFlags) (backing : Backing) (pages : Pages) : Pages :=
  fun address =>
    if range.contains address then
      some ⟨flags, backing.advancedBy (address - range.start)⟩
    else pages address

def unset (range : PageRange) (pages : Pages) : Pages :=
  fun address => if range.contains address then none else pages address

def reflag (range : PageRange) (flags : VmaFlags) (pages : Pages) : Pages :=
  fun address =>
    if range.contains address then (pages address).map fun page => { page with flags := flags }
    else pages address

end Pages

def effect : Call → Pages → Pages
  | .insert range flags backing => Pages.set range.1 flags backing
  | .insertRegion range flags backing _ => Pages.set range.1 flags backing
  | .mapFixed range flags backing => Pages.set range.1 flags backing
  | .remove range => Pages.unset range.1
  | .removeQuietly range => Pages.unset range.1
  | .protect range flags => Pages.reflag range.1 flags
  | .setHigh _ => id
  | .cloneForFork => id

/-- Unmappings in ascending order, naming exactly the pages that were mapped in
`range`, each as it was. -/
structure Names (range : PageRange) (pages : Pages) (unmappings : List Unmapping) : Prop where
  solid : ∀ unmapping ∈ unmappings, unmapping.range.start < unmapping.range.stop
  ascending : unmappings.Pairwise fun first second => first.range.stop ≤ second.range.start
  exact : ∀ address page,
    (∃ unmapping ∈ unmappings, unmapping.range.contains address = true ∧
        page = ⟨unmapping.flags,
          unmapping.backing.advancedBy (address - unmapping.range.start)⟩) ↔
      range.contains address = true ∧ pages address = some page

def Answers (pages : Pages) : Call → Answer → Prop
  | .mapFixed range _ _, .removed unmappings => Names range.1 pages unmappings
  | .remove range, .removed unmappings => Names range.1 pages unmappings
  | .cloneForFork, .child space => pageAt space = pages
  | .insert range _ _, .done =>
    ∀ address, range.1.contains address = true → pages address = none
  | .insertRegion range _ _ _, .done =>
    ∀ address, range.1.contains address = true → pages address = none
  | .removeQuietly _, .done => True
  | .protect range _, .done =>
    ∀ address, range.1.contains address = true → (pages address).isSome = true
  | .setHigh _, .done => True
  | _, _ => False

def Shows (page : Page) (region : Vma) (address : Nat) : Prop := pageOf region address = page

lemma contains_iff (range : PageRange) (a : Nat) :
    range.contains a = true ↔ range.start ≤ a ∧ a < range.stop := by
  rw [PageRange.contains, Bool.and_eq_true, decide_eq_true_eq, decide_eq_true_eq]

variable {s : AddressSpace} {a : Nat} {page : Page}

lemma find_eq_some_iff (h : stretch.Ordered s.regions) {r : Vma} :
    s.find a = some r ↔ r ∈ s.regions ∧ r.range.start ≤ a ∧ a < r.range.stop := by
  obtain ⟨l, mid, back, hregions, hfront, hmid, hback⟩ :=
    h.exists_touched a (a + 1)
  have hordered := h
  rw [hregions] at hordered
  have hlt : (⟨a, a + 1⟩ : PageRange).start < (⟨a, a + 1⟩ : PageRange).stop :=
    Nat.lt_succ_self a
  have hi := (touched_indices hordered hlt hfront hmid hback).1
  rw [find, hregions, hi]
  rcases mid with _ | ⟨found, mid⟩
  · have hnone : ∀ o ∈ l ++ [] ++ back, ¬ (o.range.start ≤ a ∧ a < o.range.stop) := by
      intro o ho hcontains
      rw [append_nil] at ho
      rcases mem_append.mp ho with ho | ho
      · have : o.range.stop ≤ a := hfront o ho
        omega
      · have : a + 1 ≤ o.range.start := hback o ho
        omega
    have hleft : ((l ++ [] ++ back)[l.length]?.filter fun r =>
        r.range.contains a) = none := by
      rw [filter_eq_none_iff]
      intro o ho hcontains
      exact hnone o (mem_of_getElem? ho) ((contains_iff _ _).mp hcontains)
    rw [hleft]
    simp only [reduceCtorEq, false_iff, not_and]
    exact fun hm hstart hstop => hnone r hm ⟨hstart, hstop⟩
  · obtain ⟨hstop, hstart⟩ := hmid found (by simp)
    have hat : (l ++ found :: mid ++ back)[l.length]? = some found := by simp
    have hcontains : found.range.contains a = true :=
      (contains_iff _ _).mpr ⟨Nat.lt_succ_iff.mp hstart, hstop⟩
    rw [hat, filter_some, if_pos hcontains, some.injEq]
    constructor
    · rintro rfl
      exact ⟨by simp, (contains_iff _ _).mp hcontains⟩
    · rintro ⟨hm, hin⟩
      exact hordered.unique (by simp) hm ((contains_iff _ _).mp hcontains) hin

lemma pageAt_eq_some_iff (h : stretch.Ordered s.regions) :
    pageAt s a = some page ↔ stretch.Holds (Shows page) s.regions a := by
  rw [pageAt, map_eq_some_iff]
  constructor
  · rintro ⟨r, hfind, hp⟩
    obtain ⟨hm, hstart, hstop⟩ := (find_eq_some_iff h).mp hfind
    exact ⟨r, hm, hstart, hstop, hp⟩
  · rintro ⟨r, hm, hstart, hstop, hp⟩
    exact ⟨r, (find_eq_some_iff h).mpr ⟨hm, hstart, hstop⟩, hp⟩

lemma pointwise_pageOf (low high : Nat) (P : Page → Prop) :
    Pointwise stretch (ValidRegion low high) fun r a => P (pageOf r a) := by
  constructor
  · intro r a x _
    exact Iff.rfl
  · intro r a x hvalid hstart hx hstop
    have hc := hvalid.covers
    rw [PageRange.bytes] at hc
    change r.range.start < a at hstart
    change x < r.range.stop at hstop
    have hsame : pageOf (stretch.tail r a) x = pageOf r x := by
      change (⟨r.flags, (r.backing.advancedBy (a - r.range.start)).advancedBy
        (x - a)⟩ : Page) = ⟨r.flags, r.backing.advancedBy (x - r.range.start)⟩
      rw [Backing.advancedBy_advancedBy (by omega)]
      congr 2
      omega
    rw [hsame]

lemma pointwise_shows (low high : Nat) (page : Page) :
    Pointwise stretch (ValidRegion low high) (Shows page) :=
  pointwise_pageOf low high (· = page)

lemma gathers_shows (low high : Nat) (page : Page) : (joining low high).Gathers (Shows page) := by
  constructor
  · intro l r x _ hshows
    exact hshows
  · intro l r x hleft hright hjoins hstart hstop hshows
    obtain ⟨hmeets, hflags, hbacking⟩ := (mergeable_iff hleft.covers).mp hjoins
    have hc := hright.covers
    rw [hbacking, Backing.base_advancedBy hleft.covers, PageRange.bytes, PageRange.bytes] at hc
    change r.range.start ≤ x at hstart
    change x < r.range.stop at hstop
    have hlt := hleft.lt
    rw [Shows, pageOf, hbacking, PageRange.bytes,
      Backing.advancedBy_advancedBy (by omega), ← hflags] at hshows
    have hdistance : l.range.stop - l.range.start + (x - r.range.start) =
        x - l.range.start := by omega
    rw [hdistance] at hshows
    exact hshows

lemma shows_joined {low high : Nat} {l after : List Vma}
    (hbefore : (joining low high).Joined l after) :
    stretch.Holds (Shows page) after a ↔ stretch.Holds (Shows page) l a := by
  constructor
  · intro hafter
    obtain ⟨r, hm, hstart, hstop, hp⟩ := hafter
    obtain ⟨source, hsource, hsourcestart, hsourcestop, -⟩ :=
      hbefore.covered a ⟨r, hm, hstart, hstop, trivial⟩
    obtain ⟨o, ho, hotherstart, hotherstop, hotherpage⟩ :=
      hbefore.gathers _ _ (gathers_shows low high (pageOf source a))
        ⟨source, hsource, hsourcestart, hsourcestop, rfl⟩
    have hsame := hbefore.sound.ordered.unique hm ho ⟨hstart, hstop⟩ ⟨hotherstart, hotherstop⟩
    rw [← hsame] at hotherpage
    exact ⟨source, hsource, hsourcestart, hsourcestop, hotherpage.symm.trans hp⟩
  · exact hbefore.gathers _ _ (gathers_shows low high page)

variable {s' : AddressSpace}

lemma Became.pageAt {s' : AddressSpace} {list : List Vma} (h : Became s s' list) :
    pageAt s' a = some page ↔ stretch.Holds (Shows page) list a := by
  rw [pageAt_eq_some_iff h.sound.regions.ordered, shows_joined h.joined]

variable {low high : Nat} {range : PageRange} {rs new : List Vma} {a : Nat}

lemma contains_eq_false_iff : range.contains a = false ↔ a < range.start ∨ range.stop ≤ a := by
  rw [← Bool.not_eq_true, contains_iff]
  omega

variable {Q Q' : Vma → Nat → Prop} {f : Vma → Vma}

lemma holds_replaced (hQ : Pointwise stretch (ValidRegion low high) Q)
    (hvalid : ∀ r ∈ rs, ValidRegion low high r) :
    stretch.Holds Q (replaced range rs new) a ↔
      (range.contains a = false ∧ stretch.Holds Q rs a) ∨ stretch.Holds Q new a := by
  rw [replaced, holds_append, holds_append, hQ.below, hQ.above hvalid, contains_eq_false_iff]
  tauto

lemma holds_within (hQ : Pointwise stretch (ValidRegion low high) Q)
    (hvalid : ∀ r ∈ stretch.below range.stop rs, ValidRegion low high r) :
    stretch.Holds Q (within range rs) a ↔ range.contains a = true ∧ stretch.Holds Q rs a := by
  rw [within, hQ.above hvalid, hQ.below, contains_iff]
  tauto

lemma holds_map (hf : Recolours f) (hiff : ∀ r a, Q (f r) a ↔ Q' r a) :
    stretch.Holds Q (rs.map f) a ↔ stretch.Holds Q' rs a := by
  constructor
  · rintro ⟨o, ho, hc⟩
    obtain ⟨r, hr, rfl⟩ := mem_map.mp ho
    rw [hf.start, hf.stop, hiff] at hc
    exact ⟨r, hr, hc⟩
  · rintro ⟨r, hr, hc⟩
    refine ⟨f r, mem_map_of_mem hr, ?_⟩
    rw [hf.start, hf.stop, hiff]
    exact hc

lemma pageAt_congr (h : s'.regions = s.regions) : pageAt s' = pageAt s := by
  funext a
  rw [pageAt, pageAt, find, find, h]

lemma exists_of_coversFrom {stop covered : Nat} (h : coversFrom stop covered rs = true)
    (hcovered : covered ≤ a) (hstop : a < stop) :
    ∃ r ∈ rs, r.range.start ≤ a ∧ a < r.range.stop := by
  induction rs generalizing covered with
  | nil => simp [coversFrom] at h
  | cons r rs ih =>
    rw [coversFrom] at h
    split at h
    · simp at h
    rcases lt_or_ge a r.range.stop with hlt | hge
    · exact ⟨r, by simp, by omega, hlt⟩
    · rw [if_neg (by omega)] at h
      obtain ⟨o, ho, hcontains⟩ := ih h hge
      exact ⟨o, by simp [ho], hcontains⟩

section

variable (h : Sound s)
include h

lemma holds_rewritten (hvalid : range.Valid) (hQ : Pointwise stretch (ValidRegion s.low s.high) Q)
    (hQ' : Pointwise stretch (ValidRegion s.low s.high) Q') (hf : Recolours f)
    (hiff : ∀ r a, Q (f r) a ↔ Q' r a) :
    stretch.Holds Q (rewritten range f s.regions) a ↔
      (range.contains a = false ∧ stretch.Holds Q s.regions a) ∨
        (range.contains a = true ∧ stretch.Holds Q' s.regions a) := by
  rw [rewritten, holds_append, holds_append, holds_map hf hiff, hQ.below, hQ'.below,
    hQ'.above h.regions.valid, hQ.above (h.above hvalid.start_aligned).valid,
    hQ.above h.regions.valid, contains_eq_false_iff, contains_iff]
  constructor
  · rintro ((⟨hx, hholds⟩ | ⟨hx, hx', hholds⟩) | ⟨hx, -, hholds⟩)
    · exact .inl ⟨.inl hx, hholds⟩
    · exact .inr ⟨⟨hx', hx⟩, hholds⟩
    · exact .inl ⟨.inr hx, hholds⟩
  · rintro (⟨hx | hx, hholds⟩ | ⟨⟨hx, hx'⟩, hholds⟩)
    · exact .inl (.inl ⟨hx, hholds⟩)
    · exact .inr ⟨hx, hvalid.lt.le.trans hx, hholds⟩
    · exact .inl (.inr ⟨hx', hx, hholds⟩)

lemma shows_replaced : stretch.Holds (Shows page) (replaced range s.regions new) a ↔
      (range.contains a = false ∧ pageAt s a = some page) ∨ stretch.Holds (Shows page) new a := by
  rw [holds_replaced (pointwise_shows s.low s.high page) h.regions.valid,
    pageAt_eq_some_iff h.regions.ordered]

lemma pageAt_set (r : Vma) (hbecame : Became s s' (replaced r.range s.regions [r])) :
    pageAt s' = Pages.set r.range r.flags r.backing (pageAt s) := by
  funext a
  refine ext fun page => ?_
  rw [Became.pageAt hbecame, shows_replaced h, holds_singleton, Pages.set]
  change _ ∨ (r.range.start ≤ a ∧ a < r.range.stop ∧ _) ↔ _
  rw [← and_assoc, ← contains_iff]
  rcases hcontains : r.range.contains a
  · simp
  · rw [if_pos rfl, some.injEq]
    simp [Shows, pageOf]

lemma pageAt_unset (hbecame : Became s s' (replaced range s.regions [])) :
    pageAt s' = Pages.unset range (pageAt s) := by
  funext a
  refine ext fun page => ?_
  have hnil : ¬ stretch.Holds (Shows page) [] a := by
    rintro ⟨r, hr, -⟩
    exact absurd hr not_mem_nil
  rw [Became.pageAt hbecame, shows_replaced h, or_iff_left hnil, Pages.unset]
  rcases hcontains : range.contains a <;> simp

lemma pageAt_reflag (hvalid : range.Valid) {flags : VmaFlags}
    (hbecame : Became s s' (rewritten range (reprotected flags) s.regions)) :
    pageAt s' = Pages.reflag range flags (pageAt s) := by
  funext a
  refine ext fun page => ?_
  have hflags : ∀ r : Vma, (reprotected flags r).flags = flags := by
    intro r
    rw [reprotected]
    dsimp only
    split <;> rfl
  have hp : ∀ (r : Vma) (a : Nat), Shows page (reprotected flags r) a ↔
        ({ pageOf r a with flags := flags } : Page) = page := by
    intro r a
    rw [Shows, pageOf, hflags, (reprotected_recolours flags).backing,
      (reprotected_recolours flags).range]
    exact Iff.rfl
  rw [Became.pageAt hbecame, holds_rewritten h hvalid (pointwise_shows _ _ page)
    (pointwise_pageOf _ _ fun o => ({ o with flags := flags } : Page) = page)
    (reprotected_recolours flags) hp, Pages.reflag]
  rcases hcontains : range.contains a
  · rw [if_neg Bool.false_ne_true, pageAt_eq_some_iff h.regions.ordered]
    simp
  · rw [if_pos rfl, map_eq_some_iff]
    simp only [Bool.true_eq_false, false_and, true_and, false_or]
    constructor
    · rintro ⟨r, hm, hstart, hstop, heq⟩
      exact ⟨pageOf r a, (pageAt_eq_some_iff h.regions.ordered).mpr
        ⟨r, hm, hstart, hstop, rfl⟩, heq⟩
    · rintro ⟨o, hold, heq⟩
      obtain ⟨r, hm, hstart, hstop, hshows⟩ :=
        (pageAt_eq_some_iff h.regions.ordered).mp hold
      rw [← hshows] at heq
      exact ⟨r, hm, hstart, hstop, heq⟩

lemma pageAt_marked (hbecame : Became s s' (s.regions.map AddressSpace.marked)) :
    pageAt s' = pageAt s := by
  funext a
  refine ext fun page => ?_
  have hp : ∀ (r : Vma) (a : Nat), Shows page (marked r) a ↔ Shows page r a := by
    intro r a
    rw [marked]
    split <;> exact Iff.rfl
  rw [Became.pageAt hbecame, holds_map marked_recolours hp, pageAt_eq_some_iff h.regions.ordered]

lemma names_within (hvalid : range.Valid) :
    Names range (pageAt s) ((within range s.regions).map unmapped) := by
  have hordered : stretch.Ordered (within range s.regions) :=
    (h.regions.ordered.below range.stop).above range.start
  constructor
  · intro unmapping hunmapping
    obtain ⟨r, hr, rfl⟩ := mem_map.mp hunmapping
    exact hordered.solid r hr
  · rw [pairwise_map]
    exact hordered.apart
  · intro a page
    rw [pageAt_eq_some_iff h.regions.ordered, ← holds_within
      (pointwise_shows s.low s.high page) (h.below hvalid.stop_aligned).valid]
    constructor
    · rintro ⟨unmapping, hunmapping, hcontains, heq⟩
      obtain ⟨r, hr, rfl⟩ := mem_map.mp hunmapping
      obtain ⟨hstart, hstop⟩ := (contains_iff _ _).mp hcontains
      exact ⟨r, hr, hstart, hstop, heq.symm⟩
    · rintro ⟨r, hr, hstart, hstop, heq⟩
      exact ⟨unmapped r, mem_map_of_mem hr, (contains_iff _ _).mpr ⟨hstart, hstop⟩, heq.symm⟩

lemma isSome_of_isFullyMapped (hmapped : isFullyMapped s.regions range = true)
    (hcontains : range.contains a = true) : (pageAt s a).isSome = true := by
  obtain ⟨hstart, hstop⟩ := (contains_iff _ _).mp hcontains
  obtain ⟨r, hr, hin⟩ := exists_of_coversFrom hmapped hstart hstop
  rw [pageAt, (find_eq_some_iff h.regions.ordered).mpr ⟨mem_of_mem_drop hr, hin⟩]
  rfl

lemma eq_none_of_replaced (hf : replaced range s.regions [] = s.regions) :
    ∀ a, range.contains a = true → pageAt s a = none := by
  intro a hcontains
  rw [eq_none_iff_forall_ne_some]
  intro page hp
  rw [pageAt_eq_some_iff h.regions.ordered, ← hf, shows_replaced h] at hp
  rcases hp with ⟨hout, -⟩ | ⟨r, hr, -⟩
  · rw [hcontains] at hout
    exact absurd hout (by decide)
  · exact absurd hr not_mem_nil

lemma pages_of_succeeds {c : Call} {b : Answer} (hsucceeds : Succeeds s c b s') :
    pageAt s' = effect c (pageAt s) ∧ Answers (pageAt s) c b := by
  cases hsucceeds with
  | insert range flags backing hf hbecame =>
    exact ⟨pageAt_set h ⟨range.1, flags, backing, false⟩ hbecame, eq_none_of_replaced h hf⟩
  | insertRegion range flags backing cow hf hbecame =>
    exact ⟨pageAt_set h ⟨range.1, flags, backing, cow⟩ hbecame, eq_none_of_replaced h hf⟩
  | mapFixed range flags backing hbecame =>
    exact ⟨pageAt_set h ⟨range.1, flags, backing, false⟩ hbecame, names_within h range.2⟩
  | remove range hbecame => exact ⟨pageAt_unset h hbecame, names_within h range.2⟩
  | removeQuietly hbecame => exact ⟨pageAt_unset h hbecame, trivial⟩
  | protect range hmapped hbecame =>
    exact ⟨pageAt_reflag h range.2 hbecame,
      fun _ hcontains => isSome_of_isFullyMapped h hmapped hcontains⟩
  | setHigh hregions => exact ⟨pageAt_congr hregions, trivial⟩
  | cloneForFork hbecame hc => exact ⟨pageAt_marked h hbecame, pageAt_marked h hc⟩

end

/-- Every successful call does to the pages what it is for and answers as it
should, and every call that fails leaves them as they were. -/
theorem perform_refines (memory : Memory) {space : AddressSpace}
    (hinvariants : space.checkInvariants = .ok ()) (call : Call) :
    (∀ answer space', perform memory space call = (.ok answer, space') →
        pageAt space' = effect call (pageAt space) ∧ Answers (pageAt space) call answer) ∧
      ∀ error space', perform memory space call = (.error error, space') →
        pageAt space' = pageAt space := by
  have h := checkInvariants_eq_ok.mp hinvariants
  constructor
  · intro answer space' heq
    exact pages_of_succeeds h (.of_perform h heq)
  · intro error space' heq
    rcases perform_cases h memory call with ⟨error', hfailed⟩ | ⟨answer, after, hdone, -⟩
    · rw [← (Prod.mk.inj (hfailed.symm.trans heq)).2]
    · exact absurd (hdone.symm.trans heq) (by simp)

def fileSpace : AddressSpace :=
  ⟨[⟨⟨4096, 16384⟩, ⟨true, false, false, false, false, false⟩, .file 7 0, false⟩], 4, 4096, 2 ^ 47⟩

def hole : CheckedRange := ⟨⟨8192, 12288⟩, by decide, by decide, by decide, by decide⟩

theorem perform_refines_hole :
    pageAt (perform ⟨fun _ => true, .exact, .exact⟩ fileSpace (.remove hole)).2 =
      Pages.unset hole.1 (pageAt fileSpace) :=
  ((perform_refines ⟨fun _ => true, .exact, .exact⟩ (by rfl) (.remove hole)).1 _ _ rfl).1

end Ferrix.AddressSpaces.PageMap

import Ferrix.KernelHeap.HeapCalls

/-!
Every block of a reserve is a loan of the heap.  A reserve's calls move blocks between the
reserve, the heap and the caller.
-/

namespace Ferrix.KernelHeap.Reserves

open Foundations.Links Slabs Slabs.Backing Accounts HeapCalls Function List Reserve

section

def stock (kept : Nat → List Nat) (large : List Nat) : List Loan :=
  ((List.range classes).flatMap fun class_ =>
    (kept class_).map fun address => ⟨address, .small class_⟩) ++
  (List.range large.length).flatMap fun order =>
    if large.getD order listEnd = listEnd then []
    else [⟨large.getD order listEnd, .large order⟩]

lemma flatMap_perm_cons {α β : Type} {l : List α} {f g : α → List β} {a : α} {x : β}
    (hnodup : l.Nodup) (hm : a ∈ l) (hat : f a = x :: g a) (hoff : ∀ b ≠ a, f b = g b) :
    (l.flatMap f).Perm (x :: l.flatMap g) := by
  induction l with
  | nil => exact absurd hm not_mem_nil
  | cons b l ih =>
    rw [nodup_cons] at hnodup
    rw [flatMap_cons, flatMap_cons]
    rcases mem_cons.mp hm with rfl | hm
    · have hr : l.flatMap f = l.flatMap g :=
        flatMap_congr fun b hb => hoff b (ne_of_mem_of_not_mem hb hnodup.1)
      rw [hat, hr]
      exact .refl _
    · rw [hoff b (ne_of_mem_of_not_mem hm hnodup.1).symm]
      exact ((ih hnodup.2 hm).append_left _).trans perm_middle

variable {kept : Nat → List Nat} {large : List Nat} {k order addr : Nat} {rest : List Nat}

lemma stock_push (hk : k < classes) : (stock (update kept k (addr :: rest)) large).Perm
      (⟨addr, .small k⟩ :: stock (update kept k rest) large) := by
  refine List.Perm.append_right _ (flatMap_perm_cons nodup_range (mem_range.mpr hk) ?_ ?_)
  · rw [update_self, update_self]
    rfl
  · intro c hne
    rw [update_of_ne hne, update_of_ne hne]

lemma stock_set (kept : Nat → List Nat) (horder : order < large.length) (hend : addr ≠ listEnd) :
    (stock kept (large.set order addr)).Perm
      (⟨addr, .large order⟩ :: stock kept (large.set order listEnd)) := by
  refine List.Perm.trans (List.Perm.append_left _ ?_) perm_middle
  rw [length_set, length_set]
  refine flatMap_perm_cons nodup_range (mem_range.mpr horder) ?_ ?_
  · simp [horder, hend]
  · intro o hne
    simp only [getD_eq_getElem?_getD, List.getElem?_set_ne hne.symm]

lemma set_getD (large : List Nat) (order : Nat) :
    large.set order (large.getD order listEnd) = large := by
  rcases lt_or_ge order large.length with hlt | hge
  · simp [hlt]
  · exact set_eq_of_length_le hge

lemma smalls_stock (hk : k < classes) (haddress : addr ∈ kept k) :
    ⟨addr, .small k⟩ ∈ stock kept large :=
  mem_append_left _ (mem_flatMap.mpr ⟨k, mem_range.mpr hk, mem_map.mpr ⟨addr, haddress, rfl⟩⟩)

end

variable {σ : Type} [Backing σ] {C : Contract σ} {heap : Heap} {b after : σ}
  {reserve : Reserve} {kept : Nat → List Nat} {others : List Loan} {k order addr : Nat}
variable {list : List Nat}

/-- The lists of a reserve are threaded through the objects it keeps and its counts are their
lengths. -/
structure Keeps (backing : σ) (reserve : Reserve) (kept : Nat → List Nat) : Prop where
  heads : reserve.heads.length = classes
  counts : reserve.counts.length = classes
  large : reserve.large.length = reserveLargeOrders
  chain : ∀ class_ < classes, Chain (readLink backing) listEnd (reserve.head class_) (kept class_)
  count : ∀ class_ < classes, reserve.count class_ = (kept class_).length

lemma Keeps.of_links (hkeeps : Keeps b reserve kept) (hlinks : ∀ k < classes, ∀ addr ∈ kept k,
      readLink after addr = readLink b addr) : Keeps after reserve kept :=
  { hkeeps with
    chain := fun k hk => (hkeeps.chain k hk).congr (hlinks k hk) }

lemma Keeps.of_unread {ls : List Loan} (hkeeps : Keeps b reserve kept)
    (hu : Unread b after ls) (hstock : stock kept reserve.large ⊆ ls) :
    Keeps after reserve kept :=
  hkeeps.of_links fun k hk addr haddress =>
    hu k hk addr (mem_smalls.mpr (hstock (smalls_stock hk haddress)))

structure Stocked (C : Contract σ) (heap : Heap) (backing : σ) (reserve : Reserve)
    (kept : Nat → List Nat) (others : List Loan) : Prop where
  keeps : Keeps backing reserve kept
  sound : ∃ pages free,
    Sound C heap backing pages free (stock kept reserve.large ++ others)

/-- What a call on a reserve leaves, the loans that are not the reserve's being given. -/
def Stocks (C : Contract σ) (backing : σ) (others : List Loan)
    (result : Reserve × Heap × σ) : Prop :=
  Unread backing result.2.2 others ∧
    ∃ kept, Stocked C result.2.1 result.2.2 result.1 kept others

section

variable {pages : List (Nat × Nat)} {free : Nat → List Nat} {ls : List Loan}

lemma ne_of_mem_loans (h : Sound C heap b pages free (⟨addr, .small k⟩ :: ls)) {k' addr' : Nat}
    (hk' : k' < classes) (hm : addr' ∈ free k' ++ smalls k' ls) : addr' ≠ addr := by
  rintro rfl
  have hk := h.classed _ (.head _) k rfl
  have hself : addr' ∈ free k ++ smalls k (⟨addr', .small k⟩ :: ls) := by
    simp
  have hm' : addr' ∈ free k' ++ smalls k' (⟨addr', .small k⟩ :: ls) := by
    rcases mem_append.mp hm with hf | hloan
    · exact mem_append_left _ hf
    · exact mem_append_right _ (mem_smalls.mpr (.tail _ (mem_smalls.mp hloan)))
  obtain rfl := h.class_of_mem hk' hm' hk hself
  have hnodup := (h.objects k' hk).nodup_iff.mp (h.nodup_objects hk)
  rw [smalls_cons_small] at hnodup
  exact (nodup_middle.mp hnodup).notMem hm

lemma ne_listEnd (h : Sound C heap b pages free (⟨addr, .small k⟩ :: ls)) : addr ≠ listEnd := by
  have hk := h.classed _ (.head _) k rfl
  have hself : addr ∈ free k ++ smalls k (⟨addr, .small k⟩ :: ls) := by
    simp
  obtain ⟨-, hrun, hspan, -⟩ := h.exists_run hk hself
  have hpos := Nat.pos_of_ne_zero (h.aligned _ hrun).2
  exact Nat.ne_of_gt (Nat.lt_of_lt_of_le hpos hspan.1)

lemma Keeps.replace (hkeeps : Keeps b reserve kept) (hk : k < classes) {f : Nat → Nat}
    (hchain : Chain (readLink after) listEnd addr list) (hn : f (kept k).length = list.length)
    (hlinks : ∀ c < classes, ∀ a ∈ kept c, readLink after a = readLink b a) :
    Keeps after { reserve with
      heads := reserve.heads.set k addr
      counts := reserve.counts.modify k f } (update kept k list) := by
  have hheads : k < reserve.heads.length := hkeeps.heads ▸ hk
  have hcounts : k < reserve.counts.length := hkeeps.counts ▸ hk
  refine ⟨(length_set ..).trans hkeeps.heads, (length_modify ..).trans hkeeps.counts,
    hkeeps.large, fun c hc => ?_, fun c hc => ?_⟩
  · rcases eq_or_ne c k with rfl | hne
    · simpa [Reserve.head, hheads] using hchain
    · simpa [Reserve.head, hne, Ne.symm hne] using (hkeeps.chain c hc).congr (hlinks c hc)
  · have hold := hkeeps.count c hc
    rcases eq_or_ne c k with rfl | hne
    · simpa [Reserve.count, hcounts] using (congrArg f hold).trans hn
    · simpa [Reserve.count, hne, Ne.symm hne] using hold

lemma hold_spec (hkeeps : Keeps b reserve kept)
    (h : Sound C heap b pages free (⟨addr, .small k⟩ :: (stock kept reserve.large ++ others)))
    (hroom : (kept k).length + 1 < 2 ^ 16) :
    let result := reserve.hold b k addr
    Unread b result.2 others ∧ Stocked C heap result.2 result.1
        (update kept k (addr :: kept k)) others := by
  have hk := h.classed _ (.head _) k rfl
  have hself : addr ∈ free k ++ smalls k (⟨addr, .small k⟩ ::
        (stock kept reserve.large ++ others)) := by
    simp
  obtain ⟨-, hrun, hspan, height⟩ := h.exists_run hk hself
  obtain ⟨howned, hread, hsame⟩ := C.write (reserve.head k) hrun hspan height
  have hlink : ∀ c < classes, ∀ a ∈ smalls c (stock kept reserve.large ++ others),
      readLink (writeLink b addr (reserve.head k)) a = readLink b a := by
    intro c hc a ha
    have hm := mem_append_right (free c) ha
    have hm' : a ∈ free c ++ smalls c (⟨addr, .small k⟩ :: (stock kept reserve.large ++ others)) :=
      mem_append_right _ (mem_smalls.mpr (.tail _ (mem_smalls.mp ha)))
    obtain ⟨-, hrun', hspan', height'⟩ := h.exists_run hc hm'
    exact hsame.link _ hrun' _ hspan' height' (ne_of_mem_loans h hc hm)
  have hkept : ∀ c < classes, ∀ a ∈ kept c,
      readLink (writeLink b addr (reserve.head k)) a = readLink b a :=
    fun c hc a ha =>
      hlink c hc a (mem_smalls.mpr (mem_append_left _ (smalls_stock hc ha)))
  refine ⟨fun c hc a ha => hlink c hc a (mem_smalls.mpr (mem_append_right _
    (mem_smalls.mp ha))), ?_, pages, free, ?_⟩
  · refine hkeeps.replace hk ?_ ?_ hkept
    · exact (hkeeps.chain k hk).push (ne_listEnd h) hread (hkept k hk)
    · rw [length_cons]
      omega
  · refine Sound.perm ?_ (h.of_same howned hsame ?_)
    · have hpush : (stock (update kept k (addr :: kept k)) reserve.large).Perm
          (⟨addr, .small k⟩ :: stock (update kept k (kept k)) reserve.large) :=
        stock_push hk
      rw [update_eq_self] at hpush
      exact (hpush.append_right others).symm
    · intro c hc a ha
      exact ne_of_mem_loans h hc (mem_append_left _ ha)

end

lemma extentOf_class (hk : k < classes) : classOf ⟨classSize k, classSize k⟩ = some k ∧
      isPowerOfTwo (classSize k) = true := by
  have hall : ∀ c < classes, classOf ⟨classSize c, classSize c⟩ = some c ∧
      isPowerOfTwo (classSize c) = true := by
    decide
  exact hall k hk

lemma extentOf_order (horder : order < reserveLargeOrders) :
    extentOf ⟨pageSize * 2 ^ order, pageSize⟩ = some (.large order) := by
  have hall : ∀ o < reserveLargeOrders,
      extentOf ⟨pageSize * 2 ^ o, pageSize⟩ = some (.large o) := by
    decide
  exact hall order horder

lemma Stocks.of_unread {middle : σ} {result : Reserve × Heap × σ}
    (hu : Unread b middle others) (hstocks : Stocks C middle others result) :
    Stocks C b others result :=
  ⟨hu.trans hstocks.1, hstocks.2⟩

/-- What `take` leaves: the block handed out, if any, is no longer the reserve's. -/
def Takes (C : Contract σ) (heap : Heap) (backing : σ) (request : Request)
    (others : List Loan) (result : Option Nat × Reserve) : Prop :=
  ∃ kept, match result.1 with
    | none => Stocked C heap backing result.2 kept others
    | some address => ∃ extent, extentOf request = some extent ∧
        Stocked C heap backing result.2 kept (⟨address, extent⟩ :: others)

variable (hs : Stocked C heap b reserve kept others) {depth l : Nat} {extent : Extent}
include hs

lemma stocks_self : Stocks C b others (reserve, heap, b) :=
  ⟨fun _ _ _ _ => rfl, kept, hs⟩

lemma Stocked.lends {result : Except HeapError Nat × Heap × σ}
    (hlends : ∀ {pages free}, Sound C heap b pages free (stock kept reserve.large ++ others) →
      Lends C b (stock kept reserve.large ++ others) extent result) :
    Unread b result.2.2 others ∧ Keeps result.2.2 reserve kept ∧ ∃ pages free,
        match result.1 with
        | .error _ => Sound C result.2.1 result.2.2 pages free (stock kept reserve.large ++ others)
        | .ok addr => Sound C result.2.1 result.2.2 pages free
            (⟨addr, extent⟩ :: (stock kept reserve.large ++ others)) := by
  obtain ⟨pages, free, h⟩ := hs.sound
  obtain ⟨hu, h'⟩ := hlends h
  exact ⟨hu.subset (subset_append_right _ _), hs.keeps.of_unread hu (subset_append_left _ _), h'⟩

lemma holdLarge_spec (request : Request) :
    Stocks C b others (reserve.holdLarge heap b request).2 := by
  rw [holdLarge]
  split
  · exact stocks_self hs
  split
  · exact stocks_self hs
  split
  · exact stocks_self hs
  rename_i order _ _ slot hslot
  split_ifs with hempty
  · obtain ⟨horder, hg⟩ := List.getElem?_eq_some_iff.mp hslot
    have hextent := extentOf_order (hs.keeps.large ▸ horder)
    obtain ⟨hu, hkeeps, pages, free, h⟩ := hs.lends fun h =>
      allocate_spec ⟨pageSize * 2 ^ order, pageSize⟩ (.large order) h (by simp [hextent])
    revert hu hkeeps h
    rcases heap.allocate b ⟨pageSize * 2 ^ order, pageSize⟩ with
      ⟨e | block, heap', b'⟩
    · intro hu hkeeps h
      exact ⟨hu, kept, hkeeps, pages, free, h⟩
    · intro hu hkeeps h
      have hrun : (block, order) ∈ C.owned b' := by
        rw [h.owned.mem_iff, larges_cons_large]
        exact mem_append_right _ mem_cons_self
      have hperm := stock_set kept horder (h.aligned _ hrun).2
      have hset : reserve.large.set order listEnd = reserve.large := by
        rw [← hempty, ← hg]
        exact set_getElem_self horder
      rw [hset] at hperm
      refine ⟨hu, kept, ⟨hkeeps.heads, hkeeps.counts, ?_, hkeeps.chain, hkeeps.count⟩,
        pages, free, h.perm (hperm.append_right others).symm⟩
      exact (length_set ..).trans hkeeps.large
  · exact stocks_self hs

lemma takeSmall_spec {rest : List Nat} (hk : k < classes) (hkept : kept k = addr :: rest) :
    ∃ reserve', reserve.takeSmall b k = (some addr, reserve') ∧
      Stocked C heap b reserve' (update kept k rest) (⟨addr, .small k⟩ :: others) := by
  have hkeeps := hs.keeps
  have hchain := hkeeps.chain k hk
  rw [hkept] at hchain
  obtain ⟨pages, free, h⟩ := hs.sound
  have htake : reserve.takeSmall b k = (some addr,
      { reserve with
        heads := reserve.heads.set k (readLink b addr)
        counts := reserve.counts.modify k (· - 1) }) := by
    rw [takeSmall, hchain.1, if_neg hchain.2.1]
  refine ⟨_, htake, ?_, pages, free, h.perm ?_⟩
  · exact hkeeps.replace hk hchain.2.2 (by rw [hkept]; rfl) fun _ _ _ _ => rfl
  · have hpush : (stock (update kept k (addr :: rest)) reserve.large).Perm
        (⟨addr, .small k⟩ :: stock (update kept k rest) reserve.large) :=
      stock_push hk
    rw [← hkept, update_eq_self] at hpush
    exact (hpush.append_right others).trans perm_middle.symm

lemma takeSmall_nil (hk : k < classes) (hkept : kept k = []) :
    reserve.takeSmall b k = (none, reserve) := by
  have hchain := hs.keeps.chain k hk
  rw [hkept] at hchain
  rw [takeSmall]
  exact if_pos hchain

lemma Stocked.empty_slot (horder : order < reserve.large.length)
    (hfull : reserve.large.getD order listEnd ≠ listEnd) :
    Stocked C heap b { reserve with large := reserve.large.set order listEnd } kept
      (⟨reserve.large.getD order listEnd, .large order⟩ :: others) := by
  obtain ⟨pages, free, h⟩ := hs.sound
  refine ⟨⟨hs.keeps.heads, hs.keeps.counts, ?_, hs.keeps.chain,
    hs.keeps.count⟩, pages, free, h.perm ?_⟩
  · exact (length_set ..).trans hs.keeps.large
  · have hperm := stock_set kept horder hfull
    rw [set_getD] at hperm
    exact (hperm.append_right others).trans perm_middle.symm

lemma take_spec (request : Request) : Takes C heap b request others (reserve.take b request) := by
  rw [Reserve.take]
  split_ifs
  · exact ⟨kept, hs⟩
  split
  · rename_i k hrequest
    have hk := class_lt_of_classOf hrequest
    cases hkept : kept k with
    | nil =>
      rw [takeSmall_nil hs hk hkept]
      exact ⟨kept, hs⟩
    | cons addr rest =>
      obtain ⟨reserve', htake, hs'⟩ := takeSmall_spec hs hk hkept
      rw [htake]
      exact ⟨_, _, by rw [extentOf, hrequest], hs'⟩
  · rename_i hrequest
    split
    · exact ⟨kept, hs⟩
    · rename_i order horder
      split
      · exact ⟨kept, hs⟩
      · rename_i block hb
        obtain ⟨hlt, -⟩ := List.getElem?_eq_some_iff.mp hb
        have hg : reserve.large.getD order listEnd = block := by
          rw [getD_eq_getElem?_getD, hb]
          rfl
        split_ifs with hfull
        · refine ⟨kept, .large order, by rw [extentOf, hrequest, horder], ?_⟩
          have hemptied := hs.empty_slot hlt (hg ▸ hfull)
          rwa [hg] at hemptied
        · rw [not_not] at hfull
          refine ⟨kept, ?_⟩
          have hset := set_getD reserve.large order
          rw [hg, hfull] at hset
          rw [hset]
          exact hs

lemma fillClass_spec (hk : k < classes) (hdepth : depth < 2 ^ 16)
    (hleft : depth ≤ reserve.count k + l) :
    let result := fillClass depth k l reserve heap b
    Stocks C b others result.2 ∧ (result.1 = .ok () → depth ≤ result.2.1.count k) := by
  induction l generalizing reserve heap b kept with
  | zero => exact ⟨stocks_self hs, fun _ => hleft⟩
  | succ l ih =>
    rw [fillClass]
    split
    · rename_i hless
      obtain ⟨hu, hkeeps, pages, free, h⟩ := hs.lends fun h =>
        allocate_spec ⟨classSize k, classSize k⟩ (.small k) h
          (by simp [extentOf, (extentOf_class hk).1])
      dsimp only
      revert hu hkeeps h
      rcases heap.allocate b ⟨classSize k, classSize k⟩ with
        ⟨e | object, heap', b'⟩
      · intro hu hkeeps h
        refine ⟨⟨hu, kept, hkeeps, pages, free, h⟩, fun hok => ?_⟩
        cases hok
      · intro hu hkeeps h
        rw [hs.keeps.count k hk] at hless
        obtain ⟨hu', hs'⟩ := hold_spec hkeeps h (by omega)
        have hn := hs'.keeps.count k hk
        rw [update_self, length_cons, ← hkeeps.count k hk] at hn
        obtain ⟨hstocks, hfull⟩ := ih hs' (by omega)
        exact ⟨hstocks.of_unread (hu.trans hu'), hfull⟩
    · rename_i hfull
      exact ⟨stocks_self hs, fun _ => Nat.le_of_not_lt hfull⟩

lemma fillFrom_spec (hlist : ∀ k ∈ list, k < classes) (hdepth : depth < 2 ^ 16) :
    Stocks C b others (fillFrom depth list reserve heap b).2 := by
  induction list generalizing reserve heap b kept with
  | nil => exact stocks_self hs
  | cons k list ih =>
    rw [fillFrom]
    obtain ⟨⟨hu, kept', hs'⟩, -⟩ :=
      fillClass_spec hs (hlist k (.head _)) hdepth (Nat.le_add_left depth _)
    revert hu hs'
    rcases fillClass depth k depth reserve heap b with
      ⟨e | ⟨⟩, reserve', heap', b'⟩
    · intro hu hs'
      exact ⟨hu, kept', hs'⟩
    · intro hu hs'
      exact (ih hs' fun c hc => hlist c (.tail _ hc)).of_unread hu

lemma fill_spec (hdepth : depth < 2 ^ 16) : Stocks C b others (reserve.fill heap b depth).2 :=
  fillFrom_spec hs (fun _ hk => mem_range.mp hk) hdepth

omit hs in
lemma Stocked.settles (hs : Stocked C heap b reserve kept (⟨addr, extent⟩ :: others))
    (request : Request) (hextent : extentOf request = some extent) :
    let result := heap.deallocate b addr request
    Unread b result.2 others ∧ Stocked C result.1 result.2 reserve kept others := by
  obtain ⟨pages, free, h⟩ := hs.sound
  obtain ⟨hu, h'⟩ := deallocate_spec (h.perm perm_middle) hextent
  exact ⟨hu.subset (subset_append_right _ _), hs.keeps.of_unread hu (subset_append_left _ _), h'⟩

lemma releaseClass_spec (hk : k < classes) (hleft : (kept k).length < l) :
    let result := releaseClass k l reserve heap b
    Unread b result.2.2 others ∧
      Stocked C result.2.1 result.2.2 result.1 (update kept k []) others := by
  obtain ⟨hrequest, hpower⟩ := extentOf_class hk
  have htake : ∀ reserve : Reserve, reserve.take b ⟨classSize k, classSize k⟩ =
        reserve.takeSmall b k := by
    intro reserve
    simp [Reserve.take, hpower, hrequest]
  induction l generalizing reserve heap b kept with
  | zero => exact absurd hleft (Nat.not_lt_zero _)
  | succ l ih =>
    rw [releaseClass]
    dsimp only
    rw [htake]
    cases hkept : kept k with
    | nil =>
      rw [takeSmall_nil hs hk hkept, ← hkept, update_eq_self]
      exact ⟨fun _ _ _ _ => rfl, hs⟩
    | cons addr rest =>
      obtain ⟨reserve', heq, hs'⟩ := takeSmall_spec hs hk hkept
      rw [heq]
      obtain ⟨hu, hsettled⟩ :=
        hs'.settles ⟨classSize k, classSize k⟩ (by rw [extentOf, hrequest])
      rw [hkept, length_cons] at hleft
      obtain ⟨hu', hreleased⟩ := ih hsettled (by rw [update_self]; omega)
        (fun reserve => by simp [Reserve.take, hpower, hrequest])
      rw [update_idem] at hreleased
      exact ⟨hu.trans hu', hreleased⟩

lemma releaseFrom_spec (hlist : ∀ k ∈ list, k < classes) :
    let result := releaseFrom list reserve heap b
    Unread b result.2.2 others ∧ ∃ kept', (∀ k, k ∈ list ∨ kept k = [] → kept' k = []) ∧
        Stocked C result.2.1 result.2.2 result.1 kept' others := by
  induction list generalizing reserve heap b kept with
  | nil => exact ⟨fun _ _ _ _ => rfl, kept, by simp, hs⟩
  | cons k list ih =>
    have hk := hlist k (.head _)
    rw [releaseFrom]
    obtain ⟨hu, hreleased⟩ := releaseClass_spec hs hk (Nat.lt_succ_of_le (hs.keeps.count k hk).ge)
    obtain ⟨hu', kept', he, hs'⟩ :=
      ih hreleased fun c hc => hlist c (.tail _ hc)
    refine ⟨hu.trans hu', kept', fun c hc => he c ?_, hs'⟩
    rcases eq_or_ne c k with rfl | hne
    · exact .inr (update_self ..)
    · rw [update_of_ne hne]
      exact hc.imp_left fun hm => (mem_cons.mp hm).resolve_left hne

lemma releaseLargeFrom_spec (hlist : ∀ order ∈ list, order < reserveLargeOrders) :
    let result := releaseLargeFrom list reserve heap b
    Unread b result.2.2 others ∧ Stocked C result.2.1 result.2.2 result.1 kept others ∧
      ∀ order, order ∈ list ∨ reserve.large.getD order listEnd = listEnd →
        result.1.large.getD order listEnd = listEnd := by
  induction list generalizing reserve heap b with
  | nil => exact ⟨fun _ _ _ _ => rfl, hs, fun order horder =>
    horder.resolve_left not_mem_nil⟩
  | cons order list ih =>
    have horder := hlist order (.head _)
    have hlt : order < reserve.large.length := hs.keeps.large ▸ horder
    have he : ∀ o, o ∈ order :: list ∨ reserve.large.getD o listEnd = listEnd →
        o ∈ list ∨ (reserve.large.set order listEnd).getD o listEnd = listEnd := by
      intro o ho
      rcases eq_or_ne o order with rfl | hne
      · exact .inr (by simp [hlt])
      · rw [getD_eq_getElem?_getD, List.getElem?_set_ne hne.symm, ← getD_eq_getElem?_getD]
        exact ho.imp_left fun hm => (mem_cons.mp hm).resolve_left hne
    rw [releaseLargeFrom]
    dsimp only
    split_ifs with hfull
    · obtain ⟨hu, hsettled⟩ :=
        (hs.empty_slot hlt hfull).settles ⟨pageSize * 2 ^ order, pageSize⟩ (extentOf_order horder)
      obtain ⟨hu', hs', he'⟩ := ih hsettled fun o ho => hlist o (.tail _ ho)
      exact ⟨hu.trans hu', hs', fun o ho => he' o (he o ho)⟩
    · rw [not_not] at hfull
      have hset := set_getD reserve.large order
      rw [hfull] at hset
      rw [hset] at he ⊢
      obtain ⟨hu', hs', he'⟩ := ih hs fun o ho => hlist o (.tail _ ho)
      exact ⟨hu', hs', fun o ho => he' o (he o ho)⟩

lemma releaseLarge_spec :
    let result := reserve.releaseLarge heap b
    Unread b result.2.2 others ∧ Stocked C result.2.1 result.2.2 result.1 kept others ∧
      ∀ order, result.1.large.getD order listEnd = listEnd := by
  have hlarge := hs.keeps.large
  obtain ⟨hu, hs', he⟩ :=
    releaseLargeFrom_spec hs fun order horder => hlarge ▸ mem_range.mp horder
  refine ⟨hu, hs', fun order => he order ?_⟩
  rcases lt_or_ge order reserve.large.length with hlt | hge
  · exact .inl (mem_range.mpr hlt)
  · exact .inr (by simp [hge])

omit hs in
lemma release_eq (reserve : Reserve) (heap : Heap) (b : σ) : reserve.release heap b =
      (releaseFrom (List.range classes) reserve heap b).1.releaseLarge
        (releaseFrom (List.range classes) reserve heap b).2.1
        (releaseFrom (List.range classes) reserve heap b).2.2 := by
  rw [release]

/-- `release` gives everything held back: the rounds of its loops are enough. -/
theorem release_spec :
    let result := reserve.release heap b
    Unread b result.2.2 others ∧ ∃ kept', Stocked C result.2.1 result.2.2 result.1 kept' others ∧
        stock kept' result.1.large = [] := by
  obtain ⟨hu, kept', hnil, hreleased⟩ :=
    releaseFrom_spec hs fun _ hk => mem_range.mp hk
  rw [release_eq]
  obtain ⟨hu', hs', hlarge⟩ := releaseLarge_spec hreleased
  refine ⟨hu.trans hu', kept', hs', ?_⟩
  rw [stock, append_eq_nil_iff, flatMap_eq_nil_iff, flatMap_eq_nil_iff]
  constructor
  · intro k hk
    rw [hnil k (.inl hk)]
    rfl
  · intro order _
    exact if_pos (hlarge order)

end Ferrix.KernelHeap.Reserves

import Ferrix.Frame.Carving

/-!
Between calls no frame is held back and the counters are the sizes of the pieces.
-/

namespace Ferrix.Frame.FrameCalls

open Foundations AlignedBlocks Links Buddy Pieces FreeLists Carving
open List hiding Chain

variable {F F' : Frames} {pieces pieces' r : List Piece}
  {frame order n L l : Nat} {b : Block} {list : List Nat}

def sizeOf (use : Use) (pieces : List Piece) : Nat :=
  (pieces.map fun piece => if piece.use = use then 2 ^ piece.block.order else 0).sum

def handedOut (pieces : List Piece) : List (Nat × Nat) :=
  pieces.filterMap fun piece =>
    match piece.use with
    | .free => none
    | .allocated => some (piece.block.start, piece.block.order)

lemma sizeOf_perm (use : Use) (hperm : pieces.Perm pieces') :
    sizeOf use pieces = sizeOf use pieces' :=
  (hperm.map _).sum_eq

lemma handedOut_perm (hperm : pieces.Perm pieces') :
    (handedOut pieces).Perm (handedOut pieces') :=
  hperm.filterMap _

@[simp]
lemma sizeOf_cons (use : Use) (p : Piece) (pieces : List Piece) : sizeOf use (p :: pieces) =
      (if p.use = use then 2 ^ p.block.order else 0) + sizeOf use pieces := by
  simp [sizeOf]

@[simp]
lemma sizeOf_append (use : Use) (pieces pieces' : List Piece) :
    sizeOf use (pieces ++ pieces') = sizeOf use pieces + sizeOf use pieces' := by
  simp [sizeOf]

@[simp]
lemma sizeOf_free_freed (blocks : List Block) : sizeOf .free (freed blocks) = total blocks := by
  simp only [sizeOf, freed, total, map_map, Function.comp_def, if_true]
  rfl

@[simp]
lemma sizeOf_allocated_freed (blocks : List Block) : sizeOf .allocated (freed blocks) = 0 := by
  simp [sizeOf, freed, Function.comp_def]

@[simp]
lemma handedOut_cons_free (b : Block) (pieces : List Piece) :
    handedOut (⟨b, .free⟩ :: pieces) = handedOut pieces := by
  simp [handedOut]

@[simp]
lemma handedOut_cons_allocated (b : Block) (pieces : List Piece) :
    handedOut (⟨b, .allocated⟩ :: pieces) = (b.start, b.order) :: handedOut pieces := by
  simp [handedOut]

@[simp]
lemma handedOut_append (pieces pieces' : List Piece) :
    handedOut (pieces ++ pieces') = handedOut pieces ++ handedOut pieces' := by
  simp [handedOut]

@[simp]
lemma handedOut_freed (blocks : List Block) : handedOut (freed blocks) = [] := by
  simp [handedOut, freed]

structure Sound (frames : Frames) (pieces : List Piece) : Prop where
  layout : Layout frames ∅ pieces
  free : frames.free = sizeOf .free pieces
  managed : frames.managed = sizeOf .free pieces + sizeOf .allocated pieces

lemma Sound.perm (h : Sound F pieces) (hperm : pieces.Perm pieces') : Sound F pieces' := by
  refine ⟨h.layout.perm hperm, ?_, ?_⟩
  · rw [← sizeOf_perm _ hperm, h.free]
  · rw [← sizeOf_perm _ hperm, ← sizeOf_perm _ hperm, h.managed]

lemma sound_new {entries : List PageEntry} {base : Nat} (hshort : entries.length < noFrame) :
    Sound (Frames.new entries base) [] := by
  refine ⟨⟨?_, by simp [Frames.new], by simp, by simp, by simp, .nil, by simp, by simp, ?_, ?_⟩,
    rfl, rfl⟩
  · simpa [Frames.new] using hshort
  · intro frame hf _ _
    have he := entry_of_mem hf
    obtain ⟨hbase, hstop⟩ := id hf
    rw [Frames.entry, index_of_mem hf] at he
    simp only [Frames.new, Option.bind_eq_bind, Option.bind_some, List.getElem?_map,
      Option.map_eq_some_iff] at he
    obtain ⟨-, -, hreserved⟩ := he
    exact congrArg PageEntry.state hreserved.symm
  · intro order horder
    refine ⟨[], ⟨?_, trivial, .nil⟩, by simp [Heads]⟩
    have hlt : order < orders := by
      rw [orders]
      omega
    simp [Chain, Frames.head, Frames.new, hlt]

lemma take_sound (h : Sound F pieces) (hfree : ⟨b, .free⟩ ∈ pieces) (horder : order ≤ b.order) :
    ∃ pieces', Sound ((F.unlink b.start b.order).take b.start b.order order)
        pieces' ∧ (handedOut pieces').Perm ((b.start, order) :: handedOut pieces) ∧
      ∀ p ∈ pieces, p ≠ ⟨b, .free⟩ → p ∈ pieces' := by
  have hperm := perm_cons_erase hfree
  obtain ⟨hlayout, hfrees, hall⟩ := h.perm hperm
  have hunlinked := layout_unlink hlayout
  have hmax := h.layout.order_le _ hfree
  obtain ⟨halves, htotal, htaken, hn, hmanaged⟩ := take_spec hunlinked.layout
    Set.subset_union_right hmax horder
  rw [Set.empty_union, sdiff_self] at htaken
  simp only [sizeOf_cons, if_true, reduceCtorEq, if_false] at hfrees hall
  refine ⟨_, ⟨htaken, ?_, ?_⟩, ?_, ?_⟩
  · rw [hn, hunlinked.free, hfrees]
    simp only [sizeOf_cons, sizeOf_append, sizeOf_free_freed, reduceCtorEq, if_false]
    omega
  · rw [hmanaged, hunlinked.managed, hall]
    simp only [sizeOf_cons, sizeOf_append, sizeOf_free_freed, sizeOf_allocated_freed, reduceCtorEq,
      if_false, if_true, Block.low]
    omega
  · have hout := handedOut_perm hperm
    simpa [Block.low] using hout.symm
  · intro p hpiece hne
    have hr := (mem_erase_of_ne hne).mpr hpiece
    exact .tail _ (mem_append_right _ hr)

section

variable (wanted : Nat → Bool)

lemma search_spec {cursor : Nat} (hchain : Chain (nextOf F) noFrame cursor list)
    (hlt : ∀ i ∈ list, i < F.entries.length) (hleft : list.length < l) :
    (∃ i ∈ list, wanted (F.base + i) = true ∧ F.search wanted l cursor = .found (F.base + i)) ∨
      (∀ i ∈ list, wanted (F.base + i) = false) ∧ F.search wanted l cursor = .ended := by
  induction list generalizing l cursor with
  | nil =>
    obtain ⟨l, rfl⟩ := Nat.exists_eq_add_one_of_ne_zero (Nat.ne_zero_of_lt hleft)
    have hstop : cursor = noFrame := hchain
    refine .inr ⟨by simp, ?_⟩
    rw [Frames.search, if_pos hstop]
  | cons j list ih =>
    obtain ⟨l, rfl⟩ := Nat.exists_eq_add_one_of_ne_zero (Nat.ne_zero_of_lt hleft)
    obtain ⟨rfl, hne, hr⟩ := hchain
    rw [Frames.search, if_neg hne]
    by_cases hwanted : wanted (F.base + cursor) = true
    · rw [if_pos hwanted]
      exact .inl ⟨cursor, .head _, hwanted, rfl⟩
    · rw [if_neg hwanted, getElem?_eq F (hlt cursor (.head _))]
      have hless : list.length < l := by
        rw [length_cons] at hleft
        omega
      rcases ih hr (fun i hi => hlt i (.tail _ hi)) hless with
        ⟨i, hi, hfound⟩ | ⟨hnone, hended⟩
      · exact .inl ⟨i, .tail _ hi, hfound⟩
      · refine .inr ⟨forall_mem_cons.mpr ⟨by simpa using hwanted, hnone⟩, hended⟩

/-- A search of a free list answers a free block of the order that was wanted or finds that
there is none; it always ends. -/
theorem searchList_spec (hlayout : Layout F ∅ pieces) (horder : order ≤ maxOrder) :
    (∃ b, ⟨b, .free⟩ ∈ pieces ∧ b.order = order ∧ wanted b.start = true ∧
        F.searchList wanted order = .found b.start) ∨
      (∀ b, ⟨b, .free⟩ ∈ pieces → b.order = order → wanted b.start = false) ∧
        F.searchList wanted order = .ended := by
  obtain ⟨list, ht, hm⟩ := hlayout.listed order horder
  have hlt : ∀ i ∈ list, i < F.entries.length := fun i hi =>
    hlayout.lt_of_heads ((hm i).mp hi)
  have hlen : list.length ≤ F.entries.length := by
    have hsub : list ⊆ List.range F.entries.length := fun i hi => mem_range.mpr (hlt i hi)
    simpa using (subperm_of_subset ht.nodup hsub).length_le
  rcases search_spec wanted ht.chain hlt (Nat.lt_succ_of_le hlen) with
    ⟨i, hi, hwanted, hfound⟩ | ⟨hnone, hended⟩
  · obtain ⟨⟨b, use⟩, hpiece, rfl, hsame, hstart⟩ := (hm i).mp hi
    exact .inl ⟨b, hpiece, hsame, hstart ▸ hwanted, hstart ▸ hfound⟩
  · refine .inr ⟨fun b hpiece hsame => ?_, hended⟩
    obtain ⟨i, hi⟩ := Nat.exists_eq_add_of_le (hlayout.inside _ hpiece b.start_mem_span).1
    have hlisted := (hm i).mpr ⟨_, hpiece, rfl, hsame, hi⟩
    rw [hi]
    exact hnone i hlisted

end

/-- A call that answers nothing and changes nothing, or hands out the blocks that start at
the frame it answers. -/
def Yields (frames : Frames) (pieces : List Piece) (added : Nat → List (Nat × Nat))
    (result : Option Nat × Frames) : Prop :=
  result = (none, frames) ∨ ∃ frame pieces', result.1 = some frame ∧ Sound result.2 pieces' ∧
    (handedOut pieces').Perm (added frame ++ handedOut pieces)

lemma allocate_spec (h : Sound F pieces) :
    Yields F pieces (fun frame => [(frame, order)]) (F.allocate order) := by
  rw [Frames.allocate]
  split_ifs with horder
  · exact .inl rfl
  · split
    · exact .inl rfl
    · rename_i available hfind
      have hhead : F.head available ≠ noFrame := by simpa using List.find?_some hfind
      obtain ⟨hfrom, hto⟩ := mem_range'_1.mp (mem_of_find?_eq_some hfind)
      obtain ⟨b, hfree, rfl, hpop⟩ := pop_eq h.layout (by omega) hhead
      obtain ⟨pieces', h', hout, -⟩ := take_sound h hfree hfrom
      rw [hpop]
      exact .inr ⟨b.start, pieces', rfl, h', hout⟩

lemma allocateBelowFrom_spec (h : Sound F pieces)
    (hlist : ∀ available ∈ list, order ≤ available ∧ available ≤ maxOrder) :
    Yields F pieces (fun frame => [(frame, order)]) (F.allocateBelowFrom order L list) := by
  induction list with
  | nil => exact .inl rfl
  | cons available list ih =>
    obtain ⟨⟨hfrom, hto⟩, hlist⟩ := forall_mem_cons.mp hlist
    rw [Frames.allocateBelowFrom]
    rcases searchList_spec _ h.layout hto with
      ⟨b, hfree, rfl, -, hfound⟩ | ⟨-, hended⟩
    · rw [hfound]
      obtain ⟨pieces', h', hout, -⟩ := take_sound h hfree hfrom
      exact .inr ⟨b.start, pieces', rfl, h', hout⟩
    · rw [hended]
      exact ih hlist

lemma allocateBelow_spec (h : Sound F pieces) :
    Yields F pieces (fun frame => [(frame, order)]) (F.allocateBelow order L) := by
  rw [Frames.allocateBelow]
  split_ifs with horder
  · exact .inl rfl
  · refine allocateBelowFrom_spec h fun available hm => ?_
    obtain ⟨hfrom, hto⟩ := mem_range'_1.mp hm
    omega

section

variable {blocks start : Nat}

lemma exists_of_freeMaximal (hlayout : Layout F ∅ pieces)
    (hmaximal : F.freeMaximal frame = true) : frame ∈ covered F ∧
      ∃ b, ⟨b, .free⟩ ∈ pieces ∧ b.start = frame ∧ b.order = maxOrder := by
  have hmergeable : F.mergeable frame maxOrder = true := hmaximal
  obtain ⟨hcovered, hstate, horder⟩ := mergeable_iff.mp hmergeable
  obtain ⟨b, hpiece, hstart, hsame⟩ :=
    hlayout.exists_head .free hcovered (Set.notMem_empty _) hstate
  exact ⟨hcovered, b, hpiece, hstart, hsame.trans horder⟩

lemma exists_of_wholeRun (hlayout : Layout F ∅ pieces) (hstart : start ∈ covered F)
    (hwhole : F.wholeRun blocks start = true) {k : Nat} (hk : 0 < k) (hlt : k < blocks) :
    ∃ b, ⟨b, .free⟩ ∈ pieces ∧ b.start = start + k * 2 ^ maxOrder ∧ b.order = maxOrder := by
  have heach : ∀ j, 0 < j → j < blocks →
      F.freeMaximal (start + j * 2 ^ maxOrder % 2 ^ 64) = true := by
    intro j hj hjlt
    have hm : j ∈ List.range' 1 (blocks - 1) := mem_range'_1.mpr ⟨by omega, by omega⟩
    have hn := all_eq_true.mp hwhole j hm
    rw [Bool.and_eq_true] at hn
    exact hn.2
  have hshort := hlayout.short
  obtain ⟨hbase, -⟩ := hstart
  -- A run of `2 ^ 22` maximal blocks would leave the side array before the product wraps.
  have hfew : blocks ≤ 2 ^ 22 := by
    by_contra hmany
    obtain ⟨hcovered, -⟩ := exists_of_freeMaximal hlayout (heach (2 ^ 22) (by omega) (by omega))
    have hstop := hcovered.2
    simp only [maxOrder, noFrame] at hshort hstop
    omega
  obtain ⟨-, b, hpiece, hb, horder⟩ := exists_of_freeMaximal hlayout (heach k hk hlt)
  refine ⟨b, hpiece, ?_, horder⟩
  rw [hb, Nat.mod_eq_of_lt]
  simp only [maxOrder]
  omega

lemma takeRun_sound (h : Sound F pieces) (hrun : ∀ k < blocks,
      ∃ b, ⟨b, .free⟩ ∈ pieces ∧ b.start = start + k * 2 ^ maxOrder ∧
        b.order = maxOrder) {taken : Nat} (htaken : taken ≤ blocks) :
    ∃ pieces', Sound ((List.range taken).foldl (fun F k =>
          (F.unlink (start + k * 2 ^ maxOrder) maxOrder).take (start + k * 2 ^ maxOrder)
            maxOrder maxOrder) F) pieces' ∧
      (handedOut pieces').Perm ((List.range taken).map
        (fun k => (start + k * 2 ^ maxOrder, maxOrder)) ++ handedOut pieces) ∧
      ∀ k < blocks, taken ≤ k →
        ∃ b, ⟨b, .free⟩ ∈ pieces' ∧ b.start = start + k * 2 ^ maxOrder ∧ b.order = maxOrder := by
  induction taken with
  | zero => exact ⟨pieces, h, .refl _, fun k hk _ => hrun k hk⟩
  | succ taken ih =>
    obtain ⟨pieces₁, hsound₁, hout₁, hleft₁⟩ := ih (by omega)
    obtain ⟨b, hfree, hstart, horder⟩ := hleft₁ taken (by omega) le_rfl
    obtain ⟨pieces₂, hsound₂, hout₂, hkept⟩ := take_sound hsound₁ hfree le_rfl
    rw [hstart, horder] at hsound₂ hout₂
    rw [range_succ, foldl_append]
    refine ⟨pieces₂, hsound₂, ?_, fun k hk hle => ?_⟩
    · refine (hout₂.trans (hout₁.cons _)).trans ?_
      rw [map_append, append_assoc]
      exact perm_middle.symm
    · obtain ⟨later, hfree', hstart', horder'⟩ := hleft₁ k hk (by omega)
      refine ⟨later, hkept _ hfree' fun heq => ?_, hstart', horder'⟩
      obtain rfl : later = b := congrArg Piece.block heq
      rw [hstart'] at hstart
      simp only [maxOrder] at hstart
      omega

lemma allocateRun_spec (h : Sound F pieces) : Yields F pieces
      (fun start => (List.range blocks).map fun k => (start + k * 2 ^ maxOrder, maxOrder))
      (F.allocateRun blocks) := by
  rw [Frames.allocateRun]
  split_ifs with hzero
  · exact .inl rfl
  · rcases searchList_spec (F.wholeRun blocks) h.layout le_rfl with
      ⟨f, hfree, horder, hwhole, hfound⟩ | ⟨-, hended⟩
    · rw [hfound]
      have hcovered := h.layout.inside _ hfree f.start_mem_span
      have hrun : ∀ k < blocks, ∃ b, ⟨b, .free⟩ ∈ pieces ∧
          b.start = f.start + k * 2 ^ maxOrder ∧ b.order = maxOrder := by
        intro k hk
        rcases Nat.eq_zero_or_pos k with rfl | hpos
        · exact ⟨f, hfree, by simp, horder⟩
        · exact exists_of_wholeRun h.layout hcovered hwhole hpos hk
      obtain ⟨pieces', h', hout, -⟩ := takeRun_sound h hrun le_rfl
      exact .inr ⟨f.start, pieces', rfl, h', hout⟩
    · rw [hended]
      exact .inl rfl

end

lemma exists_of_freeBlockOf {head : Nat} (hlayout : Layout F ∅ pieces)
    (hfound : F.freeBlockOf frame = some (head, order)) :
    ∃ b, ⟨b, .free⟩ ∈ pieces ∧ b.start = head ∧ b.order = order ∧ frame ∈ b.span := by
  obtain ⟨order', -, hfind⟩ := exists_of_findSome?_eq_some hfound
  dsimp only at hfind
  split at hfind
  · rename_i e he
    obtain ⟨hcovered, rfl⟩ := mem_of_entry he
    split_ifs at hfind with hfree
    obtain ⟨rfl, rfl⟩ := Prod.mk.inj (Option.some.inj hfind)
    obtain ⟨b, hpiece, hstart, hsame⟩ :=
      hlayout.exists_head .free hcovered (Set.notMem_empty _) hfree.1
    obtain rfl : b = Block.around frame order' := Block.ext hstart (hsame.trans hfree.2)
    exact ⟨_, hpiece, rfl, rfl, Block.mem_around frame order'⟩
  · exact absurd hfind nofun

section

variable (h : Sound F pieces)
include h

lemma claim_spec : Yields F pieces (fun frame => [(frame, 0)]) (F.claim frame) := by
  rw [Frames.claim]
  split
  · exact .inl rfl
  · rename_i head order hfound
    obtain ⟨b, hfree, rfl, rfl, hm⟩ := exists_of_freeBlockOf h.layout hfound
    have hperm := perm_cons_erase hfree
    obtain ⟨hlayout, hfrees, hall⟩ := h.perm hperm
    have hunlinked := layout_unlink hlayout
    obtain ⟨halves, htotal, hnarrow, halike⟩ := narrow_spec hunlinked.layout b.aligned
      (h.layout.order_le _ hfree) hm Set.subset_union_right
    have hh : (∅ ∪ b.span) \ (Set.Ico b.start (b.start + 2 ^ b.order) \ {frame}) = {frame} := by
      rw [Set.empty_union]
      exact Set.sdiff_sdiff_cancel_left (Set.singleton_subset_iff.mpr hm)
    rw [hh] at hnarrow
    obtain ⟨hbeside, hmarked⟩ := mark_single_spec (hnarrow.held_inside rfl)
    have hhanded := layout_handOut (hnarrow.beside hbeside) (Block.span_single frame).subset
      (Nat.zero_le _) hmarked
    rw [Block.span_single, sdiff_self] at hhanded
    simp only [sizeOf_cons, if_true, reduceCtorEq, if_false] at hfrees hall
    refine .inr ⟨frame, _, rfl, ⟨layout_recount _ _ hhanded, ?_, ?_⟩, ?_⟩
    · dsimp only
      rw [hbeside.free, halike.free, hunlinked.free, hfrees]
      simp only [sizeOf_cons, sizeOf_append, sizeOf_free_freed, reduceCtorEq, if_false]
      omega
    · dsimp only
      rw [hbeside.managed, halike.managed, hunlinked.managed, hall]
      simp only [sizeOf_cons, sizeOf_append, sizeOf_free_freed, sizeOf_allocated_freed,
        reduceCtorEq, if_false, if_true, Block.single]
      omega
    · have hout := handedOut_perm hperm
      simpa [Block.single] using hout.symm

omit h in
lemma exists_of_allocatedHead (hlayout : Layout F ∅ pieces)
    (hhead : F.allocatedHead frame order = .ok ()) :
    ∃ b, ⟨b, .allocated⟩ ∈ pieces ∧ b.start = frame ∧ b.order = order := by
  rw [Frames.allocatedHead] at hhead
  split at hhead
  · exact absurd hhead nofun
  · rename_i e he
    obtain ⟨hcovered, rfl⟩ := mem_of_entry he
    split at hhead
    · rename_i hstate
      split_ifs at hhead with horder
      obtain ⟨b, hpiece, hstart, hsame⟩ :=
        hlayout.exists_head .allocated hcovered (Set.notMem_empty _) hstate
      exact ⟨b, hpiece, hstart, hsame.trans horder⟩
    all_goals exact absurd hhead nofun

lemma sound_write {write : PageEntry → PageEntry} (hb : ⟨b, .allocated⟩ ∈ pieces)
    (hwrite : ∀ e, (write e).state = e.state ∧ (write e).order = e.order) :
    Sound (F.entryMut b.start write) pieces := by
  have hcovered := h.layout.inside _ hb b.start_mem_span
  have hbeside := beside_entryMut write hcovered
  have hslot := slot_entryMut write hcovered
  have hperm := perm_cons_erase hb
  have hh := layout_hold (h.layout.perm hperm)
  have hstart : ({b.start} : Set Nat) ⊆ ∅ ∪ b.span :=
    Set.singleton_subset_iff.mpr (.inr b.start_mem_span)
  have hmarked : Marked (F.entryMut b.start write) ⟨b, .allocated⟩ := by
    refine (h.layout.marked _ hb).congr (fun f _ => ?_) ?_
    · by_cases heq : f = b.start
      · rw [heq, hslot, (hwrite _).1]
      · rw [hbeside.slot f heq]
    · dsimp only
      rw [hslot, (hwrite _).2]
  have hhanded := layout_handOut (hh.beside (hbeside.mono hstart)) Set.subset_union_right
    (h.layout.order_le _ hb) hmarked
  rw [Set.empty_union, sdiff_self] at hhanded
  refine ⟨hhanded.perm hperm.symm, ?_, ?_⟩
  · rw [hbeside.free, h.free]
  · rw [hbeside.managed, h.managed]

lemma share_spec : Sound (F.share frame).2 pieces := by
  rw [Frames.share]
  split
  · exact h
  · rename_i hhead
    obtain ⟨b, hb, rfl, -⟩ := exists_of_allocatedHead h.layout hhead
    split
    · exact h
    · dsimp only
      split
      · exact sound_write h hb fun _ => ⟨rfl, rfl⟩
      · exact h

lemma setOwner_spec {owner : Nat} : Sound (F.setOwner frame owner).2 pieces := by
  rw [Frames.setOwner]
  split
  · exact h
  · rename_i hhead
    obtain ⟨b, hb, rfl, -⟩ := exists_of_allocatedHead h.layout hhead
    split
    · exact h
    · exact sound_write h hb fun _ => ⟨rfl, rfl⟩

end

def GivenBack (frames' : Frames) (pieces : List Piece) (frame order : Nat) : Prop :=
  ∃ pieces', Sound frames' pieces' ∧
    (handedOut pieces).Perm ((frame, order) :: handedOut pieces')

lemma giveBack_sound (h : Sound F pieces) (hb : ⟨b, .allocated⟩ ∈ pieces) :
    let cleared := { F with free := F.free + 2 ^ b.order }.setStateRange
      b.start (2 ^ b.order) .freeTail
    let merged := cleared.coalesce b.start b.order
    GivenBack (merged.1.push merged.2.1 merged.2.2) pieces b.start b.order := by
  have hperm := perm_cons_erase hb
  obtain ⟨hlayout, hfrees, hall⟩ := h.perm hperm
  have hh := layout_recount (F.free + 2 ^ b.order) F.managed (layout_hold hlayout)
  rw [Set.empty_union] at hh
  obtain ⟨hbeside, hslot⟩ := setStateRange_spec .freeTail hh.held_inside
  obtain ⟨F', whole, taken, r, heq, hmerged⟩ := coalesce_spec
    (hh.beside hbeside) (fun f hf => by rw [hslot f hf])
    (Nat.sub_add_cancel (h.layout.order_le _ hb))
  have hpushed := layout_push hmerged.layout subset_rfl hmerged.order_le hmerged.cleared
  have halike : Alike F' (F'.push whole.start whole.order) :=
    alike_push (hmerged.layout.held_inside whole.start_mem_span)
  rw [sdiff_self] at hpushed
  have htotal := hmerged.total
  simp only [sizeOf_cons, reduceCtorEq, if_false, if_true, sizeOf_perm _ hmerged.perm,
    sizeOf_append, sizeOf_free_freed, sizeOf_allocated_freed] at hfrees hall
  simp only [Frames.coalesce, heq]
  refine ⟨_, ⟨hpushed, ?_, ?_⟩, ?_⟩
  · rw [halike.free, hmerged.free, hbeside.free]
    simp only [sizeOf_cons, if_true]
    omega
  · rw [halike.managed, hmerged.managed, hbeside.managed]
    simp only [sizeOf_cons, if_true, reduceCtorEq, if_false]
    omega
  · refine (handedOut_perm hperm).trans ?_
    refine .cons _ ((handedOut_perm hmerged.perm).trans ?_)
    simp

lemma deallocate_spec (frame order : Nat) (h : Sound F pieces) :
    (∃ e, F.deallocate frame order = (.error e, F)) ∨ (F.deallocate frame order).1 = .ok () ∧
        GivenBack (F.deallocate frame order).2 pieces frame order := by
  rw [Frames.deallocate]
  split
  · exact .inl ⟨_, rfl⟩
  split
  · exact .inl ⟨_, rfl⟩
  split
  · exact .inl ⟨_, rfl⟩
  split
  · exact .inl ⟨_, rfl⟩
  rename_i hhead
  obtain ⟨b, hb, rfl, rfl⟩ := exists_of_allocatedHead h.layout hhead
  split
  · exact .inl ⟨_, rfl⟩
  · exact .inr ⟨rfl, giveBack_sound h hb⟩

lemma release_spec (frame : Nat) (h : Sound F pieces) :
    (F.release frame).1 ≠ .ok .freed ∧ Sound (F.release frame).2 pieces ∨
      (F.release frame).1 = .ok .freed ∧ GivenBack (F.release frame).2 pieces frame 0 := by
  rw [Frames.release]
  split
  · exact .inl ⟨nofun, h⟩
  · rename_i hhead
    obtain ⟨b, hb, rfl, -⟩ := exists_of_allocatedHead h.layout hhead
    split
    · exact .inl ⟨nofun, h⟩
    · rename_i e _
      have hlowered : Sound (F.entryMut b.start fun e' =>
          { e' with refcount := e.refcount - 1 }) pieces :=
        sound_write h hb fun _ => ⟨rfl, rfl⟩
      dsimp only
      split_ifs
      · exact .inl ⟨nofun, hlowered⟩
      · have hfreed := deallocate_spec b.start 0 hlowered
        rcases hresult : Frames.deallocate _ b.start 0 with ⟨error | ⟨⟩, freed⟩
        · rw [hresult] at hfreed
          rcases hfreed with ⟨error', heq⟩ | ⟨hok, -⟩
          · obtain ⟨-, rfl⟩ := Prod.mk.inj heq
            exact .inl ⟨nofun, hlowered⟩
          · exact absurd hok nofun
        · rw [hresult] at hfreed
          rcases hfreed with ⟨error', heq⟩ | ⟨-, hback⟩
          · exact absurd (Prod.mk.inj heq).1 nofun
          · exact .inr ⟨rfl, hback⟩

def singles (start count : Nat) : List Piece :=
  (List.range count).map fun offset => ⟨Block.single (start + offset), .allocated⟩

lemma splitFrom_spec {held : Set Nat} (hlayout : Layout F held pieces)
    (hh : Set.Ico frame (frame + n) ⊆ held) :
    ∃ F', (List.range n).foldl (fun F i =>
        F.entryMut (frame + i) (Frames.headOf 0)) F = F' ∧
      Layout F' (held \ Set.Ico frame (frame + n)) (singles frame n ++ pieces) ∧
      Alike F F' := by
  induction n with
  | zero =>
    refine ⟨F, rfl, ?_, .refl _⟩
    rw [Nat.add_zero, Set.Ico_self, Set.sdiff_empty]
    exact hlayout
  | succ n ih =>
    obtain ⟨F', heq, hlayout', halike⟩ :=
      ih ((Set.Ico_subset_Ico_right (by omega)).trans hh)
    have hl : frame + n ∈ held \ Set.Ico frame (frame + n) :=
      ⟨hh ⟨by omega, by omega⟩, fun h => absurd h.2 (lt_irrefl _)⟩
    obtain ⟨hbeside, hmarked⟩ := mark_single_spec (hlayout'.held_inside hl)
    have hsingle : (Block.single (frame + n)).span ⊆ held \ Set.Ico frame (frame + n) := by
      rw [Block.span_single]
      exact Set.singleton_subset_iff.mpr hl
    have hhanded := layout_handOut
      (hlayout'.beside (hbeside.mono (Set.singleton_subset_iff.mpr hl))) hsingle
      (Nat.zero_le _) hmarked
    have hgone : (held \ Set.Ico frame (frame + n)) \ (Block.single (frame + n)).span =
        held \ Set.Ico frame (frame + (n + 1)) := by
      rw [Set.sdiff_sdiff]
      congr 1
      exact Set.Ico_union_Ico_eq_Ico (Nat.le_add_right _ _) (Nat.le_add_right _ _)
    rw [hgone] at hhanded
    rw [range_succ, foldl_append, heq]
    refine ⟨_, rfl, hhanded.perm ?_, halike.trans hbeside.toAlike⟩
    rw [singles, singles, range_succ, map_append, append_assoc]
    exact perm_middle.symm

lemma sizeOf_singles (use : Use) (start n : Nat) :
    sizeOf use (singles start n) = if use = .allocated then n else 0 := by
  induction n with
  | zero => simp [singles, sizeOf]
  | succ n ih =>
    rw [singles, range_succ, map_append, sizeOf_append]
    change sizeOf use (singles start n) + _ = _
    rw [ih]
    cases use <;> simp [sizeOf, Block.single]

lemma handedOut_singles (start n : Nat) :
    handedOut (singles start n) = (List.range n).map fun i => (start + i, 0) := by
  simp [handedOut, singles, filterMap_map, Block.single, filterMap_eq_map']

lemma split_spec (h : Sound F pieces) : (∃ e, F.split frame order = (.error e, F)) ∨
      (F.split frame order).1 = .ok () ∧ ∃ pieces' others, Sound (F.split frame order).2 pieces' ∧
          (handedOut pieces).Perm ((frame, order) :: others) ∧ (handedOut pieces').Perm
            ((List.range (2 ^ order)).map (fun i => (frame + i, 0)) ++ others) := by
  rw [Frames.split]
  split
  · exact .inl ⟨_, rfl⟩
  split
  · exact .inl ⟨_, rfl⟩
  rename_i hhead
  obtain ⟨b, hb, rfl, rfl⟩ := exists_of_allocatedHead h.layout hhead
  split
  · exact .inl ⟨_, rfl⟩
  have hperm := perm_cons_erase hb
  have hpieces := h.perm hperm
  obtain ⟨F', heq, hlayout, halike⟩ := splitFrom_spec
    (layout_hold hpieces.layout) Set.subset_union_right
  have hgone : (∅ ∪ b.span) \ Set.Ico b.start (b.start + 2 ^ b.order) = ∅ := by
    rw [Set.empty_union]
    exact sdiff_self
  rw [hgone] at hlayout
  refine .inr ⟨rfl, _, handedOut (pieces.erase ⟨b, .allocated⟩), ⟨heq ▸ hlayout, ?_, ?_⟩, ?_, ?_⟩
  · rw [heq, halike.free, hpieces.free]
    simp [sizeOf_singles]
  · rw [heq, halike.managed, hpieces.managed]
    simp [sizeOf_singles]
  · simpa using handedOut_perm hperm
  · rw [handedOut_append, handedOut_singles]

section

variable (hshort : F.entries.length < noFrame)
  (hfits : F.base + F.entries.length < 2 ^ 64) (hf : frame ∈ covered F)
include hshort hfits hf

lemma mem_of_rangeIsReserved (hn : n ≤ 2 ^ maxOrder) (hr : F.rangeIsReserved frame n = true) :
    ∀ f ∈ Set.Ico frame (frame + n), f ∈ covered F ∧ (slot F f).state = .reserved := by
  rintro f ⟨hfrom, hto⟩
  obtain ⟨o, rfl⟩ := Nat.exists_eq_add_of_le hfrom
  have heach := all_eq_true.mp hr o (mem_range.mpr (by omega))
  split at heach
  · rename_i e he
    obtain ⟨hcovered, rfl⟩ := mem_of_entry he
    -- A wrapped frame number is below the side array, which lies at the top of the range.
    have hwrap : (frame + o) % 2 ^ 64 = frame + o := by
      obtain ⟨hbase, -⟩ := id hcovered
      obtain ⟨-, hstop⟩ := hf
      simp only [noFrame, maxOrder] at hshort hn
      omega
    rw [hwrap] at hcovered heach
    exact ⟨hcovered, by simpa using heach⟩
  · exact absurd heach (by simp)

lemma largestBlockFrom_spec (stop : Nat)
    (haligned : 2 ^ order ∣ frame) (hleft : l + order = maxOrder)
    (hr : ∀ f ∈ Set.Ico frame (frame + 2 ^ order), f ∈ covered F ∧ (slot F f).state = .reserved) :
    ∃ b : Block, b.start = frame ∧
      b.order = F.largestBlockFrom frame stop l order ∧ b.order ≤ maxOrder ∧
      ∀ f ∈ b.span, f ∈ covered F ∧ (slot F f).state = .reserved := by
  have hsmall : order ≤ maxOrder := by omega
  induction l generalizing order with
  | zero => exact ⟨⟨frame, order, haligned⟩, rfl, rfl, hsmall, hr⟩
  | succ l ih =>
    rw [Frames.largestBlockFrom]
    split_ifs with hedge hreserved
    · exact ⟨⟨frame, order, haligned⟩, rfl, rfl, hsmall, hr⟩
    · exact ⟨⟨frame, order, haligned⟩, rfl, rfl, hsmall, hr⟩
    · rw [not_or, not_not] at hedge
      refine ih (Nat.dvd_of_mod_eq_zero hedge.1) (by omega) ?_ (by omega)
      refine mem_of_rangeIsReserved hshort hfits hf ?_ (by simpa using hreserved)
      exact Nat.pow_le_pow_right (by omega) (by omega)

end

lemma insertFrom_spec {stop : Nat} (h : Sound F pieces)
    (hfits : F.base + F.entries.length < 2 ^ 64) :
    ∃ pieces', Sound (Frames.insertFrom stop l F frame) pieces' ∧
      handedOut pieces' = handedOut pieces := by
  induction l generalizing F pieces frame with
  | zero => exact ⟨pieces, h, rfl⟩
  | succ l ih =>
    rw [Frames.insertFrom]
    split
    swap
    · exact ⟨pieces, h, rfl⟩
    split
    · exact ⟨pieces, h, rfl⟩
    rename_i i hi
    split
    · exact ih h hfits
    rename_i hstate
    have hf : frame ∈ covered F := by
      by_contra hout
      rw [index_of_notMem hout] at hi
      exact absurd hi nofun
    rw [index_of_mem hf] at hi
    obtain rfl := Option.some.inj hi
    have hlook := entry_of_mem hf
    rw [Frames.entry, index_of_mem hf] at hlook
    have hreserved : (slot F frame).state = .reserved := by
      rw [not_not, show F.entries[frame - F.base]? = _ from hlook] at hstate
      exact Option.some.inj hstate
    have hsingle : ∀ f ∈ Set.Ico frame (frame + 2 ^ 0),
        f ∈ covered F ∧ (slot F f).state = .reserved := by
      rintro f ⟨hfrom, hto⟩
      obtain rfl : f = frame := by omega
      exact ⟨hf, hreserved⟩
    obtain ⟨b, rfl, horder, hmax, hb⟩ := largestBlockFrom_spec
      h.layout.short hfits hf stop (one_dvd _) (Nat.add_zero maxOrder) hsingle
    obtain ⟨hgiven, halike⟩ := layout_giveBack (layout_adopt h.layout
      (fun f hf => (hb f hf).1) (fun f hf => (hb f hf).2)) Set.subset_union_right hmax
    rw [Set.empty_union, sdiff_self] at hgiven
    rw [Frames.largestBlockAt, ← horder]
    set pushed := (F.setStateRange b.start (2 ^ b.order) .freeTail).push b.start b.order
    have hinserted : Sound { pushed with
        free := pushed.free + 2 ^ b.order
        managed := pushed.managed + 2 ^ b.order } (⟨b, .free⟩ :: pieces) := by
      refine ⟨layout_recount _ _ hgiven, ?_, ?_⟩
      · simp only [sizeOf_cons, if_true, halike.free, h.free]
        omega
      · simp only [sizeOf_cons, if_true, reduceCtorEq, if_false, halike.managed, h.managed]
        omega
    have hfits' : pushed.base + pushed.entries.length < 2 ^ 64 := by
      rw [halike.base, halike.length]
      exact hfits
    obtain ⟨pieces', h', hout⟩ := ih hinserted hfits'
    exact ⟨pieces', h', hout.trans (handedOut_cons_free _ _)⟩

lemma insertFree_spec {start : Nat} (h : Sound F pieces) :
    ∃ pieces', Sound (F.insertFree start n) pieces' ∧ handedOut pieces' = handedOut pieces := by
  rw [Frames.insertFree]
  by_cases hfits : F.base + F.entries.length < 2 ^ 64
  · exact insertFrom_spec h hfits
  · have hshort := h.layout.short
    have hzero : min (saturatingAdd start n) F.stop - max start F.base = 0 := by
      rw [Frames.stop]
      simp only [noFrame] at hshort
      omega
    rw [hzero]
    exact ⟨pieces, h, rfl⟩

end Ferrix.Frame.FrameCalls

import Ferrix.Frame.FreeLists

/-!
The moves the operations are made of: a block is held back, marked and handed out, or put on a
free list.  Splitting, narrowing and merging are runs of these.
-/

namespace Ferrix.Frame.Carving

open Foundations.AlignedBlocks Buddy Pieces FreeLists List Frames Set

variable {F : Frames} {held : Set Nat} {pieces rest : List Piece}
  {frame k current a : Nat} {block : Block}

lemma layout_recount (free managed : Nat) (h : Layout F held pieces) :
    Layout { F with free, managed } held pieces where
  short := h.short
  heads := h.heads
  order_le := h.order_le
  inside := h.inside
  held_inside := h.held_inside
  apart := h.apart
  held_apart := h.held_apart
  marked := fun p hpiece =>
    let hmarked := h.marked p hpiece
    { hmarked with }
  reserved := h.reserved
  listed := by
    intro k horder
    obtain ⟨list, ht, hm⟩ := h.listed k horder
    exact ⟨list, { ht with }, hm⟩

lemma layout_hold (h : Layout F held (⟨block, .allocated⟩ :: rest)) :
    Layout F (held ∪ block.span) rest := by
  obtain ⟨-, horders⟩ := forall_mem_cons.mp h.order_le
  obtain ⟨hb, hinside⟩ := forall_mem_cons.mp h.inside
  obtain ⟨hapart, hr⟩ := pairwise_cons.mp h.apart
  obtain ⟨-, hh⟩ := forall_mem_cons.mp h.held_apart
  obtain ⟨-, hmarked⟩ := forall_mem_cons.mp h.marked
  refine ⟨h.short, h.heads, horders, hinside,
    union_subset h.held_inside hb, hr, ?_, hmarked, ?_, ?_⟩
  · intro p hpiece
    exact disjoint_union_right.mpr ⟨hh p hpiece, (hapart p hpiece).symm⟩
  · intro f hf hout hpieces
    rw [mem_union, not_or] at hout
    exact h.reserved f hf hout.1 (forall_mem_cons.mpr ⟨hout.2, hpieces⟩)
  · intro k horder
    obtain ⟨list, ht, hm⟩ := h.listed k horder
    refine ⟨list, ht, fun i => (hm i).trans ?_⟩
    simp [Heads]

section

variable (h : Layout F held pieces)
include h

lemma layout_adopt (hinside : block.span ⊆ covered F)
    (hstate : ∀ f ∈ block.span, (slot F f).state = .reserved) :
    Layout F (held ∪ block.span) pieces := by
  refine { h with
    held_inside := union_subset h.held_inside hinside
    held_apart := fun p hpiece => ?_
    reserved := fun f hf hout hpieces => ?_ }
  · refine disjoint_union_right.mpr ⟨h.held_apart p hpiece, ?_⟩
    rw [Set.disjoint_left]
    intro f hf hb
    have hmarked := h.marked p hpiece
    have hreserved := hstate f hb
    by_cases heq : f = p.block.start
    · rw [heq, hmarked.head] at hreserved
      cases huse : p.use <;> simp [huse, Use.head] at hreserved
    · rw [hmarked.tail f hf heq] at hreserved
      cases huse : p.use <;> simp [huse, Use.tail] at hreserved
  · rw [mem_union, not_or] at hout
    exact h.reserved f hf hout.1 hpieces

lemma layout_handOut (hh : block.span ⊆ held)
    (horder : block.order ≤ maxOrder) (hmarked : Marked F ⟨block, .allocated⟩) :
    Layout F (held \ block.span) (⟨block, .allocated⟩ :: pieces) := by
  refine ⟨h.short, h.heads, ?_, ?_, ?_, ?_, ?_, ?_, ?_, ?_⟩
  · exact forall_mem_cons.mpr ⟨horder, h.order_le⟩
  · exact forall_mem_cons.mpr ⟨hh.trans h.held_inside, h.inside⟩
  · exact sdiff_subset.trans h.held_inside
  · refine pairwise_cons.mpr ⟨fun p hpiece => ?_, h.apart⟩
    exact ((h.held_apart p hpiece).mono_right hh).symm
  · refine forall_mem_cons.mpr ⟨disjoint_sdiff_right, fun p hpiece => ?_⟩
    exact (h.held_apart p hpiece).mono_right sdiff_subset
  · exact forall_mem_cons.mpr ⟨hmarked, h.marked⟩
  · intro f hf hout hpieces
    obtain ⟨hb, hpieces⟩ := forall_mem_cons.mp hpieces
    exact h.reserved f hf (fun h => hout ⟨h, hb⟩) hpieces
  · intro k horder
    obtain ⟨list, ht, hm⟩ := h.listed k horder
    refine ⟨list, ht, fun i => (hm i).trans ?_⟩
    simp [Heads]

lemma layout_giveBack (hh : block.span ⊆ held) (horder : block.order ≤ maxOrder) :
    Layout ((F.setStateRange block.start (2 ^ block.order) .freeTail).push block.start
        block.order) (held \ block.span) (⟨block, .free⟩ :: pieces) ∧
      Alike F ((F.setStateRange block.start (2 ^ block.order) .freeTail).push
        block.start block.order) := by
  have hinside := hh.trans h.held_inside
  obtain ⟨hbeside, hslot⟩ := setStateRange_spec .freeTail hinside
  have hcleared := h.beside (hbeside.mono hh)
  refine ⟨layout_push hcleared hh horder fun f hf => ?_, hbeside.toAlike.trans (alike_push ?_)⟩
  · rw [hslot f hf]
  · rw [hbeside.covered]
    exact hinside block.start_mem_span

end

def freed (blocks : List Block) : List Piece := blocks.map fun block => ⟨block, .free⟩

def total (blocks : List Block) : Nat := (blocks.map Block.size).sum

lemma freed_concat (blocks : List Block) (block : Block) (pieces : List Piece) :
    freed (blocks ++ [block]) ++ pieces = freed blocks ++ (⟨block, .free⟩ :: pieces) := by
  simp [freed]

lemma total_concat (blocks : List Block) (block : Block) :
    total (blocks ++ [block]) = total blocks + 2 ^ block.order := by
  simp [total, Block.size]

lemma splitDown_spec (h : Layout F held pieces)
    (haligned : 2 ^ current ∣ frame) (horder : k ≤ current) (hmax : current ≤ maxOrder)
    (hh : Set.Ico frame (frame + 2 ^ current) ⊆ held) :
    ∃ halves, total halves + 2 ^ k = 2 ^ current ∧ Layout (splitDown frame k current F)
        (held \ Set.Ico (frame + 2 ^ k) (frame + 2 ^ current)) (freed halves ++ pieces) ∧
      Alike F (splitDown frame k current F) := by
  induction current generalizing F held pieces with
  | zero =>
    obtain rfl : k = 0 := by omega
    refine ⟨[], rfl, ?_, .refl _⟩
    rw [Set.Ico_self, sdiff_empty]
    exact h
  | succ current ih =>
    rw [splitDown]
    by_cases hsplit : k < current + 1
    · rw [if_pos hsplit]
      set upper := Block.upper frame current haligned
      have hspan : upper.span = Set.Ico (frame + 2 ^ current) (frame + 2 ^ (current + 1)) := by
        rw [pow_succ, Nat.mul_two, ← Nat.add_assoc]
        rfl
      have hsmall : 2 ^ k ≤ 2 ^ current := Nat.pow_le_pow_right (by omega) (by omega)
      have hhalf : 2 ^ current ≤ 2 ^ (current + 1) := Nat.pow_le_pow_right (by omega) (by omega)
      have hupper : upper.span ⊆ held := by
        rw [hspan]
        exact (Set.Ico_subset_Ico_left (by omega)).trans hh
      have hlower : Set.Ico frame (frame + 2 ^ current) ⊆ held \ upper.span := by
        intro f hf
        refine ⟨hh ⟨hf.1, hf.2.trans_le (by omega)⟩, ?_⟩
        rw [hspan]
        exact fun hm => absurd hf.2 (by have := hm.1; omega)
      obtain ⟨hgiven, halike⟩ := layout_giveBack h hupper (by exact Nat.le_of_succ_le hmax)
      obtain ⟨halves, htotal, hhalves, halike'⟩ := ih hgiven
        ((Nat.pow_dvd_pow 2 current.le_succ).trans haligned) (by omega) (by omega) hlower
      refine ⟨halves ++ [upper], ?_, ?_, halike.trans halike'⟩
      · rw [total_concat, pow_succ, Nat.mul_two, ← htotal]
        change _ + 2 ^ current + _ = _
        omega
      · rw [freed_concat]
        have hr : Set.Ico (frame + 2 ^ k) (frame + 2 ^ current) ∪ upper.span =
            Set.Ico (frame + 2 ^ k) (frame + 2 ^ (current + 1)) := by
          rw [hspan]
          exact Set.Ico_union_Ico_eq_Ico (by omega) (by omega)
        rw [sdiff_sdiff, union_comm, hr] at hhalves
        exact hhalves
    · obtain rfl : k = current + 1 := by omega
      rw [if_neg hsplit, Set.Ico_self, sdiff_empty]
      exact ⟨[], by simp [total], h, .refl _⟩

lemma mark_spec (hinside : block.span ⊆ covered F) :
    Beside F ((F.setStateRange block.start (2 ^ block.order) .allocatedTail).entryMut
        block.start (headOf block.order)) block.span ∧
      Marked ((F.setStateRange block.start (2 ^ block.order) .allocatedTail).entryMut
        block.start (headOf block.order)) ⟨block, .allocated⟩ := by
  obtain ⟨hbeside, hslot⟩ := setStateRange_spec .allocatedTail hinside
  have hstart := block.start_mem_span
  have hcovered : block.start ∈ covered
      (F.setStateRange block.start (2 ^ block.order) .allocatedTail) := by
    rw [hbeside.covered]
    exact hinside hstart
  have hheaded := beside_entryMut (headOf block.order) hcovered
  refine ⟨hbeside.trans (hheaded.mono (singleton_subset_iff.mpr hstart)), ⟨?_, ?_, ?_⟩⟩
  · rw [slot_entryMut _ hcovered]
    rfl
  · rw [slot_entryMut _ hcovered]
    rfl
  · intro f hf hne
    rw [hheaded.slot f hne, hslot f hf]
    rfl

lemma mark_single_spec (hframe : frame ∈ covered F) :
    Beside F (F.entryMut frame (headOf 0)) {frame} ∧
      Marked (F.entryMut frame (headOf 0)) ⟨Block.single frame, .allocated⟩ := by
  refine ⟨beside_entryMut _ hframe, ⟨?_, ?_, ?_⟩⟩
  · exact congrArg PageEntry.state (slot_entryMut _ hframe)
  · exact congrArg PageEntry.order (slot_entryMut _ hframe)
  · intro f hf hne
    rw [Block.span_single] at hf
    exact absurd hf hne

lemma take_spec (h : Layout F held pieces) (hh : block.span ⊆ held)
    (hmax : block.order ≤ maxOrder) (horder : k ≤ block.order) :
    ∃ halves, total halves + 2 ^ k = 2 ^ block.order ∧
      Layout (F.take block.start block.order k) (held \ block.span)
        (⟨block.low k horder, .allocated⟩ :: (freed halves ++ pieces)) ∧
      (F.take block.start block.order k).free = F.free - 2 ^ k ∧
      (F.take block.start block.order k).managed = F.managed := by
  obtain ⟨halves, htotal, hsplit, halike⟩ :=
    splitDown_spec h block.aligned horder hmax hh
  have hpow : 2 ^ k ≤ 2 ^ block.order := Nat.pow_le_pow_right (by omega) horder
  set low := block.low k horder
  have hspan : low.span = Set.Ico block.start (block.start + 2 ^ k) := rfl
  have hlow : low.span ⊆ held \ Set.Ico (block.start + 2 ^ k) (block.start + 2 ^ block.order) := by
    rw [hspan]
    intro f hf
    refine ⟨hh ⟨hf.1, hf.2.trans_le (by omega)⟩, fun hm => ?_⟩
    exact absurd hf.2 (not_lt.mpr hm.1)
  obtain ⟨hbeside, hmarked⟩ := mark_spec (hlow.trans hsplit.held_inside)
  have hgone : (held \ Set.Ico (block.start + 2 ^ k) (block.start + 2 ^ block.order)) \ low.span =
      held \ block.span := by
    rw [sdiff_sdiff, union_comm, hspan]
    congr 1
    exact Set.Ico_union_Ico_eq_Ico (Nat.le_add_right _ _) (by omega)
  have hhanded := layout_handOut (hsplit.beside (hbeside.mono hlow)) hlow
    (horder.trans hmax) hmarked
  rw [hgone] at hhanded
  refine ⟨halves, htotal, layout_recount _ _ hhanded, ?_, ?_⟩
  · exact congrArg (· - 2 ^ k) (hbeside.free.trans halike.free)
  · exact hbeside.managed.trans halike.managed

lemma exists_halves (haligned : 2 ^ (current + 1) ∣ a)
    (hf : frame ∈ Set.Ico a (a + 2 ^ (current + 1))) :
    ∃ keep give : Block, (if a + 2 ^ current ≤ frame then (a + 2 ^ current, a)
        else (a, a + 2 ^ current)) = (keep.start, give.start) ∧
      keep.order = current ∧ give.order = current ∧ frame ∈ keep.span ∧
      Set.Ico a (a + 2 ^ (current + 1)) = keep.span ∪ give.span ∧
      Disjoint keep.span give.span := by
  have hspan := Block.span_eq_union a current haligned
  have hapart := Block.disjoint_halves a current haligned
  have hin : frame ∈ (Block.lower a current haligned).span ∪
      (Block.upper a current haligned).span := hspan ▸ hf
  by_cases hupper : a + 2 ^ current ≤ frame
  · refine ⟨.upper a current haligned, .lower a current haligned, if_pos hupper, rfl, rfl,
      hin.resolve_left fun hlow => ?_, hspan.trans (union_comm _ _), hapart.symm⟩
    exact absurd hlow.2 (not_lt.mpr hupper)
  · refine ⟨.lower a current haligned, .upper a current haligned, if_neg hupper, rfl, rfl,
      hin.resolve_right fun hhigh => hupper hhigh.1, hspan, hapart⟩

lemma narrow_spec (h : Layout F held pieces) (haligned : 2 ^ current ∣ a)
    (hmax : current ≤ maxOrder) (hf : frame ∈ Set.Ico a (a + 2 ^ current))
    (hh : Set.Ico a (a + 2 ^ current) ⊆ held) :
    ∃ halves, total halves + 1 = 2 ^ current ∧ Layout (narrow frame current F a)
        (held \ (Set.Ico a (a + 2 ^ current) \ {frame})) (freed halves ++ pieces) ∧
      Alike F (narrow frame current F a) := by
  induction current generalizing F held pieces a with
  | zero =>
    obtain ⟨hstart, hstop⟩ := hf
    obtain rfl : frame = a := by omega
    refine ⟨[], rfl, ?_, .refl _⟩
    have hgone : Set.Ico frame (frame + 2 ^ 0) \ {frame} = ∅ := by
      ext f
      simp
    rw [hgone, sdiff_empty]
    exact h
  | succ current ih =>
    obtain ⟨keep, give, hchoice, rfl, hgive, hm, hspan, hapart⟩ :=
      exists_halves haligned hf
    rw [hspan] at hh ⊢
    obtain ⟨hkept, hgiven⟩ := union_subset_iff.mp hh
    obtain ⟨h', halike⟩ := layout_giveBack h hgiven (by omega)
    rw [hgive] at h' halike
    obtain ⟨halves, htotal, hhalves, halike'⟩ := ih h' keep.aligned (by omega) hm
      (subset_sdiff.mpr ⟨hkept, hapart⟩)
    rw [narrow, hchoice]
    refine ⟨halves ++ [give], ?_, ?_, halike.trans halike'⟩
    · rw [total_concat, hgive, pow_succ]
      omega
    · rw [freed_concat]
      have hgone : (held \ give.span) \ (keep.span \ {frame}) =
          held \ ((keep.span ∪ give.span) \ {frame}) := by
        have hout : frame ∉ give.span := disjoint_left.mp hapart hm
        ext f
        by_cases heq : f = frame
        · simp [heq, hout]
        · simp [heq]
          tauto
      rw [← hgone]
      exact hhalves

/-- What merging a block upwards leaves: a larger block of cleared frames held back, and the
free blocks it took in gone from the pieces. -/
structure Merged (frames frames' : Frames) (pieces : List Piece) (block whole : Block)
    (taken : List Block) (rest : List Piece) : Prop extends Alike frames frames' where
  perm : pieces.Perm (freed taken ++ rest)
  layout : Layout frames' whole.span rest
  cleared : ∀ f ∈ whole.span, (slot frames' f).state = .freeTail
  order_le : whole.order ≤ maxOrder
  total : 2 ^ block.order + total taken = 2 ^ whole.order

lemma mergeable_iff {buddy : Nat} : F.mergeable buddy k = true ↔
    buddy ∈ covered F ∧ (slot F buddy).state = .free ∧ (slot F buddy).order = k := by
  by_cases hcovered : buddy ∈ covered F
  · simp [mergeable, entry_of_mem hcovered, hcovered]
  · simp [mergeable, entry_of_notMem hcovered, hcovered]

lemma merge_spec (h : Layout F block.span pieces)
    (hcleared : ∀ f ∈ block.span, (slot F f).state = .freeTail)
    (hmergeable : F.mergeable block.buddy.start block.order = true) :
    ∃ rest, pieces.Perm (⟨block.buddy, .free⟩ :: rest) ∧
      Layout ((F.unlink block.buddy.start block.order).entryMut block.buddy.start
        fun e => { e with state := .freeTail }) block.parent.span rest ∧
      (∀ f ∈ block.parent.span, (slot ((F.unlink block.buddy.start block.order).entryMut
        block.buddy.start fun e => { e with state := .freeTail }) f).state = .freeTail) ∧
      Alike F ((F.unlink block.buddy.start block.order).entryMut block.buddy.start
        fun e => { e with state := .freeTail }) := by
  obtain ⟨hcovered, hfree, horder⟩ := mergeable_iff.mp hmergeable
  have hout : block.buddy.start ∉ block.span := fun hm =>
    disjoint_left.mp block.disjoint_buddy hm block.buddy.start_mem_span
  obtain ⟨buddy, hbuddy, hstart, hsame⟩ := h.exists_head .free hcovered hout hfree
  obtain rfl : buddy = block.buddy := Block.ext hstart (hsame.trans horder)
  have hperm := perm_cons_erase hbuddy
  have hunlinked : Unlinked F (F.unlink block.buddy.start block.order) block.span
      block.buddy (pieces.erase ⟨block.buddy, .free⟩) := layout_unlink (h.perm hperm)
  have hcovered' := hunlinked.covered ▸ hcovered
  have hwritten := beside_entryMut (fun e => { e with state := .freeTail }) hcovered'
  have hp := block.span_parent
  have hstarts : ({block.buddy.start} : Set Nat) ⊆ block.span ∪ block.buddy.span :=
    singleton_subset_iff.mpr (.inr block.buddy.start_mem_span)
  refine ⟨_, hperm, ?_, fun f hf => ?_, hunlinked.toAlike.trans hwritten.toAlike⟩
  · rw [hp]
    exact hunlinked.layout.beside (hwritten.mono hstarts)
  · by_cases heq : f = block.buddy.start
    · subst heq
      rw [slot_entryMut _ hcovered']
    · have hbuddyf : f ∈ block.buddy.span → (slot F f).state = .freeTail := fun hm =>
        (h.marked _ hbuddy).tail f hm heq
      rw [hp] at hf
      rw [hwritten.slot f heq, hunlinked.state f]
      exact hf.elim (hcleared f) hbuddyf

lemma coalesce_spec {l : Nat} (h : Layout F block.span pieces)
    (hcleared : ∀ f ∈ block.span, (slot F f).state = .freeTail)
    (hleft : l + block.order = maxOrder) : ∃ F' whole taken rest,
      coalesceFrom l F block.start block.order = (F', whole.start, whole.order) ∧
      Merged F F' pieces block whole taken rest := by
  induction l generalizing F block pieces with
  | zero =>
    refine ⟨F, block, [], pieces, rfl, ⟨.refl _, .refl _, h, hcleared, by omega, ?_⟩⟩
    simp [Carving.total]
  | succ l ih =>
    rw [coalesceFrom]
    split_ifs with hmergeable
    · obtain ⟨rest, hperm, h', hcleared', halike⟩ := merge_spec h hcleared hmergeable
      obtain ⟨F', whole, taken, rest', heq, hmerged⟩ := ih h' hcleared' (by
        change l + (block.order + 1) = maxOrder
        omega)
      refine ⟨F', whole, block.buddy :: taken, rest', heq, ?_⟩
      refine ⟨halike.trans hmerged.toAlike, ?_, hmerged.layout, hmerged.cleared,
        hmerged.order_le, ?_⟩
      · exact hperm.trans (hmerged.perm.cons _)
      · rw [← hmerged.total]
        change _ + (2 ^ block.order + Carving.total taken) = 2 ^ (block.order + 1) + _
        omega
    · refine ⟨F, block, [], pieces, rfl, ⟨.refl _, .refl _, h, hcleared, by omega, ?_⟩⟩
      simp [Carving.total]

end Ferrix.Frame.Carving

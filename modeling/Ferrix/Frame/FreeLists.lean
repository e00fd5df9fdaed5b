import Ferrix.Frame.Pieces

namespace Ferrix.Frame.FreeLists

open Foundations AlignedBlocks Links Buddy Pieces List

variable {F : Frames} {held : Set Nat} {ps rest : List Piece}
  {frame order j order' : Nat} {block : Block}

section

variable {write : PageEntry → PageEntry} {v : Nat}

@[simp]
lemma base_modify : (F.modify j write).base = F.base := rfl

@[simp]
lemma length_modify : (F.modify j write).entries.length = F.entries.length := by
  simp [Frames.modify]

@[simp]
lemma slot_setHead : slot (F.setHead order v) frame = slot F frame := rfl

lemma alike_modify : Alike F (F.modify j write) :=
  ⟨rfl, length_modify, rfl, rfl⟩

lemma alike_setHead : Alike F (F.setHead order v) :=
  ⟨rfl, rfl, rfl, rfl⟩

lemma alike_ite {c : Prop} [Decidable c] {one other : Frames} (hone : Alike F one)
    (ho : Alike F other) : Alike F (if c then one else other) := by
  split_ifs
  · exact hone
  · exact ho

lemma head_set (hheads : F.heads.length = orders) (horder : order ≤ maxOrder)
    : (F.heads.set order v).getD order' noFrame =
      if order' = order then v else F.head order' := by
  have hlt : order < F.heads.length := by
    rw [hheads, orders]
    omega
  by_cases heq : order' = order
  · subst heq
    simp [hlt]
  · simp [Frames.head, heq, Ne.symm heq]

lemma slot_ite {other : Frames} (ho : slot other frame = slot F frame)
    (hi : j ≠ noFrame → j < F.entries.length) :
    slot (if j = noFrame then other else F.modify j write) frame =
      if j ≠ noFrame ∧ frame = F.base + j then write (slot F frame)
      else slot F frame := by
  by_cases hnone : j = noFrame
  · simp [hnone, ho]
  · simp [hnone, slot_modify (hi hnone)]

end

section

variable (hframe : frame ∈ covered F)
  (hhead : F.head order ≠ noFrame →
    F.head order < F.entries.length ∧ F.base + F.head order ≠ frame)

include hframe

lemma push_eq : F.push frame order = (if F.head order ≠ noFrame then
        (F.modify (frame - F.base) fun e =>
          { e with
            next := F.head order, previous := noFrame, order, state := .free,
            refcount := 0 }).modify (F.head order)
          fun e => { e with previous := frame - F.base }
      else F.modify (frame - F.base) fun e =>
        { e with
          next := F.head order, previous := noFrame, order, state := .free,
          refcount := 0 }).setHead order (frame - F.base) := by
  rw [Frames.push, index_of_mem hframe]

lemma alike_push : Alike F (F.push frame order) := by
  rw [push_eq hframe]
  exact (alike_ite (alike_modify.trans alike_modify) alike_modify).trans alike_setHead

lemma heads_push : (F.push frame order).heads = F.heads.set order (frame - F.base) := by
  rw [push_eq hframe]
  split_ifs <;> rfl

include hhead

lemma slot_push (f : Nat) : slot (F.push frame order) f = if f = frame then
      { slot F f with
        next := F.head order, previous := noFrame, order, state := .free, refcount := 0 }
    else if F.head order ≠ noFrame ∧ f = F.base + F.head order then
      { slot F f with previous := frame - F.base }
    else slot F f := by
  obtain ⟨hbase, hstop⟩ := id hframe
  have hi : frame - F.base < F.entries.length := by omega
  have hback : F.base + (frame - F.base) = frame := by omega
  rw [push_eq hframe, slot_setHead, ite_not, slot_ite rfl fun h => by simpa using (hhead h).1,
    slot_modify hi, hback, base_modify]
  by_cases hsame : f = frame
  · rw [if_pos hsame, if_pos hsame, if_neg]
    exact fun hlink => (hhead hlink.1).2 (hlink.2.symm.trans hsame)
  · rw [if_neg hsame, if_neg hsame]

lemma state_push (f : Nat) (hne : f ≠ frame) :
    (slot (F.push frame order) f).state = (slot F f).state ∧
      (slot (F.push frame order) f).order = (slot F f).order := by
  rw [slot_push hframe hhead, if_neg hne]
  split_ifs <;> exact ⟨rfl, rfl⟩

lemma nextOf_push (hne : F.base + j ≠ frame) :
    nextOf (F.push frame order) j = nextOf F j := by
  rw [nextOf, (alike_push hframe).base, slot_push hframe hhead, if_neg hne]
  split_ifs <;> rfl

lemma previousOf_push (hne : F.base + j ≠ frame) (ho : j ≠ F.head order) :
    previousOf (F.push frame order) j = previousOf F j := by
  rw [previousOf, (alike_push hframe).base, slot_push hframe hhead, if_neg hne, if_neg]
  · rfl
  · rintro ⟨-, heq⟩
    exact ho (by omega)

variable {list : List Nat} (hfresh : ∀ i ∈ list, F.base + i ≠ frame)
  (hheads : F.heads.length = orders) (horder : order ≤ maxOrder)

include hfresh hheads horder

lemma threaded_push (hshort : F.entries.length < noFrame) (ht : Threaded F order list) :
    Threaded (F.push frame order) order ((frame - F.base) :: list) := by
  obtain ⟨hbase, hstop⟩ := id hframe
  have hback : F.base + (frame - F.base) = frame := by omega
  have hslot := slot_push hframe hhead frame
  rw [if_pos rfl] at hslot
  constructor
  · rw [Frames.head, heads_push hframe, head_set hheads horder, if_pos rfl]
    refine ht.chain.push (by omega) ?_ fun i hi => nextOf_push hframe hhead (hfresh i hi)
    rw [nextOf, (alike_push hframe).base, hback, hslot]
  · refine ht.backed.push ?_ (fun i hi => ?_) (fun i hi => ?_)
    · rw [previousOf, (alike_push hframe).base, hback, hslot]
    · have hcursor : F.head order = i := by
        rw [ht.chain.cursor_eq, Option.mem_def.mp hi]
        rfl
      have hm := mem_of_mem_head? hi
      rw [previousOf, (alike_push hframe).base, slot_push hframe hhead, if_neg (hfresh i hm),
        if_pos]
      rw [hcursor]
      exact ⟨ht.chain.ne_stop i hm, rfl⟩
    · refine previousOf_push hframe hhead (hfresh i (mem_of_mem_tail hi)) ?_
      rintro rfl
      cases list with
      | nil => exact absurd hi not_mem_nil
      | cons f list =>
        rw [ht.chain.1] at hi
        exact (nodup_cons.mp ht.nodup).1 hi
  · refine nodup_cons.mpr ⟨fun hm => hfresh _ hm hback, ht.nodup⟩

lemma threaded_push_other (hne : order' ≠ order)
    (ho : ∀ i ∈ list, i ≠ F.head order) (ht : Threaded F order' list) :
    Threaded (F.push frame order) order' list := by
  refine ht.congr ?_ (fun i hi => ?_) (fun i hi => ?_)
  · rw [Frames.head, heads_push hframe, head_set hheads horder, if_neg hne]
  · exact nextOf_push hframe hhead (hfresh i hi)
  · exact previousOf_push hframe hhead (hfresh i hi) (ho i hi)

end

lemma layout_push (h : Layout F held ps) (hh : block.span ⊆ held)
    (horder : block.order ≤ maxOrder) (hstate : ∀ f ∈ block.span, (slot F f).state = .freeTail) :
    Layout (F.push block.start block.order) (held \ block.span) (⟨block, .free⟩ :: ps) := by
  have hstart := hh block.start_mem_span
  have hframe := h.held_inside hstart
  obtain ⟨hbase, hstop⟩ := id hframe
  obtain ⟨list, ht, hm⟩ := h.listed block.order horder
  have hheads : F.head block.order ≠ noFrame →
      Heads F block.order ps (F.head block.order) := fun hnone =>
    (hm _).mp (mem_of_mem_head? (ht.head_mem hnone))
  have hhead : F.head block.order ≠ noFrame → F.head block.order < F.entries.length ∧
        F.base + F.head block.order ≠ block.start := fun hnone =>
    ⟨h.lt_of_heads (hheads hnone), h.ne_of_heads hstart (hheads hnone)⟩
  have halike : Alike F (F.push block.start block.order) := alike_push hframe
  have hcovered := halike.covered
  have ho := state_push hframe hhead
  have hne : ∀ p ∈ ps, ∀ f ∈ p.block.span, f ≠ block.start := by
    rintro p hpiece f hf rfl
    exact Set.disjoint_left.mp (h.held_apart p hpiece) hf hstart
  refine ⟨halike.length ▸ h.short, ?_, ?_, ?_, ?_, ?_, ?_, ?_, ?_, ?_⟩
  · rw [heads_push hframe, length_set, h.heads]
  · exact forall_mem_cons.mpr ⟨horder, h.order_le⟩
  · rw [hcovered]
    exact forall_mem_cons.mpr ⟨hh.trans h.held_inside, h.inside⟩
  · rw [hcovered]
    exact Set.sdiff_subset.trans h.held_inside
  · refine pairwise_cons.mpr ⟨fun p hpiece => ?_, h.apart⟩
    exact ((h.held_apart p hpiece).mono_right hh).symm
  · refine forall_mem_cons.mpr ⟨Set.disjoint_sdiff_right, fun p hpiece => ?_⟩
    exact (h.held_apart p hpiece).mono_right Set.sdiff_subset
  · refine forall_mem_cons.mpr ⟨⟨?_, ?_, ?_⟩, fun p hpiece => ?_⟩
    · rw [slot_push hframe hhead, if_pos rfl]
      rfl
    · rw [slot_push hframe hhead, if_pos rfl]
    · intro f hf hf'
      rw [(ho f hf').1]
      exact hstate f hf
    · refine (h.marked p hpiece).congr (fun f hf => ?_) ?_
      · exact (ho f (hne p hpiece f hf)).1
      · exact (ho _ (hne p hpiece _ p.block.start_mem_span)).2
  · intro f hf hout hpieces
    obtain ⟨hb, hpieces⟩ := forall_mem_cons.mp hpieces
    have hf' : f ≠ block.start := by
      rintro rfl
      exact hb block.start_mem_span
    rw [(ho f hf').1]
    refine h.reserved f (hcovered ▸ hf) (fun h => hout ⟨h, hb⟩) hpieces
  · intro order' horder'
    have hfresh : ∀ i, Heads F order' ps i → F.base + i ≠ block.start :=
      fun i hi => h.ne_of_heads hstart hi
    by_cases heq : order' = block.order
    · subst heq
      refine ⟨(block.start - F.base) :: list, threaded_push hframe hhead
        (fun i hi => hfresh i ((hm i).mp hi)) h.heads horder h.short ht, ?_⟩
      intro i
      simp only [mem_cons, hm, Heads, exists_eq_or_imp, halike.base, true_and]
      refine or_congr ⟨fun h => ?_, fun h => ?_⟩ Iff.rfl <;> omega
    · obtain ⟨list', ht', hm'⟩ := h.listed order' horder'
      refine ⟨list', threaded_push_other hframe hhead
        (fun i hi => hfresh i ((hm' i).mp hi)) h.heads horder heq ?_ ht', ?_⟩
      · rintro i hi rfl
        have hnone := ht'.chain.ne_stop _ hi
        exact heq (h.order_of_heads ((hm' _).mp hi) (hheads hnone))
      · intro i
        rw [hm' i]
        simp only [Heads, mem_cons, exists_eq_or_imp, halike.base]
        refine ⟨.inr, fun h => h.resolve_left ?_⟩
        exact fun h => heq h.2.1.symm

section

variable (hframe : frame ∈ covered F)

include hframe

lemma unlink_eq : F.unlink frame order =
    let passed :=
      if (slot F frame).previous = noFrame then
        F.setHead order (slot F frame).next
      else F.modify (slot F frame).previous fun e =>
        { e with next := (slot F frame).next }
    let backed :=
      if (slot F frame).next ≠ noFrame then
        passed.modify (slot F frame).next fun e =>
          { e with previous := (slot F frame).previous }
      else passed
    backed.modify (frame - F.base) fun e => { e with next := noFrame, previous := noFrame } := by
  obtain ⟨hbase, hstop⟩ := id hframe
  have hi : frame - F.base < F.entries.length := by omega
  have hlook := getElem?_eq F hi
  rw [Nat.add_sub_cancel' hbase] at hlook
  simp only [Frames.unlink, index_of_mem hframe, hlook]

lemma alike_unlink : Alike F (F.unlink frame order) := by
  rw [unlink_eq hframe]
  refine (alike_ite (Alike.trans ?_ alike_modify) ?_).trans alike_modify <;>
    exact alike_ite alike_setHead alike_modify

lemma heads_unlink : (F.unlink frame order).heads =
    if (slot F frame).previous = noFrame then
      F.heads.set order (slot F frame).next else F.heads := by
  rw [unlink_eq hframe]
  split_ifs <;> rfl

variable (hn : (slot F frame).next ≠ noFrame →
    (slot F frame).next < F.entries.length)
  (hprevious : (slot F frame).previous ≠ noFrame →
    (slot F frame).previous < F.entries.length)

include hn hprevious

lemma slot_unlink (i : Nat) : slot (F.unlink frame order) (F.base + i) =
    { slot F (F.base + i) with
      next :=
        if F.base + i = frame then noFrame
        else if (slot F frame).previous ≠ noFrame ∧ i = (slot F frame).previous then
          (slot F frame).next
        else nextOf F i
      previous :=
        if F.base + i = frame then noFrame
        else if (slot F frame).next ≠ noFrame ∧ i = (slot F frame).next then
          (slot F frame).previous
        else previousOf F i } := by
  obtain ⟨hbase, hstop⟩ := id hframe
  have hi : frame - F.base < F.entries.length := by omega
  have hback : F.base + (frame - F.base) = frame := by omega
  rw [unlink_eq hframe]
  dsimp only
  set passed := if (slot F frame).previous = noFrame then
      F.setHead order (slot F frame).next
    else F.modify (slot F frame).previous fun e =>
      { e with next := (slot F frame).next } with hpassed
  have halike : Alike F passed := alike_ite alike_setHead alike_modify
  set backed := if (slot F frame).next ≠ noFrame then
      passed.modify (slot F frame).next fun e =>
        { e with previous := (slot F frame).previous }
    else passed with hbacked
  have halike' : Alike F backed := alike_ite (halike.trans alike_modify) halike
  rw [slot_modify (halike'.length ▸ hi), halike'.base, hback, hbacked, ite_not,
    slot_ite rfl (halike.length ▸ hn), halike.base, hpassed, slot_ite slot_setHead hprevious]
  simp only [Nat.add_right_inj]
  split_ifs <;> rfl

lemma state_unlink (f : Nat) : (slot (F.unlink frame order) f).state = (slot F f).state ∧
      (slot (F.unlink frame order) f).order = (slot F f).order := by
  by_cases hf : f ∈ covered F
  · obtain ⟨i, rfl⟩ := Nat.exists_eq_add_of_le hf.1
    rw [slot_unlink hframe hn hprevious]
    exact ⟨rfl, rfl⟩
  · have hf' : f ∉ covered (F.unlink frame order) := (alike_unlink hframe).covered ▸ hf
    rw [slot, slot, entry_of_notMem hf, entry_of_notMem hf']
    exact ⟨rfl, rfl⟩

variable (hne : F.base + j ≠ frame)
include hne

lemma nextOf_unlink : nextOf (F.unlink frame order) j =
    if (slot F frame).previous ≠ noFrame ∧ j = (slot F frame).previous then
      (slot F frame).next else nextOf F j := by
  rw [nextOf, (alike_unlink hframe).base, slot_unlink hframe hn hprevious]
  exact if_neg hne

lemma previousOf_unlink : previousOf (F.unlink frame order) j =
    if (slot F frame).next ≠ noFrame ∧ j = (slot F frame).next then
      (slot F frame).previous else previousOf F j := by
  rw [previousOf, (alike_unlink hframe).base, slot_unlink hframe hn hprevious]
  exact if_neg hne

end

section

variable {front back : List Nat} (ht : Threaded F order (front ++ j :: back)) {i : Nat}

include ht

lemma nextOf_mem (hn : nextOf F j ≠ noFrame) : nextOf F j ∈ back.head? := by
  rw [ht.chain.next_eq] at hn ⊢
  exact getD_mem hn

lemma previousOf_mem (hprevious : previousOf F j ≠ noFrame) :
    previousOf F j ∈ front.getLast? := by
  rw [ht.backed.previous_eq] at hprevious ⊢
  exact getD_mem hprevious

lemma nextOf_eq (hi : i ∈ back.head?) : nextOf F j = i := by
  rw [ht.chain.next_eq, Option.mem_def.mp hi]
  rfl

lemma previousOf_eq (hi : i ∈ front.getLast?) : previousOf F j = i := by
  rw [ht.backed.previous_eq, Option.mem_def.mp hi]
  rfl

lemma previousOf_eq_noFrame : previousOf F j = noFrame ↔ front = [] := by
  rw [ht.backed.previous_eq, ← List.getLast?_eq_none_iff]
  cases hl : front.getLast? with
  | none => simp
  | some l =>
    have hm := mem_append_left (j :: back) (mem_of_getLast? hl)
    simpa using ht.chain.ne_stop l hm

lemma notMem_of_nodup : ∀ i ∈ front ++ back, F.base + i ≠ F.base + j := by
  obtain ⟨-, hr, hapart⟩ := nodup_append.mp ht.nodup
  intro i hi heq
  obtain rfl : i = j := by omega
  rcases mem_append.mp hi with hi | hi
  · exact hapart i hi i (.head _) rfl
  · exact (nodup_cons.mp hr).1 hi

variable (hlt : ∀ i ∈ front ++ j :: back, i < F.entries.length)

include hlt

lemma nextOf_lt (hn : nextOf F j ≠ noFrame) :
    nextOf F j < F.entries.length := by
  have hm := mem_of_mem_head? (nextOf_mem ht hn)
  exact hlt _ (mem_append_right _ (.tail _ hm))

lemma previousOf_lt (hprevious : previousOf F j ≠ noFrame) :
    previousOf F j < F.entries.length := by
  have hm := mem_of_getLast? (previousOf_mem ht hprevious)
  exact hlt _ (mem_append_left _ hm)

variable (hheads : F.heads.length = orders) (horder : order ≤ maxOrder)

include hheads horder

lemma threaded_unlink : Threaded (F.unlink (F.base + j) order) order (front ++ back) := by
  have hindex := hlt j (by simp)
  have hframe : F.base + j ∈ covered F := ⟨by omega, by omega⟩
  have hn := nextOf_lt ht hlt
  have hprevious := previousOf_lt ht hlt
  have hne := notMem_of_nodup ht
  obtain ⟨hfront, hr, hapart⟩ := nodup_append.mp ht.nodup
  constructor
  · have hhead : (F.unlink (F.base + j) order).head order =
        if front = [] then nextOf F j else F.head order := by
      rw [Frames.head, heads_unlink hframe]
      by_cases hnil : (slot F (F.base + j)).previous = noFrame
      · rw [if_pos ((previousOf_eq_noFrame ht).mp hnil), if_pos hnil,
          head_set hheads horder, if_pos rfl]
        rfl
      · rw [if_neg fun h => hnil ((previousOf_eq_noFrame ht).mpr h), if_neg hnil]
        rfl
    rw [hhead]
    refine ht.chain.remove hfront (fun i hi hm => hapart i hm i (.tail _ hi) rfl)
      (fun i hi hout => ?_) (fun i hi => ?_)
    · rw [nextOf_unlink hframe hn hprevious (hne i hi), if_neg]
      rintro ⟨hlink, rfl⟩
      exact hout (previousOf_mem ht hlink)
    · have hm := mem_of_getLast? hi
      obtain rfl := previousOf_eq ht hi
      rw [nextOf_unlink hframe hn hprevious (hne _ (mem_append_left _ hm)), if_pos]
      · rfl
      · exact ⟨ht.chain.ne_stop _ (mem_append_left _ hm), rfl⟩
  · refine ht.backed.remove (nodup_cons.mp hr).2
      (fun i hi hm => hapart i hi i (.tail _ hm) rfl) (fun i hi hout => ?_) (fun i hi => ?_)
    · rw [previousOf_unlink hframe hn hprevious (hne i hi), if_neg]
      rintro ⟨hlink, rfl⟩
      exact hout (nextOf_mem ht hlink)
    · have hm := mem_of_mem_head? hi
      obtain rfl := nextOf_eq ht hi
      rw [previousOf_unlink hframe hn hprevious (hne _ (mem_append_right _ hm)), if_pos]
      · rfl
      · exact ⟨ht.chain.ne_stop _ (mem_append_right _ (.tail _ hm)), rfl⟩
  · refine ht.nodup.sublist ?_
    exact List.Sublist.append_left (sublist_cons_self _ _) _

lemma threaded_unlink_other {list : List Nat} (hne : order' ≠ order)
    (ho : ∀ i ∈ list, i ∉ front ++ j :: back) (ht' : Threaded F order' list) :
    Threaded (F.unlink (F.base + j) order) order' list := by
  have hindex := hlt j (by simp)
  have hframe : F.base + j ∈ covered F := ⟨by omega, by omega⟩
  have hn := nextOf_lt ht hlt
  have hprevious := previousOf_lt ht hlt
  have hfresh : ∀ i ∈ list, F.base + i ≠ F.base + j := by
    intro i hi heq
    exact ho i hi (by simp [Nat.add_left_cancel heq])
  refine ht'.congr ?_ (fun i hi => ?_) (fun i hi => ?_)
  · rw [Frames.head, heads_unlink hframe]
    split_ifs
    · rw [head_set hheads horder, if_neg hne]
    · rfl
  · rw [nextOf_unlink hframe hn hprevious (hfresh i hi), if_neg]
    rintro ⟨hlink, rfl⟩
    exact ho _ hi (mem_append_left _ (mem_of_getLast? (previousOf_mem ht hlink)))
  · rw [previousOf_unlink hframe hn hprevious (hfresh i hi), if_neg]
    rintro ⟨hlink, rfl⟩
    exact ho _ hi (mem_append_right _ (.tail _ (mem_of_mem_head? (nextOf_mem ht hlink))))

end

/-- What taking a free block off its list leaves: its frames held back, still marked as they
were, and no other piece touched. -/
structure Unlinked (frames frames' : Frames) (held : Set Nat) (block : Block)
    (rest : List Piece) : Prop extends Alike frames frames' where
  layout : Layout frames' (held ∪ block.span) rest
  state : ∀ f, (slot frames' f).state = (slot frames f).state

lemma layout_unlink (h : Layout F held (⟨block, .free⟩ :: rest)) :
    Unlinked F (F.unlink block.start block.order) held block rest := by
  obtain ⟨horder, horders⟩ := forall_mem_cons.mp h.order_le
  obtain ⟨hb, hinside⟩ := forall_mem_cons.mp h.inside
  obtain ⟨hapart, hr⟩ := pairwise_cons.mp h.apart
  obtain ⟨-, hh⟩ := forall_mem_cons.mp h.held_apart
  have hframe := hb block.start_mem_span
  obtain ⟨j, hindex⟩ := Nat.exists_eq_add_of_le hframe.1
  obtain ⟨list, ht, hm⟩ := h.listed block.order horder
  have hlisted : j ∈ list := (hm j).mpr ⟨_, .head _, rfl, rfl, hindex⟩
  obtain ⟨front, back, rfl⟩ := append_of_mem hlisted
  have hlt : ∀ i ∈ front ++ j :: back, i < F.entries.length := fun i hi =>
    h.lt_of_heads ((hm i).mp hi)
  have halike : Alike F (F.unlink block.start block.order) := alike_unlink hframe
  have hstate : ∀ f, (slot (F.unlink block.start block.order) f).state =
      (slot F f).state ∧ (slot (F.unlink block.start block.order) f).order =
      (slot F f).order := by
    rw [hindex]
    exact state_unlink (hindex ▸ hframe) (nextOf_lt ht hlt) (previousOf_lt ht hlt)
  refine ⟨halike, ⟨halike.length ▸ h.short, ?_, horders, halike.covered ▸ hinside, ?_, hr,
    ?_, ?_, ?_, ?_⟩, fun f => (hstate f).1⟩
  · rw [heads_unlink hframe]
    split_ifs
    · rw [length_set, h.heads]
    · exact h.heads
  · rw [halike.covered]
    exact Set.union_subset h.held_inside hb
  · intro p hpiece
    exact Set.disjoint_union_right.mpr ⟨hh p hpiece, (hapart p hpiece).symm⟩
  · intro p hpiece
    exact (h.marked p (.tail _ hpiece)).congr (fun f _ => (hstate f).1) (hstate _).2
  · intro f hf hout hpieces
    rw [(hstate f).1]
    rw [Set.mem_union, not_or] at hout
    exact h.reserved f (halike.covered ▸ hf) hout.1 (forall_mem_cons.mpr ⟨hout.2, hpieces⟩)
  · intro order' horder'
    -- The list of the block's own order loses it; the other lists share no entry with that one.
    by_cases heq : order' = block.order
    · subst heq
      refine ⟨front ++ back, ?_, fun i => ?_⟩
      · rw [hindex]
        exact threaded_unlink ht hlt h.heads horder
      · constructor
        · intro hi
          have hi' : i ∈ front ++ j :: back := by
            rw [mem_append] at hi ⊢
            exact hi.imp_right (.tail _)
          obtain ⟨p, hpiece, huse, hsame, hstart⟩ := (hm i).mp hi'
          rw [Heads, halike.base]
          rcases mem_cons.mp hpiece with rfl | hpiece
          · exact absurd (hstart.symm.trans hindex) (notMem_of_nodup ht i hi)
          · exact ⟨p, hpiece, huse, hsame, hstart⟩
        · rintro ⟨p, hpiece, huse, hsame, hstart⟩
          rw [halike.base] at hstart
          have hi := (hm i).mpr ⟨p, .tail _ hpiece, huse, hsame, hstart⟩
          have hne : i ≠ j := by
            rintro rfl
            refine Set.disjoint_left.mp (hapart p hpiece) block.start_mem_span ?_
            rw [hindex, ← hstart]
            exact p.block.start_mem_span
          rw [mem_append, mem_cons] at hi
          rw [mem_append]
          exact hi.imp_right fun h => h.resolve_left hne
    · obtain ⟨list', ht', hm'⟩ := h.listed order' horder'
      refine ⟨list', ?_, fun i => ?_⟩
      · rw [hindex]
        refine threaded_unlink_other ht hlt h.heads horder heq ?_ ht'
        intro i hi hi'
        exact heq (h.order_of_heads ((hm' i).mp hi) ((hm i).mp hi'))
      · rw [hm' i]
        simp only [Heads, mem_cons, exists_eq_or_imp, halike.base]
        exact ⟨fun h => h.resolve_left fun h => heq h.2.1.symm, .inr⟩

lemma pop_eq (h : Layout F held ps) (horder : order ≤ maxOrder)
    (hhead : F.head order ≠ noFrame) : ∃ block, ⟨block, .free⟩ ∈ ps ∧ block.order = order ∧
      F.pop order = some (block.start, F.unlink block.start order) := by
  obtain ⟨list, ht, hm⟩ := h.listed order horder
  have hf := ht.head_mem hhead
  have hheads := (hm _).mp (mem_of_mem_head? hf)
  have hi := h.lt_of_heads hheads
  obtain ⟨⟨block, use⟩, hpiece, rfl, hsame, hstart⟩ := hheads
  dsimp only at hsame hstart
  refine ⟨block, hpiece, hsame, ?_⟩
  have hframe : block.start ∈ covered F := by
    exact ⟨by omega, by omega⟩
  have hprevious : (slot F block.start).previous = noFrame := by
    rw [hstart]
    cases list with
    | nil => exact absurd hf nofun
    | cons f list =>
      obtain rfl : f = F.head order := Option.some.inj hf
      exact ht.backed.1
  rw [unlink_eq hframe, Frames.pop, if_neg hhead, getElem?_eq F hi, ← hstart]
  have hback : block.start - F.base = F.head order := by omega
  simp only [hprevious, hback, if_pos]

end Ferrix.Frame.FreeLists

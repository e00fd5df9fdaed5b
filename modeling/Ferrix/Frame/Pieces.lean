import Ferrix.Foundations.AlignedBlocks
import Ferrix.Foundations.Links
import Ferrix.Frame.Buddy

/-!
The records that are not reserved spell a list of pieces: aligned blocks, free or allocated.
While an operation is under way it holds some frames back, and nothing is said about their
records.
-/

namespace Ferrix.Frame.Pieces

open Foundations AlignedBlocks Links Buddy Frames

inductive Use where
  | free
  | allocated
deriving DecidableEq

def Use.head : Use → State
  | .free => .free
  | .allocated => .allocated

def Use.tail : Use → State
  | .free => .freeTail
  | .allocated => .allocatedTail

structure Piece where
  block : Block
  use : Use
deriving DecidableEq

def covered (frames : Frames) : Set Nat :=
  Set.Ico frames.base (frames.base + frames.entries.length)

def slot (frames : Frames) (frame : Nat) : PageEntry := (frames.entry frame).getD .reserved

def nextOf (frames : Frames) (index : Nat) : Nat := (slot frames (frames.base + index)).next

def previousOf (frames : Frames) (index : Nat) : Nat :=
  (slot frames (frames.base + index)).previous

structure Marked (frames : Frames) (piece : Piece) : Prop where
  head : (slot frames piece.block.start).state = piece.use.head
  order : (slot frames piece.block.start).order = piece.block.order
  tail : ∀ frame ∈ piece.block.span, frame ≠ piece.block.start →
    (slot frames frame).state = piece.use.tail

/-- The free list of an order, as indices into the side array. -/
structure Threaded (frames : Frames) (order : Nat) (list : List Nat) : Prop where
  chain : Chain (nextOf frames) noFrame (frames.head order) list
  backed : Backed (previousOf frames) noFrame list
  nodup : list.Nodup

def Heads (frames : Frames) (order : Nat) (pieces : List Piece) (index : Nat) : Prop :=
  ∃ piece ∈ pieces, piece.use = .free ∧ piece.block.order = order ∧
    piece.block.start = frames.base + index

structure Layout (frames : Frames) (held : Set Nat) (pieces : List Piece) : Prop where
  short : frames.entries.length < noFrame
  heads : frames.heads.length = orders
  order_le : ∀ piece ∈ pieces, piece.block.order ≤ maxOrder
  inside : ∀ piece ∈ pieces, piece.block.span ⊆ covered frames
  held_inside : held ⊆ covered frames
  apart : pieces.Pairwise fun p q => Disjoint p.block.span q.block.span
  held_apart : ∀ piece ∈ pieces, Disjoint piece.block.span held
  marked : ∀ piece ∈ pieces, Marked frames piece
  reserved : ∀ frame ∈ covered frames, frame ∉ held →
    (∀ piece ∈ pieces, frame ∉ piece.block.span) → (slot frames frame).state = .reserved
  listed : ∀ order ≤ maxOrder, ∃ list, Threaded frames order list ∧
    ∀ index, index ∈ list ↔ Heads frames order pieces index

variable {F F' F'' : Frames} {held : Set Nat} {pieces pieces' : List Piece}
  {frame order index : Nat} {block : Block} {use : Use} {write : PageEntry → PageEntry}
variable {list : List Nat}

lemma index_of_mem (hf : frame ∈ covered F) : F.index frame = some (frame - F.base) := by
  obtain ⟨hbase, hstop⟩ := hf
  rw [index, if_pos ⟨hbase, by omega⟩]

lemma index_of_notMem (hf : frame ∉ covered F) : F.index frame = none := by
  refine if_neg fun hcovered => hf ⟨hcovered.1, ?_⟩
  omega

lemma entry_of_mem (hf : frame ∈ covered F) : F.entry frame = some (slot F frame) := by
  have he : F.entry frame = F.entries[frame - F.base]? := by
    rw [entry, index_of_mem hf]
    rfl
  obtain ⟨hbase, hstop⟩ := hf
  rw [slot, he, List.getElem?_eq_getElem (by omega)]
  rfl

lemma entry_of_notMem (hf : frame ∉ covered F) : F.entry frame = none := by
  rw [entry, index_of_notMem hf]
  rfl

lemma mem_of_entry {e : PageEntry} (he : F.entry frame = some e) :
    frame ∈ covered F ∧ slot F frame = e := by
  by_cases hf : frame ∈ covered F
  · rw [entry_of_mem hf] at he
    exact ⟨hf, Option.some.inj he⟩
  · rw [entry_of_notMem hf] at he
    exact absurd he nofun

lemma getElem?_eq (F : Frames) (hi : index < F.entries.length) :
    F.entries[index]? = some (slot F (F.base + index)) := by
  rw [← entry_of_mem ⟨by omega, by omega⟩, entry, index_of_mem ⟨by omega, by omega⟩,
    Nat.add_sub_cancel_left]
  rfl

@[simp]
lemma covered_modify : covered (F.modify index write) = covered F := by
  simp [covered, Frames.modify]

lemma slot_modify (hi : index < F.entries.length) : slot (F.modify index write) frame =
      if frame = F.base + index then write (slot F frame) else slot F frame := by
  by_cases hf : frame ∈ covered F
  · have hnew : frame ∈ covered (F.modify index write) := by rwa [covered_modify]
    obtain ⟨hbase, hstop⟩ := hf
    obtain ⟨o, rfl⟩ := Nat.exists_eq_add_of_le hbase
    have hoffset : o < (F.modify index write).entries.length := by
      simp only [Frames.modify, List.length_modify]
      omega
    have hlook := getElem?_eq (F.modify index write) hoffset
    simp only [Frames.modify, List.getElem?_modify] at hlook
    rw [getElem?_eq F (by omega)] at hlook
    simp only [Frames.modify, Nat.add_right_inj] at hlook ⊢
    by_cases hsame : index = o
    · simp_all
    · rw [if_neg (Ne.symm hsame)]
      simp_all
  · have hne : frame ≠ F.base + index := by
      rintro rfl
      exact hf ⟨by omega, by omega⟩
    rw [if_neg hne, slot, slot, entry_of_notMem hf, entry_of_notMem]
    rwa [covered_modify]

lemma Marked.congr {p : Piece}
    (hstate : ∀ frame ∈ p.block.span, (slot F' frame).state = (slot F frame).state)
    (horder : (slot F' p.block.start).order = (slot F p.block.start).order)
    (hmarked : Marked F p) : Marked F' p where
  head := (hstate _ p.block.start_mem_span).trans hmarked.head
  order := horder.trans hmarked.order
  tail := fun frame hf hne => (hstate frame hf).trans (hmarked.tail frame hf hne)

lemma Threaded.congr (hhead : F'.head order = F.head order)
    (hn : ∀ index ∈ list, nextOf F' index = nextOf F index)
    (hprevious : ∀ index ∈ list, previousOf F' index = previousOf F index)
    (ht : Threaded F order list) : Threaded F' order list where
  chain := hhead ▸ ht.chain.congr hn
  backed := ht.backed.congr hprevious
  nodup := ht.nodup

lemma Layout.perm (hperm : pieces.Perm pieces') (h : Layout F held pieces) :
    Layout F held pieces' where
  short := h.short
  heads := h.heads
  order_le := fun p hpiece => h.order_le p (hperm.mem_iff.mpr hpiece)
  inside := fun p hpiece => h.inside p (hperm.mem_iff.mpr hpiece)
  held_inside := h.held_inside
  apart := (hperm.pairwise_iff fun h => h.symm).mp h.apart
  held_apart := fun p hpiece => h.held_apart p (hperm.mem_iff.mpr hpiece)
  marked := fun p hpiece => h.marked p (hperm.mem_iff.mpr hpiece)
  reserved := fun frame hf hh hpieces => h.reserved frame hf hh
    fun p hpiece => hpieces p (hperm.mem_iff.mp hpiece)
  listed := by
    intro order horder
    obtain ⟨list, ht, hm⟩ := h.listed order horder
    refine ⟨list, ht, fun index => (hm index).trans ?_⟩
    simp only [Heads, hperm.mem_iff]

section

variable (h : Layout F held pieces)
include h

lemma Layout.eq_of_mem {p q : Piece} (hp : p ∈ pieces)
    (hq : q ∈ pieces) (hpframe : frame ∈ p.block.span) (hqframe : frame ∈ q.block.span) :
    p = q := by
  by_contra hne
  have hsymm : Std.Symm fun p q : Piece => Disjoint p.block.span q.block.span :=
    ⟨fun _ _ h => h.symm⟩
  exact Set.disjoint_left.mp (h.apart.forall hp hq hne) hpframe hqframe

omit h in
lemma Layout.exists_head (use : Use) (h : Layout F held pieces)
    (hf : frame ∈ covered F) (hh : frame ∉ held) (hstate : (slot F frame).state = use.head) :
    ∃ block, ⟨block, use⟩ ∈ pieces ∧ block.start = frame ∧ block.order = (slot F frame).order := by
  by_contra hnone
  have hreserved : (slot F frame).state = .reserved := by
    refine h.reserved frame hf hh fun p hpiece hspan => ?_
    have hmarked := h.marked p hpiece
    by_cases heq : frame = p.block.start
    · subst heq
      refine hnone ⟨p.block, ?_, rfl, hmarked.order.symm⟩
      have huse : p.use = use := by
        rw [hmarked.head] at hstate
        cases hpuse : p.use <;> cases use <;> simp_all [Use.head]
      rwa [← huse]
    · rw [hmarked.tail frame hspan heq] at hstate
      cases hpuse : p.use <;> cases use <;> simp_all [Use.head, Use.tail]
  rw [hstate] at hreserved
  cases use <;> simp [Use.head] at hreserved

lemma Layout.lt_of_heads (hheads : Heads F order pieces index) : index < F.entries.length := by
  obtain ⟨p, hpiece, -, -, hstart⟩ := hheads
  have hcovered := h.inside p hpiece p.block.start_mem_span
  rw [hstart] at hcovered
  have hstop := hcovered.2
  omega

lemma Layout.order_of_heads {order' : Nat}
    (hheads : Heads F order pieces index) (hheads' : Heads F order' pieces index) :
    order = order' := by
  obtain ⟨p, hp, -, rfl, hpstart⟩ := hheads
  obtain ⟨q, hq, -, rfl, hqstart⟩ := hheads'
  have hf := q.block.start_mem_span
  rw [hqstart, ← hpstart] at hf
  rw [h.eq_of_mem hp hq p.block.start_mem_span hf]

omit h in
lemma Threaded.head_mem (ht : Threaded F order list)
    (hhead : F.head order ≠ noFrame) : F.head order ∈ list.head? := by
  rw [ht.chain.cursor_eq] at hhead ⊢
  exact getD_mem hhead

lemma Layout.ne_of_heads (hf : frame ∈ held)
    (hheads : Heads F order pieces index) : F.base + index ≠ frame := by
  rintro rfl
  obtain ⟨p, hpiece, -, -, hstart⟩ := hheads
  exact Set.disjoint_left.mp (h.held_apart p hpiece) p.block.start_mem_span (hstart ▸ hf)

end

structure Alike (frames frames' : Frames) : Prop where
  base : frames'.base = frames.base
  length : frames'.entries.length = frames.entries.length
  free : frames'.free = frames.free
  managed : frames'.managed = frames.managed

lemma Alike.refl (F : Frames) : Alike F F := ⟨rfl, rfl, rfl, rfl⟩

lemma Alike.trans (hf : Alike F F') (hsecond : Alike F' F'') : Alike F F'' where
  base := hsecond.base.trans hf.base
  length := hsecond.length.trans hf.length
  free := hsecond.free.trans hf.free
  managed := hsecond.managed.trans hf.managed

lemma Alike.covered (halike : Alike F F') : covered F' = covered F := by
  rw [Pieces.covered, halike.base, halike.length]
  rfl

/-- Nothing but the records of some frames has changed. -/
structure Beside (frames frames' : Frames) (held : Set Nat) : Prop extends
    Alike frames frames' where
  heads : frames'.heads = frames.heads
  slot : ∀ frame ∉ held, slot frames' frame = slot frames frame

lemma Beside.refl (F : Frames) (held : Set Nat) : Beside F F held :=
  ⟨.refl F, rfl, fun _ _ => rfl⟩

lemma Beside.trans (hfirst : Beside F F' held)
    (hsecond : Beside F' F'' held) : Beside F F'' held where
  toAlike := hfirst.toAlike.trans hsecond.toAlike
  heads := hsecond.heads.trans hfirst.heads
  slot := fun frame hf => (hsecond.slot frame hf).trans (hfirst.slot frame hf)

lemma Beside.mono {held' : Set Nat} (hsub : held ⊆ held') (hbeside : Beside F F' held) :
    Beside F F' held' :=
  { hbeside with slot := fun frame hf => hbeside.slot frame fun h => hf (hsub h) }

lemma Layout.beside (h : Layout F held pieces)
    (hbeside : Beside F F' held) : Layout F' held pieces := by
  have hout : ∀ p ∈ pieces, ∀ frame ∈ p.block.span,
      slot F' frame = slot F frame := fun p hpiece frame hf =>
    hbeside.slot frame (Set.disjoint_left.mp (h.held_apart p hpiece) hf)
  refine ⟨hbeside.length ▸ h.short, hbeside.heads ▸ h.heads, h.order_le,
    hbeside.covered ▸ h.inside, hbeside.covered ▸ h.held_inside, h.apart,
    h.held_apart, ?_, ?_, ?_⟩
  · intro p hpiece
    refine (h.marked p hpiece).congr (fun frame hf => ?_) ?_
    · rw [hout p hpiece frame hf]
    · rw [hout p hpiece _ p.block.start_mem_span]
  · intro frame hf hh hpieces
    rw [hbeside.slot frame hh]
    exact h.reserved frame (hbeside.covered ▸ hf) hh hpieces
  · intro order horder
    obtain ⟨list, ht, hm⟩ := h.listed order horder
    have hsame : ∀ index ∈ list, slot F' (F'.base + index) = slot F (F.base + index) := by
      intro index hi
      obtain ⟨p, hpiece, -, -, hstart⟩ := (hm index).mp hi
      rw [hbeside.base, ← hstart, hout p hpiece _ p.block.start_mem_span]
    refine ⟨list, ht.congr ?_ ?_ ?_, ?_⟩
    · rw [head, hbeside.heads]
      rfl
    · intro index hi
      rw [nextOf, hsame index hi]
      rfl
    · intro index hi
      rw [previousOf, hsame index hi]
      rfl
    · intro index
      rw [hm index, Heads, Heads, hbeside.base]

lemma beside_modify (F : Frames) (write : PageEntry → PageEntry) (hi : index < F.entries.length) :
    Beside F (F.modify index write) {F.base + index} where
  base := rfl
  length := by simp [Frames.modify]
  free := rfl
  managed := rfl
  heads := rfl
  slot := by
    intro frame hf
    have hne : frame ≠ F.base + index := hf
    rw [slot_modify hi, if_neg hne]

lemma entryMut_eq (hf : frame ∈ covered F) :
    F.entryMut frame write = F.modify (frame - F.base) write := by
  rw [entryMut, index_of_mem hf]

lemma beside_entryMut (write : PageEntry → PageEntry) (hf : frame ∈ covered F) :
    Beside F (F.entryMut frame write) {frame} := by
  obtain ⟨hbase, hstop⟩ := id hf
  rw [entryMut_eq hf]
  have hi : frame - F.base < F.entries.length := by omega
  have hbeside := beside_modify F write hi
  rwa [Nat.add_sub_cancel' hbase] at hbeside

lemma slot_entryMut (write : PageEntry → PageEntry) (hf : frame ∈ covered F) :
    slot (F.entryMut frame write) frame = write (slot F frame) := by
  obtain ⟨hbase, hstop⟩ := id hf
  rw [entryMut_eq hf, slot_modify (by omega), if_pos (by omega)]

variable {count : Nat} {state : State}

lemma setStateRange_succ : F.setStateRange frame (count + 1) state =
    (F.setStateRange frame count state).entryMut (frame + count) fun e => { e with state } := by
  rw [setStateRange, List.range_succ, List.foldl_append]
  rfl

lemma setStateRange_spec (state : State) (hinside : Set.Ico frame (frame + count) ⊆ covered F) :
    Beside F (F.setStateRange frame count state) (Set.Ico frame (frame + count)) ∧
      ∀ f ∈ Set.Ico frame (frame + count), slot (F.setStateRange frame count state) f =
        { slot F f with state } := by
  induction count with
  | zero =>
    refine ⟨Beside.refl _ _, fun f hf => ?_⟩
    simp at hf
  | succ count ih =>
    have hless : Set.Ico frame (frame + count) ⊆ Set.Ico frame (frame + (count + 1)) :=
      Set.Ico_subset_Ico_right (by omega)
    obtain ⟨hbeside, hslot⟩ := ih (hless.trans hinside)
    have hl : frame + count ∈ covered (F.setStateRange frame count state) := by
      rw [hbeside.covered]
      exact hinside ⟨by omega, by omega⟩
    have hwritten := beside_entryMut (fun e => { e with state }) hl
    rw [setStateRange_succ]
    refine ⟨(hbeside.mono hless).trans (hwritten.mono ?_), ?_⟩
    · rintro f rfl
      exact ⟨by omega, by omega⟩
    · intro f hf
      by_cases heq : f = frame + count
      · subst heq
        rw [slot_entryMut _ hl, hbeside.slot]
        simp
      · rw [hwritten.slot f heq, hslot f ⟨hf.1, ?_⟩]
        have hstop := hf.2
        omega

end Ferrix.Frame.Pieces

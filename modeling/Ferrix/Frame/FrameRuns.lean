import Ferrix.Frame.FrameCalls
import Mathlib.Order.Interval.Finset.Nat

/-!
A run is any sequence of calls on a fresh allocator, with the blocks its callers hold kept beside
it.
-/

namespace Ferrix.Frame.FrameRuns

open Foundations.AlignedBlocks Buddy Pieces FrameCalls

inductive Call where
  | insertFree (start count : Nat)
  | allocate (order : Nat)
  | allocateBelow (order limit : Nat)
  | allocateRun (blocks : Nat)
  | claim (frame : Nat)
  | split (frame order : Nat)
  | deallocate (frame order : Nat)
  | share (frame : Nat)
  | release (frame : Nat)
  | setOwner (frame owner : Nat)
deriving DecidableEq

structure World where
  frames : Frames
  out : List (Nat × Nat)
deriving DecidableEq

def World.hand (world : World) (result : Option Nat × Frames)
    (added : Nat → List (Nat × Nat)) : World :=
  match result with
  | (none, frames) => ⟨frames, world.out⟩
  | (some frame, frames) => ⟨frames, added frame ++ world.out⟩

def step (world : World) : Call → World
  | .insertFree start count => { world with frames := world.frames.insertFree start count }
  | .allocate order => world.hand (world.frames.allocate order) fun frame => [(frame, order)]
  | .allocateBelow order limit =>
    world.hand (world.frames.allocateBelow order limit) fun frame => [(frame, order)]
  | .allocateRun blocks =>
    world.hand (world.frames.allocateRun blocks) fun start =>
      (List.range blocks).map fun k => (start + k * 2 ^ maxOrder, maxOrder)
  | .claim frame => world.hand (world.frames.claim frame) fun frame => [(frame, 0)]
  | .split frame order =>
    match world.frames.split frame order with
    | (.ok (), frames) =>
      ⟨frames, (List.range (2 ^ order)).map (fun offset => (frame + offset, 0)) ++
        world.out.erase (frame, order)⟩
    | (.error _, frames) => ⟨frames, world.out⟩
  | .deallocate frame order =>
    match world.frames.deallocate frame order with
    | (.ok (), frames) => ⟨frames, world.out.erase (frame, order)⟩
    | (.error _, frames) => ⟨frames, world.out⟩
  | .share frame => { world with frames := (world.frames.share frame).2 }
  | .release frame =>
    match world.frames.release frame with
    | (.ok .freed, frames) => ⟨frames, world.out.erase (frame, 0)⟩
    | (_, frames) => ⟨frames, world.out⟩
  | .setOwner frame owner => { world with frames := (world.frames.setOwner frame owner).2 }

structure Kept (world : World) (pieces : List Piece) : Prop where
  sound : Sound world.frames pieces
  out : world.out.Perm (handedOut pieces)

variable {world : World} {pieces : List Piece} {F : Frames}

lemma kept_hand {result : Option Nat × Frames} {added : Nat → List (Nat × Nat)}
    (hkept : Kept world pieces) (hyields : Yields world.frames pieces added result) :
    ∃ pieces', Kept (world.hand result added) pieces' := by
  rcases hyields with rfl | ⟨f, pieces', hf, h, hout⟩
  · exact ⟨pieces, hkept.sound, hkept.out⟩
  · obtain ⟨b, F⟩ := result
    obtain rfl : b = some f := hf
    exact ⟨pieces', h, (hkept.out.append_left _).trans hout.symm⟩

lemma out_erase {b : Nat × Nat} {others : List (Nat × Nat)} (hkept : Kept world pieces)
    (hout : (handedOut pieces).Perm (b :: others)) : (world.out.erase b).Perm others := by
  have herase := (hkept.out.trans hout).erase b
  rwa [List.erase_cons_head] at herase

lemma kept_step (c : Call) (hkept : Kept world pieces) :
    ∃ pieces', Kept (step world c) pieces' := by
  cases c with
  | insertFree a n =>
    obtain ⟨pieces', h, hout⟩ := insertFree_spec hkept.sound
    exact ⟨pieces', h, hout ▸ hkept.out⟩
  | allocate k => exact kept_hand hkept (allocate_spec hkept.sound)
  | allocateBelow k L => exact kept_hand hkept (allocateBelow_spec hkept.sound)
  | allocateRun blocks => exact kept_hand hkept (allocateRun_spec hkept.sound)
  | claim f => exact kept_hand hkept (claim_spec hkept.sound)
  | split f k =>
    rw [step]
    rcases split_spec hkept.sound with ⟨e, heq⟩ | ⟨hok, pieces', others, h, hout, hout'⟩
    · rw [heq]
      exact ⟨pieces, hkept.sound, hkept.out⟩
    · rcases hresult : world.frames.split f k with ⟨b, F⟩
      rw [hresult] at hok h
      obtain rfl : b = .ok () := hok
      exact ⟨pieces', h, ((out_erase hkept hout).append_left _).trans hout'.symm⟩
  | deallocate f k =>
    rw [step]
    rcases deallocate_spec f k hkept.sound with
      ⟨e, heq⟩ | ⟨hok, pieces', h, hout⟩
    · rw [heq]
      exact ⟨pieces, hkept.sound, hkept.out⟩
    · rcases hresult : world.frames.deallocate f k with ⟨b, F⟩
      rw [hresult] at hok h
      obtain rfl : b = .ok () := hok
      exact ⟨pieces', h, out_erase hkept hout⟩
  | share f => exact ⟨pieces, share_spec hkept.sound, hkept.out⟩
  | release f =>
    rw [step]
    rcases hresult : world.frames.release f with ⟨b, F⟩
    rcases release_spec f hkept.sound with
      ⟨hok, h⟩ | ⟨hok, pieces', h, hout⟩
    · rw [hresult] at hok h
      split
      · rename_i hfreed
        exact absurd (Prod.mk.inj hfreed).1 hok
      · rename_i ho
        obtain ⟨-, rfl⟩ := Prod.mk.inj ho
        exact ⟨pieces, h, hkept.out⟩
    · rw [hresult] at hok h
      obtain rfl : b = .ok .freed := hok
      exact ⟨pieces', h, out_erase hkept hout⟩
  | setOwner f o => exact ⟨pieces, setOwner_spec hkept.sound, hkept.out⟩

lemma kept_run (calls : List Call) (hkept : Kept world pieces) :
    ∃ pieces', Kept (calls.foldl step world) pieces' := by
  induction calls generalizing world pieces with
  | nil => exact ⟨pieces, hkept⟩
  | cons c calls ih =>
    obtain ⟨pieces', hkept'⟩ := kept_step c hkept
    exact ih hkept'

section

variable {F : Frames} {use : Use}

def framesIn (frames : Frames) (use : Use) : Finset Nat :=
  (Finset.Ico frames.base (frames.base + frames.entries.length)).filter fun frame =>
    (slot frames frame).state = use.head ∨ (slot frames frame).state = use.tail

def spanOf (use : Use) : List Piece → Finset Nat
  | [] => ∅
  | piece :: pieces =>
    if piece.use = use then
      Finset.Ico piece.block.start (piece.block.start + 2 ^ piece.block.order) ∪
        spanOf use pieces
    else spanOf use pieces

lemma mem_spanOf {frame : Nat} :
    frame ∈ spanOf use pieces ↔ ∃ p ∈ pieces, p.use = use ∧ frame ∈ p.block.span := by
  induction pieces with
  | nil => simp [spanOf]
  | cons p pieces ih =>
    rw [spanOf]
    split_ifs with huse
    · simp [ih, huse, Block.mem_span]
    · simp [ih, huse]

lemma card_spanOf (hapart : pieces.Pairwise fun p q => Disjoint p.block.span q.block.span) :
    (spanOf use pieces).card = sizeOf use pieces := by
  induction pieces with
  | nil => rfl
  | cons piece pieces ih =>
    obtain ⟨hf, hr⟩ := List.pairwise_cons.mp hapart
    rw [spanOf, sizeOf_cons]
    split_ifs with huse
    · rw [Finset.card_union_of_disjoint, ih hr, Nat.card_Ico, Nat.add_sub_cancel_left]
      rw [Finset.disjoint_left]
      intro f hm hlater
      obtain ⟨later, hpiece, -, hspan⟩ := mem_spanOf.mp hlater
      exact Set.disjoint_left.mp (hf later hpiece) (Finset.mem_Ico.mp hm) hspan
    · rw [ih hr, Nat.zero_add]

lemma framesIn_eq (h : Layout F ∅ pieces) (use : Use) : framesIn F use = spanOf use pieces := by
  ext f
  rw [mem_spanOf, framesIn, Finset.mem_filter, Finset.mem_Ico]
  constructor
  · rintro ⟨hcovered, hstate⟩
    by_contra hnone
    have hreserved : (slot F f).state = .reserved := by
      refine h.reserved f hcovered (Set.notMem_empty _) fun p hpiece hspan => ?_
      refine hnone ⟨p, hpiece, ?_, hspan⟩
      have hmarked := h.marked p hpiece
      by_cases heq : f = p.block.start
      · rw [heq, hmarked.head] at hstate
        cases hpuse : p.use <;> cases use <;> simp_all [Use.head, Use.tail]
      · rw [hmarked.tail f hspan heq] at hstate
        cases hpuse : p.use <;> cases use <;> simp_all [Use.head, Use.tail]
    rw [hreserved] at hstate
    cases use <;> simp [Use.head, Use.tail] at hstate
  · rintro ⟨p, hpiece, rfl, hspan⟩
    have hmarked := h.marked p hpiece
    refine ⟨h.inside p hpiece hspan, ?_⟩
    by_cases heq : f = p.block.start
    · exact .inl (heq ▸ hmarked.head)
    · exact .inr (hmarked.tail f hspan heq)

end

/-- The frames that are not reserved are partitioned into aligned blocks, each with one head
that carries its order and with tails for the rest. -/
structure Partition (frames : Frames) (pieces : List Piece) : Prop where
  order_le : ∀ piece ∈ pieces, piece.block.order ≤ maxOrder
  inside : ∀ piece ∈ pieces, piece.block.span ⊆ covered frames
  apart : pieces.Pairwise fun p q => Disjoint p.block.span q.block.span
  marked : ∀ piece ∈ pieces, Marked frames piece
  reserved : ∀ frame ∈ covered frames,
    (slot frames frame).state = .reserved ↔ ∀ piece ∈ pieces, frame ∉ piece.block.span

/-- A free list visits every free head of its order once, forwards by `next` from the head of
the list and backwards by `previous`, and ends. -/
def Visits (frames : Frames) (order : Nat) (list : List Nat) : Prop :=
  Threaded frames order list ∧ ∀ index, index ∈ list ↔
    index < frames.entries.length ∧ (slot frames (frames.base + index)).state = .free ∧
      (slot frames (frames.base + index)).order = order

lemma partition_of_layout (h : Layout F ∅ pieces) : Partition F pieces where
  order_le := h.order_le
  inside := h.inside
  apart := h.apart
  marked := h.marked
  reserved := by
    intro f hf
    constructor
    · intro hstate p hpiece hspan
      have hin : f ∈ framesIn F p.use := by
        rw [framesIn_eq h]
        exact mem_spanOf.mpr ⟨p, hpiece, rfl, hspan⟩
      have hmarks := (Finset.mem_filter.mp hin).2
      rw [hstate] at hmarks
      cases huse : p.use <;> simp [huse, Use.head, Use.tail] at hmarks
    · exact h.reserved f hf (Set.notMem_empty _)

lemma exists_visits (h : Layout F ∅ pieces) {k : Nat}
    (horder : k ≤ maxOrder) : ∃ list, Visits F k list := by
  obtain ⟨list, ht, hm⟩ := h.listed k horder
  refine ⟨list, ht, fun i => (hm i).trans ⟨fun hheads => ?_, ?_⟩⟩
  · refine ⟨h.lt_of_heads hheads, ?_⟩
    obtain ⟨p, hpiece, huse, rfl, hstart⟩ := hheads
    have hmarked := h.marked p hpiece
    rw [← hstart, hmarked.head, hmarked.order, huse]
    exact ⟨rfl, rfl⟩
  · rintro ⟨hi, hstate, rfl⟩
    have hcovered : F.base + i ∈ covered F := ⟨by omega, by omega⟩
    obtain ⟨b, hpiece, hstart, hsame⟩ :=
      h.exists_head .free hcovered (Set.notMem_empty _) hstate
    exact ⟨_, hpiece, rfl, hsame, hstart⟩

lemma pairwise_handedOut
    (hapart : pieces.Pairwise fun p q => Disjoint p.block.span q.block.span) :
    (handedOut pieces).Pairwise fun a b =>
      Disjoint (Set.Ico a.1 (a.1 + 2 ^ a.2)) (Set.Ico b.1 (b.1 + 2 ^ b.2)) := by
  refine List.pairwise_filterMap.mpr (hapart.imp fun hdisjoint a ha b hb => ?_)
  rename_i p q
  obtain ⟨_, _ | _⟩ := p
  · exact absurd ha (by simp)
  obtain ⟨_, _ | _⟩ := q
  · exact absurd hb (by simp)
  obtain rfl := Option.some.inj ha
  obtain rfl := Option.some.inj hb
  exact hdisjoint

/-- In every state any run of calls reaches, the frames that are not reserved are partitioned
into blocks, every free list visits the free heads of its order, the counters are the numbers
of frames in free and in allocated blocks, and the blocks the callers hold are the allocated
ones, no two of which share a frame. -/
theorem frames_partitioned (entries : List PageEntry) (base : Nat)
    (hshort : entries.length < noFrame) (calls : List Call) :
    let world := calls.foldl step ⟨Frames.new entries base, []⟩
    ∃ pieces, Partition world.frames pieces ∧
      (∀ order ≤ maxOrder, ∃ list, Visits world.frames order list) ∧
      world.frames.free = (framesIn world.frames .free).card ∧
      world.frames.managed = world.frames.free + (framesIn world.frames .allocated).card ∧
      world.out.Perm (handedOut pieces) ∧
      world.out.Pairwise fun a b =>
        Disjoint (Set.Ico a.1 (a.1 + 2 ^ a.2)) (Set.Ico b.1 (b.1 + 2 ^ b.2)) := by
  have hstart : Kept ⟨Frames.new entries base, []⟩ [] := ⟨sound_new hshort, .refl _⟩
  obtain ⟨pieces, hkept⟩ := kept_run calls hstart
  have hlayout := hkept.sound.layout
  have hcount : ∀ use, (framesIn (calls.foldl step ⟨Frames.new entries base, []⟩).frames use).card =
      sizeOf use pieces := fun use => by
    rw [framesIn_eq hlayout, card_spanOf hlayout.apart]
  refine ⟨pieces, partition_of_layout hlayout, fun order horder => exists_visits hlayout horder,
    ?_, ?_, hkept.out, ?_⟩
  · rw [hcount, hkept.sound.free]
  · rw [hcount, hkept.sound.managed, hkept.sound.free]
  · exact (hkept.out.pairwise_iff fun h => h.symm).mpr (pairwise_handedOut hlayout.apart)

theorem frames_partitioned_sixteen :
    let world := [Call.insertFree 256 16, .allocate 2, .allocate 0, .deallocate 256 2].foldl step
      ⟨Frames.new (List.replicate 16 .reserved) 256, []⟩
    world.out = [(260, 0)] ∧ world.frames.free = 15 ∧ world.frames.managed = 16 ∧
      ∃ pieces, Partition world.frames pieces ∧ world.out.Perm (handedOut pieces) := by
  obtain ⟨pieces, hpartition, -, -, -, hout, -⟩ := frames_partitioned
    (List.replicate 16 .reserved) 256 (by decide)
    [.insertFree 256 16, .allocate 2, .allocate 0, .deallocate 256 2]
  exact ⟨by decide +kernel, by decide +kernel, by decide +kernel, pieces, hpartition, hout⟩

end Ferrix.Frame.FrameRuns

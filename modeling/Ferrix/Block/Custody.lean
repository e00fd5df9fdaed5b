import Ferrix.Block.RequestQueue
import Ferrix.Foundations.OrderedBlocks

/-!
A queue beside the history of what it accepted, answered and put back.  The parts it holds stand
in a row of blocks, in the order in which barriers let them go.
-/

namespace Ferrix.Block.Custody

open Foundations Words SortedMaps SortedMap
open Foundations.OrderedBlocks Requests Epochs Epochs.Epoch RequestQueue List IoUnit

/-- A queue and what happened to it so far, each list oldest first. -/
structure World where
  queue : Queue
  accepted : List Request
  answered : List Part
  returned : List Part
  tokens : List Nat

def held (epoch : Epoch) : List (List Part) := epoch.barriers.map IoUnit.parts

def blocks (epoch : Epoch) : List (List Part) := epoch.loose :: held epoch

def flying (flights : SortedMap Nat InFlight) (barrier : Bool) : List Part :=
  (flights.entries.filter fun entry => entry.2.barrier = barrier).flatMap
    fun entry => entry.2.unit.parts

/-- What is on the device belongs to the oldest epoch: it goes with the epoch's units, or between
them and its barriers. -/
def board (loose barrier : List Part) : List (List Part) → List (List Part)
  | [] => []
  | block :: rest => (loose ++ block) :: barrier :: rest

def line (queue : Queue) : List (List Part) :=
  board (flying queue.inFlight false) (flying queue.inFlight true) (queue.epochs.flatMap blocks)

def units (queue : Queue) : List IoUnit :=
  (queue.epochs.flatMap fun epoch => epoch.units.entries.map Prod.snd ++ epoch.barriers) ++
    queue.inFlight.entries.map fun entry => entry.2.unit

def Carries (accepted : List Request) (unit : IoUnit) (part : Part) : Prop :=
  ∃ request, accepted[part.seq]? = some request ∧ request.id = part.id ∧
    request.sector = part.sector ∧ request.count = part.count ∧ request.flags = part.flags ∧
    request.op = unit.op

/-- A unit of accepted requests; those that were put back travel alone. -/
structure Good (limits : Limits) (accepted : List Request) (returned : List Part) (unit : IoUnit) :
    Prop where
  shaped : Shaped limits unit
  carries : ∀ part ∈ unit.parts, Carries accepted unit part
  alone : ∀ part ∈ unit.parts, part.seq ∈ returned.map Part.seq → unit.isolated = true

/-- A good unit that is a barrier, or one that is none. -/
abbrev Fit (limits : Limits) (accepted : List Request) (returned : List Part) (barrier : Bool)
    (unit : IoUnit) : Prop :=
  Good limits accepted returned unit ∧ unit.isBarrier = barrier

/-- The row of epochs: the last one is open, and only the first has work on the device. -/
structure Row (queue : Queue) : Prop where
  bare : ∃ init last, queue.epochs = init ++ [last] ∧ last.barriers = []
  oldest : ∀ token flight, queue.inFlight.get? token = some flight → flight.epoch = queue.firstEpoch
  counted : ∃ rest, queue.epochs.map Epoch.inFlight = queue.inFlight.size :: rest ∧
    ∀ n ∈ rest, n = 0
  alone : ∀ token flight, queue.inFlight.get? token = some flight → flight.barrier = true →
    queue.inFlight.size = 1 ∧ 2 ≤ queue.epochs.length ∧
      ∀ front ∈ queue.epochs.head?, front.units.entries = []

/-- The parts in the queue's hands and those answered are the accepted requests, each once. -/
structure Books (world : World) (parts : List Part) : Prop where
  once : ((parts ++ world.answered).map Part.seq).Perm (List.range world.accepted.length)
  ids : (parts.map Part.id).Nodup
  outstanding : world.queue.outstanding = (parts.map Part.id).toFinset
  nextSeq : world.queue.nextSeq = world.accepted.length % 2 ^ 64
  room : world.queue.outstanding.card ≤ world.queue.config.maxRequests
  returned : ∀ part ∈ world.returned, part.seq < world.accepted.length

structure Stores (world : World) (limits : Limits) : Prop where
  loose : ∃ keys ≤ world.accepted.length + world.returned.length,
    world.queue.nextKey = keys % 2 ^ 64 ∧ ∀ epoch ∈ world.queue.epochs,
      epoch.Stocked (fun unit => Good limits world.accepted world.returned unit ∧
        unit.isBarrier = false) keys
  barriers : ∀ epoch ∈ world.queue.epochs, ∀ unit ∈ epoch.barriers,
    Good limits world.accepted world.returned unit ∧ unit.isBarrier = true
  flights : ∀ token flight, world.queue.inFlight.get? token = some flight →
    Good limits world.accepted world.returned flight.unit ∧
      flight.unit.isBarrier = flight.barrier ∧ token ∈ world.tokens

structure Sound (limits : Limits) (config : Config) (world : World) : Prop where
  sameLimits : world.queue.limits = limits
  sameConfig : world.queue.config = config
  row : Row world.queue
  ascending : Ascend Part.seq (line world.queue)
  stores : Stores world limits
  books : Books world (line world.queue).flatten
  queued : world.queue.queued = (world.queue.epochs.flatMap blocks).flatten.length
  depth : world.queue.inFlight.size ≤ limits.queueDepth
  issued : world.tokens.Nodup ∧ ∀ token ∈ world.tokens, token < world.queue.nextToken

variable {part : Part}

section

variable {queue : Queue} {flights : SortedMap Nat InFlight} {token : Nat}
  {loose barrier : List Part} {l r : List (List Part)}

lemma board_append (hleft : l ≠ []) :
    board loose barrier (l ++ r) = board loose barrier l ++ r := by
  cases l with
  | nil => exact absurd rfl hleft
  | cons b l => rfl

lemma board_flatten_perm (hleft : l ≠ []) :
    (board loose barrier l).flatten.Perm (loose ++ barrier ++ l.flatten) := by
  cases l with
  | nil => exact absurd rfl hleft
  | cons b l =>
    rw [board, flatten_cons, flatten_cons, flatten_cons, append_assoc, append_assoc]
    refine List.Perm.append_left _ ?_
    rw [← append_assoc, ← append_assoc]
    exact perm_append_comm.append_right _

lemma ascend_board_nil : Ascend Part.seq (board [] [] l) ↔ Ascend Part.seq l := by
  cases l with
  | nil => rfl
  | cons b l =>
    rw [board, ascend_cons, ascend_cons, ascend_cons]
    simp

lemma flying_perm (flight : InFlight) {rest : SortedMap Nat InFlight}
    (hperm : flights.entries.Perm ((token, flight) :: rest.entries)) (barrier : Bool) :
    (flying flights barrier).Perm
      ((if flight.barrier = barrier then flight.unit.parts else []) ++ flying rest barrier) := by
  rw [flying, flying]
  refine ((hperm.filter _).flatMap_right _).trans ?_
  rw [filter_cons]
  split_ifs with hkind hkind' hkind'
  · rfl
  · simp [hkind'] at hkind
  · simp [hkind'] at hkind
  · rfl

lemma mem_flying {barrier : Bool} : part ∈ flying flights barrier ↔
    ∃ token f, flights.get? token = some f ∧ f.barrier = barrier ∧ part ∈ f.unit.parts := by
  rw [flying, mem_flatMap]
  constructor
  · rintro ⟨⟨token, f⟩, he, hpart⟩
    obtain ⟨he, hbarrier⟩ := mem_filter.mp he
    exact ⟨token, f, get?_eq_some.mpr he, by simpa using hbarrier, hpart⟩
  · rintro ⟨token, f, hf, hbarrier, hpart⟩
    exact ⟨(token, f), mem_filter.mpr ⟨get?_eq_some.mp hf, by simpa using hbarrier⟩, hpart⟩

lemma flying_eq_nil (hsize : flights.size = 0) (barrier : Bool) :
    flying flights barrier = [] := by
  rw [flying, length_eq_zero_iff.mp hsize]
  rfl

lemma flying_length (flights : SortedMap Nat InFlight) :
    (flying flights false ++ flying flights true).Perm
      (flights.entries.flatMap fun e => e.2.unit.parts) := by
  rw [flying, flying, ← flatMap_append]
  refine List.Perm.flatMap_right _ ?_
  have h := filter_append_perm (fun e : Nat × InFlight => decide (e.2.barrier = false))
    flights.entries
  refine List.Perm.trans (List.Perm.append_left _ (List.Perm.of_eq ?_)) h
  refine filter_congr fun e _ => ?_
  cases e.2.barrier <;> rfl

lemma flatten_blocks (epochs : List Epoch) : (epochs.flatMap blocks).flatten =
    (epochs.flatMap fun e => e.units.entries.map Prod.snd ++ e.barriers).flatMap parts := by
  induction epochs with
  | nil => rfl
  | cons e r ih =>
    rw [flatMap_cons, flatten_append, flatMap_cons, flatMap_append, ih]
    refine congrArg (· ++ _) ?_
    rw [blocks, flatten_cons, flatMap_append, held, Epoch.loose, flatMap_map, ← flatMap_def]

lemma flatMap_blocks_ne_nil {epochs : List Epoch} (h : epochs ≠ []) :
    epochs.flatMap blocks ≠ [] := by
  cases epochs with
  | nil => exact absurd rfl h
  | cons f epochs => simp [blocks]

lemma Row.exists_front (hrow : Row queue) : ∃ l rest, queue.epochs = l :: rest := by
  obtain ⟨init, last, h, -⟩ := hrow.bare
  exact exists_cons_of_ne_nil (by rw [h]; simp)

lemma Row.renew {queue' : Queue} {l l' : Epoch} {rest : List Epoch} (hrow : Row queue)
    (h : queue.epochs = l :: rest) (hqueue : queue'.epochs = l' :: rest)
    (hn : l'.inFlight = queue'.inFlight.size) (hbare : rest = [] → l'.barriers = [])
    (holdest : ∀ token f, queue'.inFlight.get? token = some f → f.epoch = queue'.firstEpoch)
    (halone : ∀ token f, queue'.inFlight.get? token = some f → f.barrier = true →
      queue'.inFlight.size = 1 ∧ rest ≠ [] ∧ l'.units.entries = []) : Row queue' := by
  refine ⟨?_, holdest, ?_, fun token f hf hkind => ?_⟩
  · obtain ⟨init, last, hl, hlastBare⟩ := hrow.bare
    rw [h] at hl
    rw [hqueue]
    cases init with
    | nil =>
      obtain ⟨-, rfl⟩ := List.cons.inj hl
      exact ⟨[], l', rfl, hbare rfl⟩
    | cons first init =>
      obtain ⟨-, rfl⟩ := List.cons.inj hl
      exact ⟨l' :: init, last, rfl, hlastBare⟩
  · obtain ⟨counts, hcounts, hzero⟩ := hrow.counted
    rw [h, map_cons, List.cons.injEq] at hcounts
    exact ⟨counts, by rw [hqueue, map_cons, hcounts.2, hn], hzero⟩
  · obtain ⟨hsize, hr, hunits⟩ := halone token f hf hkind
    have := length_pos_iff.mpr hr
    rw [hqueue, length_cons]
    exact ⟨hsize, by omega, by simp [hunits]⟩

lemma Row.blocks_ne_nil (hrow : Row queue) : queue.epochs.flatMap blocks ≠ [] := by
  obtain ⟨l, r, h⟩ := hrow.exists_front
  exact flatMap_blocks_ne_nil (by simp [h])

lemma Row.bare_of_single (hrow : Row queue) {l : Epoch} (h : queue.epochs = [l]) :
    l.barriers = [] := by
  obtain ⟨init, last, hl, hbare⟩ := hrow.bare
  rw [h] at hl
  cases init with
  | nil => exact (List.cons.inj hl).1 ▸ hbare
  | cons f init => simp at hl

lemma line_flatten_perm (h : queue.epochs ≠ []) :
    (line queue).flatten.Perm ((units queue).flatMap parts) := by
  refine (board_flatten_perm (flatMap_blocks_ne_nil h)).trans ?_
  rw [units, flatMap_append]
  refine perm_append_comm.trans (List.Perm.append ?_ ?_)
  · exact List.Perm.of_eq (flatten_blocks queue.epochs)
  · rw [flatMap_map]
    exact flying_length queue.inFlight

end

section

variable {limits : Limits} {accepted : List Request} {returned : List Part} {unit : IoUnit}

lemma accepted_append {i : Nat} {found : Request} (hfound : accepted[i]? = some found)
    (request : Request) : (accepted ++ [request])[i]? = some found := by
  rw [List.getElem?_append_left (List.getElem?_eq_some_iff.mp hfound).1]
  exact hfound

lemma shaped_single {op : Op} (isolated : Bool)
    (hflush : op = .flush → part.sector = 0 ∧ part.count = 0)
    (hcapacity : op ≠ .flush → part.sector + part.count ≤ limits.capacity)
    (hsectors : part.count ≤ limits.maxSectors) : Shaped limits (.single op part isolated) := by
  refine ⟨by simp [single], by simp [single], ⟨[part], List.Perm.refl _, rfl, rfl⟩,
    by simp [single], fun h => ?_, hcapacity, hsectors, limits.maxParts_pos, fun _ => rfl⟩
  exact ⟨(hflush h).1, (hflush h).2, rfl⟩

variable (hgood : Good limits accepted returned unit)
include hgood

lemma Good.accept (request : Request) : Good limits (accepted ++ [request]) returned unit := by
  refine ⟨hgood.shaped, fun part hpart => ?_, hgood.alone⟩
  obtain ⟨found, hfound, hsame⟩ := hgood.carries part hpart
  exact ⟨found, accepted_append hfound request, hsame⟩

lemma Good.return {parts : List Part} (ho : ∀ a ∈ unit.parts, ∀ b ∈ parts, a.seq ≠ b.seq) :
    Good limits accepted (returned ++ parts) unit := by
  refine ⟨hgood.shaped, hgood.carries, fun part hpart hm => ?_⟩
  rw [map_append, mem_append] at hm
  rcases hm with hm | hm
  · exact hgood.alone part hpart hm
  · obtain ⟨o, ho', heq⟩ := mem_map.mp hm
    exact absurd heq.symm (ho part hpart o ho')

lemma Good.join {r : IoUnit} (hright : Good limits accepted returned r)
    (hjoin : unit.canJoin r limits = true) (hne : ∀ a ∈ unit.parts, ∀ b ∈ r.parts, a.seq ≠ b.seq) :
    Good limits accepted returned (unit.join r) := by
  obtain ⟨hop, -, hisolated, hisolated', -⟩ := (canJoin_iff hgood.shaped).mp hjoin
  have hparts : ∀ part ∈ (unit.join r).parts, part ∈ unit.parts ∨ part ∈ r.parts :=
    fun part hpart => mem_append.mp ((join_parts_perm unit r).mem_iff.mp hpart)
  refine ⟨hgood.shaped.join hright.shaped hjoin hne, fun part hpart => ?_, fun part hpart hm => ?_⟩
  · rcases hparts part hpart with h | h
    · exact hgood.carries part h
    · obtain ⟨request, hg, h1, h2, h3, h4, h5⟩ := hright.carries part h
      exact ⟨request, hg, h1, h2, h3, h4, h5.trans hop.symm⟩
  · rcases hparts part hpart with h | h
    · exact hgood.alone part h hm
    · exact absurd (hright.alone part h hm) (by simp [hisolated'])

lemma Good.alone_eq (hpart : part ∈ unit.parts) (hreturned : part.seq ∈ returned.map Part.seq) :
    unit.parts = [part] := by
  obtain ⟨only, honly⟩ := length_eq_one_iff.mp
    (hgood.shaped.isolated (hgood.alone part hpart hreturned))
  rw [honly, mem_singleton] at hpart
  rw [honly, hpart]

omit hgood in
lemma good_joinable : Joinable limits (Fit limits accepted returned false) :=
  fun _ _ hu hright hjoin hne => ⟨hu.1.join hright.1 hjoin hne, hu.2⟩

lemma Good.single (hpart : part ∈ unit.parts) (others : List Part) :
    Good limits accepted others (.single unit.op part true) := by
  have hshaped := hgood.shaped
  obtain ⟨laid, hperm, hchained⟩ := hshaped.tiled
  have hspan : ∀ {laid : List Part} {a stop : Nat}, Chained a laid stop → part ∈ laid →
      a ≤ part.sector ∧ part.sector + part.count ≤ stop := by
    intro laid
    induction laid with
    | nil =>
      intro _ _ _ hm
      cases hm
    | cons f laid ih =>
      rintro a stop ⟨hf, hr⟩ hm
      have hle : ∀ {laid : List Part} {a stop : Nat}, Chained a laid stop → a ≤ stop := by
        intro laid
        induction laid with
        | nil => exact fun h => le_of_eq h
        | cons f laid ih => exact fun h => le_trans (Nat.le_add_right _ _) (ih h.2)
      rcases mem_cons.mp hm with rfl | hm
      · exact ⟨hf.ge, hf ▸ hle hr⟩
      · have := ih hr hm
        exact ⟨by omega, this.2⟩
  have hrange := hspan hchained (hperm.mem_iff.mpr hpart)
  refine ⟨shaped_single true (fun h => ?_) (fun h => ?_) ?_, ?_, fun _ _ _ => rfl⟩
  · obtain ⟨hsector, hn, -⟩ := hshaped.flush h
    omega
  · have := hshaped.capacity h
    omega
  · have := hshaped.sectors
    omega
  · intro others ho
    rw [IoUnit.single, mem_singleton] at ho
    subst ho
    exact hgood.carries _ hpart

lemma isBarrier_single (hpart : part ∈ unit.parts) (isolated : Bool) :
    (single unit.op part isolated).isBarrier = unit.isBarrier := by
  rw [isBarrier, isBarrier, single, hgood.shaped.fua part hpart]

end

variable {w : World} {parts parts' : List Part} {queue : Queue}

section

variable (hbooks : Books w parts)
include hbooks

lemma Books.perm (hperm : parts'.Perm parts) : Books w parts' :=
  { hbooks with
    once := ((hperm.append_right _).map _).trans hbooks.once
    ids := (hperm.map _).nodup_iff.mpr hbooks.ids
    outstanding := hbooks.outstanding.trans (toFinset_eq_of_perm _ _ (hperm.map _).symm) }

lemma Books.nodup : (parts.map Part.seq).Nodup := by
  have h := hbooks.once.nodup_iff.mpr nodup_range
  rw [map_append] at h
  exact (nodup_append'.mp h).1

lemma Books.seq_lt (hpart : part ∈ parts) : part.seq < w.accepted.length := by
  refine mem_range.mp (hbooks.once.mem_iff.mp (mem_map_of_mem ?_))
  exact mem_append_left _ hpart

lemma Books.card : w.queue.outstanding.card = parts.length := by
  rw [hbooks.outstanding, toFinset_card_of_nodup hbooks.ids, length_map]

omit hbooks in
lemma Books.distinct {l r : List Part} (hbooks : Books w (l ++ r)) :
    ∀ a ∈ l, ∀ b ∈ r, a.seq ≠ b.seq := by
  intro a ha b hb heq
  have h := hbooks.nodup
  rw [map_append, nodup_append'] at h
  exact h.2.2 (mem_map_of_mem ha) (heq ▸ mem_map_of_mem hb)

lemma Books.accept {request : Request} (hseq : part.seq = w.accepted.length)
    (hid : part.id = request.id) (hfresh : request.id ∉ w.queue.outstanding)
    (hroom : w.queue.outstanding.card < w.queue.config.maxRequests)
    (houtstanding : queue.outstanding = insert request.id w.queue.outstanding)
    (hn : queue.nextSeq = wrappingAdd 64 w.queue.nextSeq 1)
    (hconfig : queue.config = w.queue.config) :
    Books { w with queue, accepted := w.accepted ++ [request] } (part :: parts) := by
  have hlen : (w.accepted ++ [request]).length = w.accepted.length + 1 := by simp
  rw [hbooks.outstanding, mem_toFinset] at hfresh
  constructor
  · dsimp only
    rw [hlen, range_succ, cons_append, map_cons, hseq]
    exact (hbooks.once.cons _).trans (perm_append_singleton _ _).symm
  · rw [map_cons, hid]
    exact nodup_cons.mpr ⟨hfresh, hbooks.ids⟩
  · change queue.outstanding = _
    rw [houtstanding, hbooks.outstanding, map_cons, toFinset_cons, hid]
  · change queue.nextSeq = _ % _
    rw [hn, hbooks.nextSeq, wrappingAdd_mod, hlen]
  · change queue.outstanding.card ≤ queue.config.maxRequests
    rw [houtstanding, hconfig]
    exact (Finset.card_insert_le _ _).trans hroom
  · intro o ho
    rw [hlen]
    exact (hbooks.returned o ho).trans (lt_add_one _)

end

lemma foldl_erase_eq (answered : List Part) (ids : Finset Nat) :
    answered.foldl (fun ids part => ids.erase part.id) ids =
      ids \ (answered.map Part.id).toFinset := by
  induction answered generalizing ids with
  | nil => simp
  | cons part answered ih =>
    rw [foldl_cons, ih]
    ext id
    simp only [Finset.mem_sdiff, Finset.mem_erase, map_cons, toFinset_cons,
      Finset.mem_insert, not_or]
    tauto

lemma Books.answer {answered : List Part}
    (hbooks : Books w (answered ++ parts)) (houtstanding : queue.outstanding =
      answered.foldl (fun ids part => ids.erase part.id) w.queue.outstanding)
    (hn : queue.nextSeq = w.queue.nextSeq) (hconfig : queue.config = w.queue.config) :
    Books { w with queue, answered := w.answered ++ answered } parts := by
  have hnodup := hbooks.ids
  rw [map_append, nodup_append'] at hnodup
  rw [foldl_erase_eq] at houtstanding
  constructor
  · refine List.Perm.trans (List.Perm.map _ ?_) hbooks.once
    rw [append_assoc, ← append_assoc parts]
    exact perm_append_comm
  · exact hnodup.2.1
  · change queue.outstanding = _
    rw [houtstanding, hbooks.outstanding, map_append]
    ext id
    simp only [Finset.mem_sdiff, toFinset_append, Finset.mem_union, mem_toFinset]
    constructor
    · rintro ⟨h | h, hnot⟩
      · exact absurd h hnot
      · exact h
    · exact fun h => ⟨.inr h, fun h' => hnodup.2.2 h' h⟩
  · exact hn.trans hbooks.nextSeq
  · change queue.outstanding.card ≤ queue.config.maxRequests
    rw [houtstanding, hconfig]
    exact (Finset.card_le_card Finset.sdiff_subset).trans hbooks.room
  · exact hbooks.returned

lemma Books.keep {returned : List Part} {tokens : List Nat}
    (hbooks : Books w parts) (houtstanding : queue.outstanding = w.queue.outstanding)
    (hn : queue.nextSeq = w.queue.nextSeq) (hconfig : queue.config = w.queue.config)
    (hreturned : ∀ part ∈ returned, part.seq < w.accepted.length) :
    Books { w with queue, returned, tokens } parts where
  once := hbooks.once
  ids := hbooks.ids
  outstanding := houtstanding.trans hbooks.outstanding
  nextSeq := hn.trans hbooks.nextSeq
  room := by
    rw [houtstanding, hconfig]
    exact hbooks.room
  returned := hreturned

variable {request : Request}

structure Admitted (queue : Queue) (request : Request) : Prop where
  flush : request.op = .flush → request.sector = 0 ∧ request.count = 0
  range : request.op ≠ .flush → request.sector + request.count ≤ queue.limits.capacity ∧
    request.count ≤ queue.limits.maxSectors
  fresh : request.id ∉ queue.outstanding
  room : queue.outstanding.card < queue.config.maxRequests

lemma checkRange_ok (h : queue.checkRange request = .ok ()) :
    request.sector + request.count ≤ queue.limits.capacity ∧
      request.count ≤ queue.limits.maxSectors := by
  rw [Queue.checkRange] at h
  split at h
  · cases h
  · split at h
    · cases h
    · rename_i stop hstop
      obtain ⟨-, rfl⟩ := checkedAdd_eq_some.mp hstop
      split at h
      · cases h
      · rename_i hcapacity
        split at h
        · cases h
        · rename_i hlarge
          exact ⟨not_lt.mp hcapacity, not_lt.mp hlarge⟩

lemma check_ok (h : queue.check request = .ok ()) : Admitted queue request := by
  rw [Queue.check] at h
  split at h
  · cases h
  · split at h
    · cases h
    · rename_i hshape
      split at h
      · cases h
      · rename_i hfresh
        split at h
        · cases h
        · rename_i hroom
          refine ⟨fun hflush => ?_, fun hflush => ?_, hfresh, not_le.mp hroom⟩
          · rw [if_pos hflush] at hshape
            split at hshape
            · cases hshape
            · rename_i hnone
              simpa using hnone
          · rw [if_neg hflush] at hshape
            exact checkRange_ok hshape

end Ferrix.Block.Custody

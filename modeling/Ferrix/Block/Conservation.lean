import Ferrix.Block.Wraparound

/-!
An accepted request is in one unit, queued or on the device, until one completion answers it.  What
leaves as a command is a stretch of sectors that its requests tile.
-/

namespace Ferrix.Block.Conservation

open Relation Foundations.SortedMaps.SortedMap Requests RequestQueue Custody QueueRuns List

def waitingUnits (queue : Queue) : List IoUnit :=
  queue.epochs.flatMap fun epoch => epoch.units.entries.map Prod.snd ++ epoch.barriers

structure Conserved (limits : Limits) (world : World) : Prop where
  once : ∀ i < world.accepted.length,
    (((units world.queue).flatMap IoUnit.parts ++ world.answered).map Part.seq).count i = 1
  carried : ∀ unit ∈ units world.queue, ∀ part ∈ unit.parts, Carries world.accepted unit part
  named : ∀ part ∈ world.answered, ∃ request, world.accepted[part.seq]? = some request ∧
    request.id = part.id
  queued : world.queue.queued = ((waitingUnits world.queue).flatMap IoUnit.parts).length
  outstanding : world.queue.outstanding =
    (((units world.queue).flatMap IoUnit.parts).map Part.id).toFinset
  counted : world.queue.outstanding.card + world.answered.length = world.accepted.length
  indexed : ∀ epoch ∈ world.queue.epochs, epoch.Indexed
  alone : ∀ unit ∈ units world.queue, ∀ part ∈ unit.parts,
    part.seq ∈ world.returned.map Part.seq → unit.parts = [part]
  depth : world.queue.inFlight.size ≤ limits.queueDepth
  tokens : world.tokens.Nodup

structure Fits (limits : Limits) (world : World) (dispatch : Dispatch) : Prop where
  tiles : Tiles dispatch.parts dispatch.sector (dispatch.sector + dispatch.count)
  carries : ∀ part ∈ dispatch.parts, ∃ request, world.accepted[part.seq]? = some request ∧
    request.id = part.id ∧ request.sector = part.sector ∧ request.count = part.count ∧
    request.op = dispatch.op ∧ request.flags.fua = dispatch.fua
  ordered : dispatch.parts.Pairwise fun a b => a.seq < b.seq
  sectors : dispatch.count ≤ limits.maxSectors
  length : 1 ≤ dispatch.parts.length ∧ dispatch.parts.length ≤ limits.maxParts
  capacity : dispatch.sector + dispatch.count ≤ limits.capacity
  alone : ∀ part ∈ dispatch.parts, part.seq ∈ world.returned.map Part.seq → dispatch.parts = [part]
  fresh : dispatch.token ∉ world.tokens

section

variable {R : Type} {limits : Limits} {config : Config} {w : World} {now : Nat}
  {dispatch : Dispatch} {queue : Queue}

section

variable (h : Sound limits config w)
include h

lemma good_of_mem_units {u : IoUnit}
    (hu : u ∈ units w.queue) : Good limits w.accepted w.returned u := by
  rcases mem_append.mp hu with hu | hu
  · obtain ⟨e, hepoch, hu⟩ := mem_flatMap.mp hu
    rcases mem_append.mp hu with hu | hu
    · obtain ⟨⟨k, found⟩, he, rfl⟩ := mem_map.mp hu
      obtain ⟨keys, -, -, hstocked⟩ := h.stores.loose
      exact ((hstocked e hepoch).queued k found (get?_eq_some.mpr he)).1
    · exact (h.stores.barriers e hepoch u hu).1
  · obtain ⟨⟨t, f⟩, he, rfl⟩ := mem_map.mp hu
    exact (h.stores.flights t f (get?_eq_some.mpr he)).1

lemma sound_conserved (hsettled : Settled w) : Conserved limits w := by
  obtain ⟨init, l, hepochs, -⟩ := h.row.bare
  have hne : w.queue.epochs ≠ [] := by simp [hepochs]
  have hbooks := h.books.perm (line_flatten_perm hne).symm
  have hgood := fun u (hu : u ∈ units w.queue) => good_of_mem_units h hu
  constructor
  · intro i hi
    rw [hbooks.once.count_eq]
    exact count_eq_one_of_mem nodup_range (mem_range.mpr hi)
  · exact fun u hu => (hgood u hu).carries
  · exact hsettled.named
  · rw [h.queued, flatten_blocks]
    rfl
  · exact hbooks.outstanding
  · have hlen := hbooks.once.length_eq
    rw [length_map, length_append, length_range] at hlen
    rw [hbooks.card, hlen]
  · intro e hepoch
    obtain ⟨keys, -, -, hstocked⟩ := h.stores.loose
    exact (hstocked e hepoch).indexed
  · exact fun u hu p hpart hreturned => (hgood u hu).alone_eq hpart hreturned
  · exact h.depth
  · exact h.issued.1

lemma sound_fits (hdispatch : w.queue.dispatch now = (some dispatch, queue)) :
    Fits limits w dispatch := by
  obtain ⟨u, hgood, rfl, -⟩ := dispatch_least h hdispatch
  constructor
  · exact hgood.shaped.tiled
  · intro p hpart
    obtain ⟨r, hg, hid, hsector, hn, hflags, hop⟩ := hgood.carries p hpart
    refine ⟨r, hg, hid, hsector, hn, hop, ?_⟩
    rw [hflags]
    exact hgood.shaped.fua p hpart
  · exact hgood.shaped.ordered
  · exact hgood.shaped.sectors
  · exact ⟨length_pos_iff.mpr hgood.shaped.inhabited, hgood.shaped.length⟩
  · rcases eq_or_ne u.op .flush with hflush | hflush
    · obtain ⟨hsector, hn, -⟩ := hgood.shaped.flush hflush
      simp [hsector, hn]
    · exact hgood.shaped.capacity hflush
  · exact fun p hpart hreturned => hgood.alone_eq hpart hreturned
  · exact fun hm => absurd (h.issued.2 _ hm) (lt_irrefl _)

end

/-- Requests are conserved in every run, as long as the numbers fit a word. -/
theorem run_conserves (hrun : ReflTransGen (Step R) (World.new limits config) world)
    (hbound : Bounded world) : Conserved limits world ∧ ∀ now dispatch queue,
      world.queue.dispatch now = (some dispatch, queue) → Fits limits world dispatch :=
  ⟨sound_conserved (run_sound hrun hbound) (run_settled hrun hbound),
    fun _ _ _ hdispatch => sound_fits (run_sound hrun hbound) hdispatch⟩

end

theorem run_conserves_reads : ∃ world : World, world.queue.inFlight.size = 1 ∧
    world.queue.queued = 1 ∧ Conserved Wraparound.limits world := by
  have hfirst : ReflTransGen (Step Unit)
      (World.new Wraparound.limits Wraparound.config) _ :=
    .single (.submit 0 (.read 0 4 1) rfl)
  have hmerged := hfirst.tail (.submit 0 (.read 1 5 1) rfl)
  have hdispatch := hmerged.tail (.dispatch 0 rfl)
  have hwaiting := hdispatch.tail (.submit 0 (.read 2 6 1) rfl)
  exact ⟨_, rfl, rfl, (run_conserves hwaiting (by simp [Bounded, World.new])).1⟩

/-- Past `2 ^ 64` submissions an accepted write that was never answered is in no unit. -/
theorem write_lost : ∃ world : World,
    ReflTransGen (Step Unit) (World.new Wraparound.limits Wraparound.config) world ∧
      world.accepted.head? = some (.write 0 0 1) ∧ (∀ part ∈ world.answered, part.id ≠ 0) ∧
      0 ∈ world.queue.outstanding ∧ ∀ unit ∈ units world.queue, ∀ part ∈ unit.parts,
        part.id ≠ 0 := by
  obtain ⟨accepted, answered, returned, tokens, hdiscard, haccepted, hanswered⟩ :=
    Wraparound.discarded
  refine ⟨_, hdiscard, ?_, hanswered, ?_, ?_⟩
  · rw [List.head?_append, haccepted]
    rfl
  all_goals
    dsimp only
    decide

end Ferrix.Block.Conservation

import Ferrix.Block.Landings

namespace Ferrix.Block.QueueRuns

open Foundations SortedMaps OrderedBlocks Requests Epochs Epochs.Epoch RequestQueue
open Custody QueueSteps Landings
open List hiding count

def World.new (limits : Limits) (config : Config) : World := ⟨.new limits config, [], [], [], []⟩

inductive Step (R : Type) (world : World) : World → Prop
  | submit (now : Nat) (request : Request)
      (hcall : world.queue.submit now request = (.ok (), queue)) :
      Step R world { world with queue, accepted := world.accepted ++ [request] }
  | refuse (now : Nat) (request : Request)
      (hcall : world.queue.submit now request = (.error error, queue)) :
      Step R world { world with queue }
  | dispatch (now : Nat) (hcall : world.queue.dispatch now = (some dispatch, queue)) :
      Step R world { world with queue, tokens := world.tokens ++ [dispatch.token] }
  | hold (now : Nat) (hcall : world.queue.dispatch now = (none, queue)) :
      Step R world { world with queue }
  | complete (token : Nat) (result : R)
      (hcall : world.queue.complete token result = (.ok completion, queue)) :
      Step R world { world with queue, answered := world.answered ++ completion.parts }
  | completeRefused (token : Nat) (result : R)
      (hcall : world.queue.complete token result = (.error error, queue)) :
      Step R world { world with queue }
  | requeue (token : Nat) (hparts : world.queue.parts token = some parts)
      (hcall : world.queue.requeue token = (.ok count, queue)) :
      Step R world { world with queue, returned := world.returned ++ parts }
  | requeueRefused (token : Nat) (hcall : world.queue.requeue token = (.error error, queue)) :
      Step R world { world with queue }
  | plug : Step R world { world with queue := world.queue.plug }
  | unplug : Step R world { world with queue := world.queue.unplug }

variable {token : Nat} {queue : Queue} {part : Part}

variable {R : Type} {limits : Limits} {config : Config} {w w' : World} {error : TokenError}
variable {flight : InFlight} {unit : IoUnit} {now : Nat}

def Bounded (world : World) : Prop := world.accepted.length + world.returned.length ≤ 2 ^ 64

/-- What was answered is what was asked, and everything before an answered barrier is answered. -/
structure Settled (world : World) : Prop where
  named : ∀ part ∈ world.answered, ∃ request, world.accepted[part.seq]? = some request ∧
    request.id = part.id
  barriers : ∀ i ∈ world.answered.map Part.seq, ∀ request, world.accepted[i]? = some request →
    request.isBarrier = true → ∀ j < i, j ∈ world.answered.map Part.seq

lemma new_sound (limits : Limits) (config : Config) :
    Sound limits config (World.new limits config) := by
  have hnone : ∀ token flight, (∅ : SortedMap Nat InFlight).get? token ≠ some flight := by simp
  constructor
  · rfl
  · rfl
  · exact ⟨⟨[], default, rfl, rfl⟩, fun _ _ h => absurd h (hnone _ _), ⟨[], rfl, by simp⟩,
      fun _ _ h => absurd h (hnone _ _)⟩
  · exact (by simp [ascend_cons] : Ascend Part.seq [[], []])
  · refine ⟨⟨0, le_rfl, rfl, fun epoch hepoch => ?_⟩, fun epoch hepoch unit hu => ?_,
      fun _ _ h => absurd h (hnone _ _)⟩
    · rw [mem_singleton.mp hepoch]
      exact stocked_default
    · rw [mem_singleton.mp hepoch] at hu
      cases hu
  · exact ⟨List.Perm.refl _, nodup_nil, rfl, rfl, Nat.zero_le _, by simp [World.new]⟩
  · rfl
  · exact Nat.zero_le _
  · exact ⟨nodup_nil, by simp [World.new]⟩

lemma step_bounded (hstep : Step R w w') (hb : Bounded w') : Bounded w := by
  cases hstep <;> simp only [Bounded, length_append, length_singleton] at hb ⊢ <;> omega

lemma complete_error {result : R}
    (hc : w.queue.complete token result = (.error error, queue)) : queue = w.queue := by
  rw [Queue.complete] at hc
  split at hc
  · rename_i htake
    obtain ⟨-, rfl⟩ := Prod.mk.inj hc
    exact takeFlight_none htake
  · cases (Prod.mk.inj hc).1

lemma requeue_error (hc : w.queue.requeue token = (.error error, queue)) : queue = w.queue := by
  rw [Queue.requeue] at hc
  split at hc
  · rename_i htake
    obtain ⟨-, rfl⟩ := Prod.mk.inj hc
    exact takeFlight_none htake
  · dsimp only at hc
    split at hc <;> cases (Prod.mk.inj hc).1

lemma submit_error {request : Request} {error : SubmitError}
    (hc : w.queue.submit now request = (.error error, queue)) : queue = w.queue := by
  rw [Queue.submit] at hc
  split at hc
  · exact (Prod.mk.inj hc).2.symm
  · cases (Prod.mk.inj hc).1

lemma step_sound (hs : Sound limits config w) (hstep : Step R w w')
    (hb : Bounded w') : Sound limits config w' := by
  cases hstep with
  | submit now request hc =>
    refine submit_sound hs ?_ hc
    simpa [Bounded] using hb
  | refuse now request hc =>
    rw [submit_error hc]
    exact hs
  | dispatch now hc => exact dispatch_sound hs hc
  | hold now hc =>
    rw [dispatch_none hs hc]
    exact hs
  | complete token r hc => exact complete_sound hs hc
  | completeRefused token r hc =>
    rw [complete_error hc]
    exact hs
  | requeue token hparts hc =>
    refine requeue_sound hs hparts ?_ hc
    simpa [Bounded] using hb
  | requeueRefused token hc =>
    rw [requeue_error hc]
    exact hs
  | plug | unplug =>
    exact { hs with
      row := { hs.row with }
      stores := { hs.stores with }
      books := { hs.books with } }

lemma run_sound (hrun : Relation.ReflTransGen (Step R) (World.new limits config) w)
    (hb : Bounded w) : Sound limits config w := by
  induction hrun with
  | refl => exact new_sound limits config
  | tail _ hstep ih => exact step_sound (ih (step_bounded hstep hb)) hstep hb

lemma carries_request {limits : Limits} {accepted : List Request} {returned : List Part}
    (hgood : Good limits accepted returned unit) (hpart : part ∈ unit.parts) :
    ∃ r, accepted[part.seq]? = some r ∧ r.id = part.id ∧ r.op = unit.op ∧ r.flags.fua = unit.fua ∧
      r.isBarrier = unit.isBarrier := by
  obtain ⟨r, hg, hid, -, -, hflags, hop⟩ := hgood.carries part hpart
  have hfua : r.flags.fua = unit.fua := by rw [hflags, hgood.shaped.fua part hpart]
  exact ⟨r, hg, hid, hop, hfua, by rw [Request.isBarrier, IoUnit.isBarrier, hop, hfua]⟩

section

variable (hs : Sound limits config w) {other : Part} {rest : List Epoch} {front : Epoch}
include hs

lemma live_or_answered {i : Nat} (hi : i < w.accepted.length) : i ∈ w.answered.map Part.seq ∨
      ∃ part ∈ (line w.queue).flatten, part.seq = i := by
  have hm := hs.books.once.mem_iff.mpr (mem_range.mpr hi)
  rw [map_append, mem_append] at hm
  rcases hm with h | h
  · exact .inr (mem_map.mp h)
  · exact .inl h

lemma not_answered (hpart : part ∈ (line w.queue).flatten) :
    part.seq ∉ w.answered.map Part.seq := by
  have hnodup := hs.books.once.nodup_iff.mpr nodup_range
  rw [map_append, nodup_append'] at hnodup
  exact fun h => hnodup.2.2 (mem_map_of_mem hpart) h

lemma front_least (h : w.queue.epochs = front :: rest)
    (hpart : part ∈ flying w.queue.inFlight false ++ front.loose)
    (ho : other ∈ (line w.queue).flatten) : part.seq < other.seq ∨
      ∃ r, w.accepted[other.seq]? = some r ∧ r.isBarrier = false := by
  have hascend := hs.ascending
  rw [line, h, flatMap_cons] at hascend ho
  change Ascend _ ((flying w.queue.inFlight false ++ front.loose) ::
    flying w.queue.inFlight true :: (held front ++ rest.flatMap blocks)) at hascend
  change other ∈ ((flying w.queue.inFlight false ++ front.loose) ::
    flying w.queue.inFlight true :: (held front ++ rest.flatMap blocks)).flatten at ho
  rw [flatten_cons, mem_append] at ho
  rcases ho with ho | ho
  · right
    rcases mem_append.mp ho with ho | ho
    · obtain ⟨token, flight, hf, hkind, hm⟩ := mem_flying.mp ho
      obtain ⟨hgood, hbarrier, -⟩ := hs.stores.flights token flight hf
      obtain ⟨r, hg, -, -, -, hsame⟩ := carries_request hgood hm
      exact ⟨r, hg, hsame.trans (hbarrier.trans hkind)⟩
    · obtain ⟨keys, -, -, hstocked⟩ := hs.stores.loose
      obtain ⟨k, unit, hu, hm⟩ := mem_loose.mp ho
      obtain ⟨hgood, hbarrier⟩ := (hstocked front (by simp [h])).queued k unit hu
      obtain ⟨r, hg, -, -, -, hsame⟩ := carries_request hgood hm
      exact ⟨r, hg, hsame.trans hbarrier⟩
  · exact .inl ((ascend_cons.mp hascend).2 part hpart other ho)

lemma barrier_least {token : Nat} (hf : w.queue.inFlight.get? token = some flight)
    (hkind : flight.barrier = true) {part : Part} (hpart : part ∈ flight.unit.parts)
    (ho : other ∈ (line w.queue).flatten) :
    part.seq < other.seq ∨ other ∈ flight.unit.parts := by
  obtain ⟨hsize, hlen, hunits⟩ := hs.row.alone token flight hf hkind
  cases h : w.queue.epochs with
  | nil => simp [h] at hlen
  | cons front rest =>
    have he : (w.queue.inFlight.erase token).size = 0 := by
      have := size_erase hf
      omega
    have htrue := flying_perm _ (SortedMap.perm_erase hf) true
    have hfalse := flying_perm _ (SortedMap.perm_erase hf) false
    rw [hkind, if_pos rfl, flying_eq_nil he, append_nil] at htrue
    rw [hkind, if_neg (by simp), flying_eq_nil he] at hfalse
    have hascend := hs.ascending
    rw [line, h, flatMap_cons, blocks, loose_of_not_hasUnits (hunits front
      (by simp [h])), hfalse.eq_nil] at hascend ho
    change other ∈ ([] :: flying w.queue.inFlight true ::
      (held front ++ rest.flatMap blocks)).flatten at ho
    rw [flatten_cons, nil_append, flatten_cons, mem_append] at ho
    rcases ho with ho | ho
    · exact .inr (htrue.mem_iff.mp ho)
    · exact .inl ((ascend_cons.mp (ascend_cons.mp hascend).1).2 part (htrue.mem_iff.mpr hpart)
        other ho)

lemma next_barrier_least {barriers : List IoUnit} (h : w.queue.epochs = front :: rest)
    (hunits : front.units.entries = []) (hsize : w.queue.inFlight.size = 0)
    (hbarriers : front.barriers = unit :: barriers) (hpart : part ∈ unit.parts)
    (ho : other ∈ (line w.queue).flatten) : part.seq < other.seq ∨ other ∈ unit.parts := by
  have hascend := hs.ascending
  rw [line, h, flatMap_cons, blocks, loose_of_not_hasUnits hunits, held, hbarriers,
    flying_eq_nil hsize, flying_eq_nil hsize] at hascend ho
  rw [ascend_board_nil] at hascend
  change other ∈ ([] :: [] :: unit.parts ::
    (barriers.map IoUnit.parts ++ rest.flatMap blocks)).flatten at ho
  rw [flatten_cons, nil_append, flatten_cons, nil_append, flatten_cons, mem_append] at ho
  rcases ho with ho | ho
  · exact .inr ho
  · exact .inl ((ascend_cons.mp (ascend_cons.mp hascend).1).2 part hpart other ho)

end

lemma submit_settled (hsettled : Settled w) (queue : Queue) (request : Request) :
    Settled { w with queue, accepted := w.accepted ++ [request] } := by
  refine ⟨fun part hpart => ?_, fun i hi found hfound => ?_⟩
  · obtain ⟨o, hold, hid⟩ := hsettled.named part hpart
    exact ⟨o, accepted_append hold request, hid⟩
  · obtain ⟨part, hpart, rfl⟩ := mem_map.mp hi
    obtain ⟨o, hold, -⟩ := hsettled.named part hpart
    have hsame : (w.accepted ++ [request])[part.seq]? = some o :=
      accepted_append hold request
    obtain rfl : o = found := Option.mem_unique hsame hfound
    exact hsettled.barriers part.seq hi o hold

lemma complete_settled (hs : Sound limits config w) (hsettled : Settled w)
    (hf : w.queue.inFlight.get? token = some flight) (queue : Queue) :
    Settled { w with queue, answered := w.answered ++ flight.unit.parts } := by
  obtain ⟨hgood, hkind, -⟩ := hs.stores.flights token flight hf
  refine ⟨forall_mem_append.mpr ⟨hsettled.named, fun part hpart => ?_⟩,
    fun i hi r hrequest hbarrier j hj => ?_⟩
  · obtain ⟨r, hg, hid, -⟩ := carries_request hgood hpart
    exact ⟨r, hg, hid⟩
  · dsimp only at hi hrequest ⊢
    rw [map_append, mem_append] at hi ⊢
    rcases hi with hi | hi
    · exact .inl (hsettled.barriers i hi r hrequest hbarrier j hj)
    · obtain ⟨part, hpart, rfl⟩ := mem_map.mp hi
      obtain ⟨found, hfound, -, -, -, hsame⟩ := carries_request hgood hpart
      obtain rfl : r = found := Option.mem_unique hrequest hfound
      rcases live_or_answered hs (hj.trans (List.getElem?_eq_some_iff.mp hrequest).1) with
        h | ⟨other, ho, rfl⟩
      · exact .inl h
      · rcases barrier_least hs hf (hkind.symm.trans (hsame.symm.trans hbarrier)) hpart
          ho with h | h
        · omega
        · exact .inr (mem_map_of_mem h)

lemma step_settled (hs : Sound limits config w) (hsettled : Settled w)
    (hstep : Step R w w') : Settled w' := by
  cases hstep with
  | submit now request hc => exact submit_settled hsettled _ request
  | complete token r hc =>
    obtain ⟨front, rest, h⟩ := hs.row.exists_front
    obtain ⟨flight, hf, hparts, -⟩ := complete_spec hs h hc
    rw [hparts]
    exact complete_settled hs hsettled hf _
  | refuse | dispatch | hold | completeRefused | requeue | requeueRefused | plug | unplug =>
    exact { hsettled with }

lemma run_settled (hrun : Relation.ReflTransGen (Step R) (World.new limits config) w)
    (hb : Bounded w) : Settled w := by
  induction hrun with
  | refl => exact ⟨by simp [World.new], by simp [World.new]⟩
  | tail hrun hstep ih =>
    have hb' := step_bounded hstep hb
    exact step_settled (run_sound hrun hb') (ih hb') hstep

lemma dispatch_least {dispatch : Dispatch} (hs : Sound limits config w)
    (hdispatch : w.queue.dispatch now = (some dispatch, queue)) :
    ∃ unit, Good limits w.accepted w.returned unit ∧ dispatch =
        ⟨w.queue.nextToken, unit.op, unit.sector, unit.count, unit.fua, unit.parts⟩ ∧
      (∀ part ∈ unit.parts, part ∈ (line w.queue).flatten) ∧
      ∀ part ∈ unit.parts, ∀ other ∈ (line w.queue).flatten, part.seq < other.seq ∨
        unit.isBarrier = true ∧ other ∈ unit.parts ∨ unit.isBarrier = false ∧
          ∃ r, w.accepted[other.seq]? = some r ∧ r.isBarrier = false := by
  rcases dispatch_cases hs now with ⟨-, h⟩ | ⟨-, unit, barrier, epochs, hleaves, h⟩ <;>
    rw [h] at hdispatch <;> cases hdispatch
  cases hleaves with
  | @unit front rest k unit hepochs _ hu =>
    obtain ⟨keys, -, -, hstocked⟩ := hs.stores.loose
    obtain ⟨hgood, hkind⟩ := (hstocked front (by simp [hepochs])).queued k unit hu
    have hfront : ∀ part ∈ unit.parts,
        part ∈ flying w.queue.inFlight false ++ front.loose := fun part hpart =>
      mem_append_right _ (mem_loose.mpr ⟨k, unit, hu, hpart⟩)
    refine ⟨unit, hgood, rfl, fun part hpart => ?_, fun part hpart other ho => ?_⟩
    · rw [line, hepochs, flatMap_cons]
      exact mem_append_left _ (hfront part hpart)
    · rcases front_least hs hepochs (hfront part hpart) ho with h | h
      · exact .inl h
      · exact .inr (.inr ⟨hkind, h⟩)
  | @barrier front rest unit barriers hepochs hunits hsize hbarriers =>
    obtain ⟨hgood, hkind⟩ := hs.stores.barriers front (by simp [hepochs]) unit (by simp [hbarriers])
    refine ⟨unit, hgood, rfl, fun part hpart => ?_, fun part hpart other ho => ?_⟩
    · refine (line_flatten_perm (by simp [hepochs])).mem_iff.mpr ?_
      refine mem_flatMap.mpr ⟨unit, mem_append_left _ ?_, hpart⟩
      exact mem_flatMap.mpr ⟨front, by simp [hepochs], by simp [hbarriers]⟩
    · rcases next_barrier_least hs hepochs hunits hsize hbarriers hpart ho with h | h
      · exact .inl h
      · exact .inr (.inl ⟨hkind, h⟩)

end Ferrix.Block.QueueRuns

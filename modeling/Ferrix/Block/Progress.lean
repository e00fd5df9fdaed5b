import Ferrix.Block.Wraparound

/-!
Every epoch but the open one has a barrier to wait for, so a queue that holds requests over an
idle device has a command to give.
-/

namespace Ferrix.Block.Progress

open Foundations SortedMaps SortedMap Requests Epochs Epochs.Epoch
open Relation RequestQueue Custody QueueSteps Landings QueueRuns List

/-- Each epoch but the last has barriers left, or is the first and has one on the device. -/
def Shut : Prop → List Epoch → Prop
  | _, [] => True
  | barred, epoch :: rest => rest = [] ∨ (epoch.barriers ≠ [] ∨ barred) ∧ Shut False rest

def Barred (queue : Queue) : Prop :=
  ∃ token flight, queue.inFlight.get? token = some flight ∧ flight.barrier = true

def Closed (queue : Queue) : Prop := Shut (Barred queue) queue.epochs

section

variable {barred barred' : Prop} {front front' : Epoch} {rest init tail tail' : List Epoch}

lemma Shut.head (hshut : Shut barred (front :: rest))
    (hfront : front.barriers ≠ [] ∨ barred → front'.barriers ≠ [] ∨ barred') :
    Shut barred' (front' :: rest) :=
  hshut.imp_right (And.imp_left hfront)

lemma Shut.reopen (hshut : Shut barred (init ++ tail)) (htail : tail ≠ [])
    (hnew : ∀ barred, Shut barred tail') : Shut barred (init ++ tail') := by
  induction init generalizing barred with
  | nil => exact hnew barred
  | cons f init ih =>
    rcases hshut with hnil | ⟨hf, hr⟩
    · exact absurd (append_eq_nil_iff.mp hnil).2 htail
    · exact .inr ⟨hf, ih hr⟩

lemma retire_shut (hshut : Shut False (front :: rest)) (first : Nat) :
    (retire (front :: rest) first).1 = front :: rest := by
  cases rest with
  | nil => rfl
  | cons n rest =>
    have hbarriers : front.barriers ≠ [] := by simpa using (hshut.resolve_left (by simp)).1
    rw [retire, if_neg (by simp [isDone, hbarriers])]

lemma pushBarrier_ne_nil (epoch : Epoch) (u : IoUnit) (limits : Limits) :
    (epoch.pushBarrier u limits).barriers ≠ [] := by
  rcases pushBarrier_spec epoch u limits with h | ⟨_, _, _, -, -, h⟩ <;> simp [h]

end

section

variable {R : Type} {limits : Limits} {config : Config} {w w' : World} {queue : Queue}
  {now token : Nat}

section

variable (hsound : Sound limits config w) (hclosed : Closed w.queue)
include hsound hclosed

lemma submit_closed {request : Request}
    (hsubmit : w.queue.submit now request = (.ok (), queue)) : Closed queue := by
  obtain ⟨-, epochs, nextKey, henters, rfl⟩ := submit_spec hsound.row hsubmit
  rw [Closed] at hclosed
  cases henters with
  | unit _ h _ =>
    rw [h] at hclosed
    exact hclosed.reopen (by simp) fun _ => .inl rfl
  | behind _ h _ _ | ends _ h _ =>
    rw [h] at hclosed
    exact hclosed.reopen (by simp) fun _ => .inr ⟨.inl (pushBarrier_ne_nil _ _ _), .inl rfl⟩

lemma dispatch_closed {dispatch : Dispatch}
    (hdispatch : w.queue.dispatch now = (some dispatch, queue)) : Closed queue := by
  rcases dispatch_cases hsound now with ⟨-, h⟩ | ⟨-, unit, barrier, epochs, hleaves, h⟩ <;>
    rw [h] at hdispatch <;> cases hdispatch
  rw [Closed] at hclosed
  cases hleaves with
  | unit hepochs _ _ =>
    rw [hepochs] at hclosed
    refine hclosed.head (Or.imp_right ?_)
    rintro ⟨token, flight, hf, hkind⟩
    refine ⟨token, flight, (get?_insert _ _ _ _).trans ?_, hkind⟩
    rw [if_neg, hf]
    rintro rfl
    rw [get?_fresh hsound] at hf
    cases hf
  | barrier hepochs _ _ _ =>
    rw [hepochs] at hclosed
    exact hclosed.head fun _ => .inr ⟨_, _, (get?_insert _ _ _ _).trans (if_pos rfl), rfl⟩

omit hclosed in
lemma Barred.lands {flight : InFlight} {front : Epoch} {rest : List Epoch}
    (hbarred : Barred w.queue) (hf : w.queue.inFlight.get? token = some flight)
    (h : w.queue.epochs = front :: rest) : flight.barrier = true ∧
      (w.queue.inFlight.erase token).size = 0 ∧ front.units.entries = [] := by
  obtain ⟨o, flight', ho, hkind⟩ := hbarred
  obtain ⟨hsize, -, hunits⟩ := hsound.row.alone o flight' ho hkind
  have herase := size_erase hf
  refine ⟨?_, by omega, hunits front (by simp [h])⟩
  rcases eq_or_ne o token with rfl | hne
  · cases hf.symm.trans ho
    exact hkind
  · have hnone := erase_barrier hsound hf ((get?_erase _ _ _).trans ((if_neg hne).trans ho))
    rw [hnone] at hkind
    cases hkind

lemma complete_closed {result : R} {completion : Completion R}
    (hcomplete : w.queue.complete token result = (.ok completion, queue)) : Closed queue := by
  obtain ⟨front, rest, h⟩ := hsound.row.exists_front
  obtain ⟨flight, hf, -, rfl⟩ := complete_spec hsound h hcomplete
  rw [Closed, h] at hclosed
  cases rest with
  | nil => exact .inl rfl
  | cons n rest =>
    obtain ⟨hfront, hr⟩ := hclosed.resolve_left (cons_ne_nil _ _)
    change Shut _ (retire _ _).1
    rw [retire]
    by_cases hbarriers : front.barriers = []
    -- the last barrier of the oldest epoch came back, so the epoch is dropped, and no other
    · obtain ⟨-, hsize, hunits⟩ := Barred.lands hsound (hfront.resolve_left (absurd hbarriers)) hf h
      rw [if_pos (by simp [isDone, isIdle, lighter, hbarriers, hsize, hunits]), retire_shut hr]
      exact hr.head (Or.imp_right False.elim)
    · rw [if_neg (by simp [isDone, lighter, hbarriers])]
      exact .inr ⟨.inl hbarriers, hr⟩

lemma requeue_closed {n : Nat} {parts : List Part} (hparts : w.queue.parts token = some parts)
    (hrequeue : w.queue.requeue token = (.ok n, queue)) : Closed queue := by
  obtain ⟨front, rest, h⟩ := hsound.row.exists_front
  obtain ⟨flight, hf, -, rfl⟩ := requeue_spec hsound h hparts hrequeue
  rw [Closed, h] at hclosed
  refine hclosed.head fun hfront => .inl ?_
  rw [Queue.putBack]
  cases hkind : flight.barrier with
  | true => simp [(hsound.stores.flights token flight hf).1.shaped.inhabited]
  | false =>
    rw [if_neg (by simp), (insertParts_keeps _ _ _ _).2]
    refine hfront.resolve_right fun hbarred => ?_
    rw [(Barred.lands hsound hbarred hf h).1] at hkind
    cases hkind

lemma step_closed (hs : Step R w w') : Closed w'.queue := by
  cases hs with
  | submit now request hc => exact submit_closed hsound hclosed hc
  | refuse now request hc => exact submit_error hc ▸ hclosed
  | dispatch now hc => exact dispatch_closed hsound hclosed hc
  | hold now hc => exact dispatch_none hsound hc ▸ hclosed
  | complete token r hc => exact complete_closed hsound hclosed hc
  | completeRefused token r hc => exact complete_error hc ▸ hclosed
  | requeue token hparts hc => exact requeue_closed hsound hclosed hparts hc
  | requeueRefused token hc => exact requeue_error hc ▸ hclosed
  | plug | unplug => exact hclosed

end

lemma run_closed (hrun : ReflTransGen (Step R) (World.new limits config) w)
    (hb : Bounded w) : Closed w.queue := by
  induction hrun with
  | refl => exact .inl rfl
  | tail hrun hs ih =>
    have hb' := step_bounded hs hb
    exact step_closed (run_sound hrun hb') (ih hb') hs

lemma pick_overdue {epoch : Epoch} {key chosen head : Nat} {u picked : IoUnit}
    (hindexed : epoch.Indexed) (hu : epoch.units.get? key = some u)
    (hoverdue : u.deadline ≤ now) (hpick : epoch.pick head now = some chosen)
    (hf : epoch.units.get? chosen = some picked) : ∀ other u', epoch.units.get? other = some u' →
        toLex (picked.deadline, chosen) ≤ toLex (u'.deadline, other) := by
  cases hearliest : epoch.earliestDeadline with
  | none =>
    rw [earliestDeadline, Index.first, Option.map_eq_none_iff, head?_eq_none_iff] at hearliest
    exact absurd hearliest (entries_ne_nil (hindexed.deadlines.get hu))
  | some earliest =>
    obtain ⟨deadline, least⟩ := earliest
    obtain ⟨u', hu', rfl, hleast⟩ := earliestDeadline_spec hindexed hearliest
    have hnow := (Prod.Lex.monotone_fst_ofLex (hleast key u hu)).trans hoverdue
    rw [pick, hearliest] at hpick
    cases (if_pos hnow).symm.trans hpick
    cases hu'.symm.trans hf
    exact hleast

/-- What a queue that holds requests owes when nothing holds them back. -/
structure Moves (queue : Queue) (front : Epoch) (now : Nat) : Prop where
  command : (queue.dispatch now).1 = none ↔ front.units.entries = [] ∧ front.inFlight ≠ 0
  idle : queue.inFlight.size = 0 → (queue.dispatch now).1 ≠ none
  overdue {key unit} : front.units.get? key = some unit → unit.deadline ≤ now → ∃ chosen first,
    front.units.get? chosen = some first ∧ (∀ other unit', front.units.get? other = some unit' →
      toLex (first.deadline, chosen) ≤ toLex (unit'.deadline, other)) ∧
    (queue.dispatch now).1 = some ⟨queue.nextToken, first.op, first.sector, first.count, first.fua,
      first.parts⟩

lemma not_waits (hsound : Sound limits config w) (hclosed : Closed w.queue)
    (hqueued : 0 < w.queue.queued) (hsize : w.queue.inFlight.size = 0) :
    ¬Waits w.queue := by
  intro hwaits
  obtain ⟨front, rest, h⟩ := hsound.row.exists_front
  obtain ⟨hunits, hbarriers⟩ := hwaits front (by simp [h])
  have hbare := hbarriers.resolve_right (absurd hsize)
  rw [Closed, h] at hclosed
  rcases hclosed with rfl | ⟨hbarriers | ⟨token, flight, hf, -⟩, -⟩
  · rw [hsound.queued, h, flatMap_singleton, blocks_of_bare hbare,
      loose_of_not_hasUnits hunits] at hqueued
    cases hqueued
  · exact hbarriers hbare
  · have := size_erase hf
    omega

/-- The queue never stalls, and an overdue unit comes first, as long as the numbers fit a word. -/
theorem run_moves (hrun : ReflTransGen (Step R) (World.new limits config) world)
    (hbound : Bounded world) (hqueued : 0 < world.queue.queued) (hgate : ¬Gated world.queue)
    (now : Nat) :
    ∃ front rest, world.queue.epochs = front :: rest ∧ Moves world.queue front now := by
  have hsound := run_sound hrun hbound
  have hidle := not_waits hsound (run_closed hrun hbound) hqueued
  obtain ⟨front, rest, hepochs⟩ := hsound.row.exists_front
  obtain ⟨counts, hcounts, -⟩ := hsound.row.counted
  rw [hepochs, map_cons, List.cons.injEq] at hcounts
  refine ⟨front, rest, hepochs, ?_⟩
  rcases dispatch_cases hsound now with ⟨hwaits, h⟩ | ⟨-, unit, barrier, epochs, hleaves, h⟩
  · have hwaits := hwaits.resolve_left hgate
    have hunits := (hwaits front (by simp [hepochs])).1
    have hbusy : front.inFlight ≠ 0 := fun hnone => hidle (hcounts.1.symm.trans hnone) hwaits
    exact ⟨iff_of_true (by rw [h]) ⟨hunits, hbusy⟩,
      fun hsize => absurd (hcounts.1.trans hsize) hbusy,
      fun hunit => absurd hunits (entries_ne_nil hunit)⟩
  · have hsome : (world.queue.dispatch now).1 ≠ none := by simp [h]
    cases hleaves with
    | @unit front' rest' chosen _ hepochs' hpick hchosen =>
      obtain ⟨rfl, -⟩ := List.cons.inj (hepochs.symm.trans hepochs')
      obtain ⟨keys, -, -, hstocked⟩ := hsound.stores.loose
      refine ⟨iff_of_false hsome fun hall => entries_ne_nil hchosen hall.1, fun _ => hsome,
        fun hunit hoverdue => ⟨chosen, _, hchosen, ?_, by rw [h]⟩⟩
      exact pick_overdue (hstocked front (by simp [hepochs])).indexed hunit hoverdue hpick hchosen
    | barrier hepochs' hunits hsize hbarriers =>
      obtain ⟨rfl, -⟩ := List.cons.inj (hepochs.symm.trans hepochs')
      exact ⟨iff_of_false hsome fun hall => hall.2 (hcounts.1.trans hsize), fun _ => hsome,
        fun hunit => absurd hunits (entries_ne_nil hunit)⟩

end

theorem run_moves_overdue : ∃ world : World, ∃ front rest, world.queue.epochs = front :: rest ∧
    front.units.size = 2 ∧ Moves world.queue front 1 := by
  have hwrite : ReflTransGen (Step Unit)
      (World.new Wraparound.limits Wraparound.config) _ := .single (.submit 0 (.write 0 0 1) rfl)
  have hread := hwrite.tail (.submit 1 (.read 1 8 1) rfl)
  obtain ⟨front, rest, hepochs, hmoves⟩ :=
    run_moves hread (by simp [Bounded, World.new]) (by decide) (by decide) 1
  refine ⟨_, front, rest, hepochs, ?_, hmoves⟩
  cases hepochs
  rfl

/-- Past `2 ^ 64` submissions a queue that counts a request may have none to give. -/
theorem lost_request_stalls : ∃ world : World,
    ReflTransGen (Step Unit) (World.new Wraparound.limits Wraparound.config) world ∧
      0 < world.queue.queued ∧ ¬Gated world.queue ∧ world.queue.inFlight.size = 0 ∧
      (world.queue.dispatch 0).1 = none := by
  obtain ⟨accepted, answered, returned, tokens, hrun, -⟩ := Wraparound.discarded
  have hdispatch := hrun.tail (.dispatch 0 rfl)
  have hcomplete := hdispatch.tail (.complete (2 ^ 64 - 3) () rfl)
  refine ⟨_, hcomplete, ?_, ?_, rfl, rfl⟩
  all_goals
    dsimp only
    decide

end Ferrix.Block.Progress

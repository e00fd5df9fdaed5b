import Ferrix.BlockRing.KernelCalls
import Ferrix.BlockRing.DriverCalls
import Ferrix.BlockRing.HostileDriver

/-!
Both sides make their calls on one memory, a step at a time and in any order.
-/

namespace Ferrix.BlockRing.HonestRuns

open Foundations Accesses Layout Kernel Driver SharedRing RingEnds Threads KernelCalls
open Relation DriverCalls List

structure World (n : Nat) where
  shared : Shared
  kernel : Thread (KernelSide n) KernelWork
  driver : Thread DriverSide DriverWork

namespace World

def new (n : Nat) (cfg : Setting) (memory : (place : Place) → Word place) : World n where
  shared :=
    { memory
      sent := []
      consumed := []
      holding := []
      answers := []
      polled := []
      published := fun _ => 0
      heads := fun _ => 0
      asleep := fun _ => false
      rung := fun _ => false
      ringing := fun _ => false
      since := fun _ => 0 }
  kernel := .idle
    { layout := cfg.layout
      device := cfg.device
      submissions := ⟨cfg.index .submissions 0, cfg.index .submissions 0,
        cfg.index .submissions 0⟩
      completions := ⟨cfg.index .completions 0, cfg.index .completions 0, false⟩
      table := .new n cfg.layout.entries
      phase := .running }
  driver := .idle
    { layout := cfg.layout
      device := cfg.device
      submissions := ⟨cfg.index .submissions 0, cfg.index .submissions 0, false⟩
      completions := ⟨cfg.index .completions 0, cfg.index .completions 0,
        cfg.index .completions 0⟩
      held := 0
      fault := none }

def Publishing {n : Nat} (world : World n) : Side → Prop
  | .kernel => ∃ code, world.kernel = .busy .publish code
  | .driver => ∃ code, world.driver = .busy .publish code

end World

inductive Step {n : Nat} [NeZero n] (cfg : Setting) (world : World n) : World n → Prop
  | kernel {kernel : Thread (KernelSide n) KernelWork} {shared : Shared}
      (hadvances : Advances (kernelRole n) .kernel world.kernel world.shared kernel shared) :
      Step cfg world { world with kernel, shared }
  | driver {driver : Thread DriverSide DriverWork} {shared : Shared}
      (hadvances : Advances (driverRole cfg.device) .driver world.driver world.shared driver
        shared) : Step cfg world { world with driver, shared }

def Attached (cfg : Setting) (memory : (place : Place) → Word place) : Prop :=
  ∀ ring, memory (.tail ring) = cfg.index ring 0 ∧ memory (.head ring) = cfg.index ring 0

structure Honest {n : Nat} [NeZero n] (cfg : Setting) (world : World n) : Prop where
  inv : Inv cfg world.shared
  kernel : ThreadAt cfg .kernel (KernelAt cfg) world.kernel world.shared
  driver : ThreadAt cfg .driver (DriverAt cfg) world.driver world.shared
  consumed : world.shared.consumed <+: world.shared.sent ∧
    world.shared.consumed.length ≤ world.shared.heads .submissions
  polled : world.shared.polled <+: world.shared.answers.map (Answer.judged cfg.device) ∧
    world.shared.polled.length ≤ world.shared.heads .completions

variable {s' : Shared}

section

variable {n : Nat} {cfg : Setting} {memory : (place : Place) → Word place}

lemma new_inv (hattached : Attached cfg memory) : Inv cfg (World.new n cfg memory).shared := by
  refine ⟨fun r => (hattached r).1, fun r => (hattached r).2, fun _ => le_rfl, ?_,
    le_rfl, Nat.zero_le _, ?_, nil_subperm, nofun, nofun, nofun⟩
  · intro r
    cases r <;> exact le_rfl
  · intro r i _
    cases r <;> exact forall_mem_nil _

lemma moves_history {α : Type} {code code' : Code α} {s : Shared}
    (hmoves : Moves view code s code' s') :
    s'.sent = s.sent ∧ s'.consumed = s.consumed ∧ s'.answers = s.answers ∧
      s'.polled = s.polled := by
  cases hmoves with
  | barrier => exact ⟨rfl, rfl, rfl, rfl⟩
  | write place w => cases place <;> exact ⟨rfl, rfl, rfl, rfl⟩
  | read place next =>
    cases place with
    | wantBell r =>
      cases hasks : asks (s.memory (.wantBell r)) with
      | true =>
        rw [read_wanted hasks]
        exact ⟨rfl, rfl, rfl, rfl⟩
      | false =>
        rw [read_unwanted hasks]
        exact ⟨rfl, rfl, rfl, rfl⟩
    | tail | head | submission | completion => exact ⟨rfl, rfl, rfl, rfl⟩

variable [NeZero n] {world world' : World n}

lemma new_honest (hattached : Attached cfg memory) : Honest cfg (World.new n cfg memory) := by
  have h : Inv cfg (World.new n cfg memory).shared := new_inv hattached
  refine ⟨h, ?_, ?_, ⟨prefix_rfl, le_rfl⟩, prefix_rfl, le_rfl⟩
  · refine ⟨⟨h, ⟨rfl, rfl, rfl⟩, ⟨rfl, 0, rfl, le_rfl, le_rfl⟩⟩,
      ⟨Table.new_kept _, min_le_left _ _, rfl, rfl, ?_⟩, rfl, rfl, rfl⟩
    change List.Perm [] ([] ++ OpenAddressing.contents fun _ : Fin n => (none : Option Submission))
    rw [OpenAddressing.contents_empty]
    exact List.Perm.refl _
  · exact ⟨⟨h, ⟨rfl, rfl, rfl⟩, ⟨rfl, 0, rfl, le_rfl, le_rfl⟩⟩, ⟨rfl, rfl, rfl, List.Perm.refl _⟩,
      ⟨0, rfl, le_rfl, Nat.zero_le _⟩, rfl, rfl, rfl⟩

abbrev PollsInOrder (cfg : Setting) (s : Shared) : Prop :=
  s.polled <+: s.answers.map (Answer.judged cfg.device) ∧
    s.polled.length ≤ s.heads .completions

abbrev ConsumesInOrder (s : Shared) : Prop :=
  s.consumed <+: s.sent ∧ s.consumed.length ≤ s.heads .submissions

variable {s : Shared}

lemma polled_of_driver (ha : Acts cfg .driver s s') (hpolled : PollsInOrder cfg s) :
    PollsInOrder cfg s' := by
  obtain ⟨-, hsame, hmore, -⟩ := ha.respects
  rw [PollsInOrder, hsame,
    show s'.heads .completions = s.heads .completions from ha.fills.heads]
  exact ⟨hpolled.1.trans (hmore.map _), hpolled.2⟩

lemma consumed_of_kernel (ha : Acts cfg .kernel s s') (hconsumed : ConsumesInOrder s) :
    ConsumesInOrder s' := by
  obtain ⟨hsame, -, -, hmore, -⟩ := ha.respects
  rw [ConsumesInOrder, hsame,
    show s'.heads .submissions = s.heads .submissions from ha.fills.heads]
  exact ⟨hconsumed.1.trans hmore, hconsumed.2⟩

lemma polled_of_kernel {thread thread' : Thread (KernelSide n) KernelWork}
    (hadvances : Advances (kernelRole n) .kernel thread s thread' s')
    (hacts : Acts cfg .kernel s s') (hthread : ThreadAt cfg .kernel (KernelAt cfg) thread' s')
    (hpolled : PollsInOrder cfg s) : PollsInOrder cfg s' := by
  have hheads : s.heads .completions ≤ s'.heads .completions := hacts.takes.heads
  cases hadvances with
  | call => exact hpolled
  | access hmoves =>
    obtain ⟨-, -, hanswers, hsame⟩ := moves_history hmoves
    rw [PollsInOrder, hsame, hanswers]
    exact ⟨hpolled.1, hpolled.2.trans hheads⟩
  | answer =>
    refine ⟨?_, hthread.books.counted.le⟩
    rw [hthread.books.polled]
    exact (List.take_prefix _ _).map _

lemma consumed_of_driver {thread thread' : Thread DriverSide DriverWork}
    (hadvances : Advances (driverRole cfg.device) .driver thread s thread' s')
    (hacts : Acts cfg .driver s s') (hthread : ThreadAt cfg .driver (DriverAt cfg) thread' s')
    (hconsumed : ConsumesInOrder s) : ConsumesInOrder s' := by
  have hheads : s.heads .submissions ≤ s'.heads .submissions := hacts.takes.heads
  cases hadvances with
  | call => exact hconsumed
  | access hmoves =>
    obtain ⟨hsent, hsame, -, -⟩ := moves_history hmoves
    rw [ConsumesInOrder, hsame, hsent]
    exact ⟨hconsumed.1, hconsumed.2.trans hheads⟩
  | answer =>
    refine ⟨?_, hthread.holdings.counted.le⟩
    rw [hthread.holdings.consumed]
    exact List.take_prefix _ _

lemma step_honest (hhonest : Honest cfg world) (hs : Step cfg world world') :
    Honest cfg world' := by
  cases hs with
  | kernel hadvances =>
    obtain ⟨hacts, hthread⟩ := advances_keeps hhonest.inv (fun _ _ hat => hat.producer.quiet)
      (fun call _ _ _ hat _ => kernel_spec hat call) hhonest.kernel hadvances
    exact ⟨hacts.inv, hthread, threadAt_lasts driverAt_lasts _ _ _ hhonest.driver hacts,
      consumed_of_kernel hacts hhonest.consumed,
      polled_of_kernel hadvances hacts hthread hhonest.polled⟩
  | driver hadvances =>
    obtain ⟨hacts, hthread⟩ := advances_keeps hhonest.inv (fun _ _ hat => hat.producer.quiet)
      (fun call _ _ _ hat hpermits => driver_spec hat call hpermits) hhonest.driver hadvances
    exact ⟨hacts.inv, threadAt_lasts kernelAt_lasts _ _ _ hhonest.kernel hacts, hthread,
      consumed_of_driver hadvances hacts hthread hhonest.consumed,
      polled_of_driver hacts hhonest.polled⟩

lemma run_honest (hattached : Attached cfg memory)
    (hrun : ReflTransGen (Step cfg) (World.new n cfg memory) world) :
    Honest cfg world := by
  induction hrun with
  | refl => exact new_honest hattached
  | tail _ hs ih => exact step_honest ih hs

end

/-- Neither side sees anything wrong, and each takes what the other published, unchanged, once and
in order; what was published when a call began is taken if the call finds nothing. -/
structure Faithful {n : Nat} [NeZero n] (cfg : Setting) (world : World n) : Prop where
  kernel : ∀ side, world.kernel = .idle side → side.corruption = none
  driver : ∀ side, world.driver = .idle side → side.fault = none
  kernelFair : ∀ call reply side, world.kernel = .busy call (.done (reply, side)) →
    reply.Fair .kernel world.shared
  driverFair : ∀ call reply side, world.driver = .busy call (.done (reply, side)) →
    reply.Fair .driver world.shared
  consumed : world.shared.consumed <+:
    world.shared.sent.take (world.shared.published .submissions)
  polled : world.shared.polled <+: (world.shared.answers.take
    (world.shared.published .completions)).map (Answer.judged cfg.device)

/-- Whatever the two sides do, in whatever order, with indices that start anywhere. -/
theorem run_faithful {n : Nat} [NeZero n] {cfg : Setting}
    {memory : (place : Place) → Word place} (hattached : Attached cfg memory) {world : World n}
    (hrun : ReflTransGen (Step cfg) (World.new n cfg memory) world) :
    Faithful cfg world := by
  have hhonest := run_honest hattached hrun
  refine ⟨fun side hidle => ?_, fun side hidle => ?_, fun call reply side hbusy => ?_,
    fun call reply side hbusy => ?_, ?_, ?_⟩
  · have hthread := hhonest.kernel
    rw [hidle] at hthread
    exact corruption_of_live hthread.fixed.live
  · have hthread := hhonest.driver
    rw [hidle] at hthread
    exact hthread.fixed.sane
  · have hthread := hhonest.kernel
    rw [hbusy] at hthread
    exact hthread.1.done.fair
  · have hthread := hhonest.driver
    rw [hbusy] at hthread
    exact hthread.1.done.fair
  · exact prefix_take_iff.mpr
      ⟨hhonest.consumed.1, hhonest.consumed.2.trans (hhonest.inv.taken .submissions)⟩
  · rw [map_take]
    exact prefix_take_iff.mpr
      ⟨hhonest.polled.1, hhonest.polled.2.trans (hhonest.inv.taken .completions)⟩

/-- A ring of two entries whose submission indices are about to wrap. -/
def cfg : Setting where
  layout := HostileDriver.layout
  device := HostileDriver.device
  start
    | .submissions => 2 ^ 32 - 1
    | .completions => 0

def memory (place : Place) : Word place :=
  match place with
  | .tail ring | .head ring => cfg.index ring 0
  | .wantBell _ => (0 : BitVec 32)
  | .submission _ field => match field with
    | .id | .sector | .dataOffset => (0 : BitVec 64)
    | .count => (0 : BitVec 32)
    | .op | .flags => (0 : BitVec 8)
    | .reserved => (0 : BitVec 16)
  | .completion _ field => match field with
    | .id | .bytesDone => (0 : BitVec 64)
    | .status | .deviceTicks => (0 : BitVec 32)

lemma memory_attached : Attached cfg memory := fun _ => ⟨rfl, rfl⟩

lemma kernel_alone {n : Nat} [NeZero n] {cfg : Setting} {world : World n} (call : Call KernelWork)
    (code : Code (Reply × KernelSide n)) (hbusy : world.kernel = .busy call code) :
    ReflTransGen (Step cfg) world { world with
      kernel := .idle (code.alone view world.shared).1.2
      shared := record .kernel (code.alone view world.shared).1.1
        (code.alone view world.shared).2 } := by
  obtain ⟨shared, kernel, driver⟩ := world
  obtain rfl : kernel = .busy call code := hbusy
  exact ReflTransGen.lift (p := Step cfg)
    (fun here : Thread (KernelSide n) KernelWork × Shared => ⟨here.2, here.1, driver⟩)
    (fun _ _ hadvances => .kernel hadvances) _ _
    (advances_alone (kernelRole n) .kernel call code shared)

lemma driver_alone {n : Nat} [NeZero n] {cfg : Setting} {world : World n} (call : Call DriverWork)
    (code : Code (Reply × DriverSide)) (hbusy : world.driver = .busy call code) :
    ReflTransGen (Step cfg) world { world with
      driver := .idle (code.alone view world.shared).1.2
      shared := record .driver (code.alone view world.shared).1.1
        (code.alone view world.shared).2 } := by
  obtain ⟨shared, kernel, driver⟩ := world
  obtain rfl : driver = .busy call code := hbusy
  exact ReflTransGen.lift (p := Step cfg)
    (fun here : Thread DriverSide DriverWork × Shared => ⟨here.2, kernel, here.1⟩)
    (fun _ _ hadvances => .driver hadvances) _ _
    (advances_alone (driverRole cfg.device) .driver call code shared)

/-- A flush is submitted and published past the wrap while the driver looks for it; the driver takes
and completes it and publishes the completion, which the kernel polls. -/
theorem run_faithful_flush : ∃ world : World 2,
    world.shared.consumed = [.flush 7] ∧ world.shared.published .completions = 1 ∧
      world.shared.polled.length = 1 ∧ Faithful cfg world := by
  have hlooks : ReflTransGen (Step cfg) (World.new 2 cfg memory) _ :=
    .single (.driver (.call _ (.work DriverWork.consume) _ trivial))
  have hsubmits := hlooks.tail (.kernel (.call _ (.work (.submit (.flush 7))) _ trivial))
  have hstaged := hsubmits.trans (kernel_alone _ _ rfl)
  have hpublishes := hstaged.tail (.kernel (.call _ .publish _ trivial))
  have htail := hpublishes.tail (.kernel (.access (.write _ _ _ _)))
  have hconsumed := htail.trans (driver_alone _ _ rfl)
  have hpublished := hconsumed.trans (kernel_alone _ _ rfl)
  have hcompletes := hpublished.tail (.driver (.call _ (.work (.complete ⟨.flush 7, .ok, 0, 0⟩)) _
    (by unfold driverRole; exact ⟨by decide +kernel, Nat.zero_le _⟩)))
  have hcompleted := hcompletes.trans (driver_alone _ _ rfl)
  have hanswers := hcompleted.tail (.driver (.call _ .publish _ trivial))
  have hanswered := hanswers.trans (driver_alone _ _ rfl)
  have hpolls := hanswered.tail (.kernel (.call _ (.work .poll) _ trivial))
  have hpolled := hpolls.trans (kernel_alone _ _ rfl)
  exact ⟨_, rfl, rfl, rfl, run_faithful memory_attached hpolled⟩

/-- A side that sleeps has taken everything published, or a bell was rung for it since it asked for
one, unless the other side is still inside `publish`. -/
theorem run_wakes {n : Nat} [NeZero n] {cfg : Setting}
    {memory : (place : Place) → Word place} (hattached : Attached cfg memory) {world : World n}
    (hrun : ReflTransGen (Step cfg) (World.new n cfg memory) world) (ring : Ring)
    (hasleep : world.shared.asleep ring = true) (hquiet : ¬world.Publishing (producer ring)) :
    world.shared.heads ring = world.shared.published ring ∨ world.shared.rung ring = true := by
  have hhonest := run_honest hattached hrun
  have hringing : world.shared.ringing ring = false := by
    cases ring with
    | submissions =>
      exact ringing_eq_false (fun _ _ hat => hat.producer.quiet) hhonest.kernel hquiet
    | completions =>
      exact ringing_eq_false (fun _ _ hat => hat.producer.quiet) hhonest.driver hquiet
  rcases (hhonest.inv.wake ring hasleep).2 with h | h | h
  · exact .inl h
  · exact .inr h
  · rw [hringing] at h
    cases h

theorem run_wakes_flush : ∃ world : World 2, world.shared.published .submissions = 1 ∧
    world.shared.heads .submissions = 0 ∧ world.shared.asleep .submissions = true ∧
    (world.shared.heads .submissions = world.shared.published .submissions ∨
      world.shared.rung .submissions = true) := by
  have hasks : ReflTransGen (Step cfg) (World.new 2 cfg memory) _ :=
    .single (.driver (.call _ .prepareToSleep _ trivial))
  have hsubmits := hasks.tail (.kernel (.call _ (.work (.submit (.flush 7))) _ trivial))
  have hsleeps := hsubmits.trans (driver_alone _ _ rfl)
  have hstaged := hsleeps.trans (kernel_alone _ _ rfl)
  have hpublishes := hstaged.tail (.kernel (.call _ .publish _ trivial))
  have hrings := hpublishes.trans (kernel_alone _ _ rfl)
  refine ⟨_, rfl, rfl, rfl, run_wakes memory_attached hrings .submissions rfl ?_⟩
  rintro ⟨code, hcode⟩
  cases hcode

end Ferrix.BlockRing.HonestRuns

import Ferrix.Block.QueueRuns

/-!
Keys and sequence numbers go round after `2 ^ 64` submissions.  A write left in its epoch until
then is overwritten by the next unit of its key.
-/

namespace Ferrix.Block.Wraparound

open Foundations Words SortedMaps SortedMap Requests Epochs
open Relation Epochs.Epoch RequestQueue Custody QueueRuns

def limits : Limits where
  logicalBlockSize := 512
  capacity := 100
  maxSectors := 8
  maxParts := 8
  queueDepth := 4
  isBlockSize := ⟨9, by decide⟩
  capacity_lt := by decide
  maxSectors_pos := by decide
  maxSectors_lt := by decide
  maxParts_pos := by decide
  maxParts_lt := by decide
  queueDepth_pos := by decide
  queueDepth_lt := by decide

def config : Config := ⟨0, 1, 0, 8, by decide⟩

def kept : IoUnit := .single .write ⟨0, 0, 1, ⟨false, false⟩, 0, 1, 0⟩ false

def waiting : Epoch := (default : Epoch).insert 0 kept

def stage (key token : Nat) : Queue where
  limits := limits
  config := config
  epochs := [waiting]
  firstEpoch := 0
  inFlight := ∅
  outstanding := {0}
  queued := 1
  head := 9
  plugged := false
  nextToken := token
  nextKey := key
  nextSeq := key

def reader (seq : Nat) : Part := ⟨1, 8, 1, ⟨false, false⟩, 0, 0, seq⟩

def reading (seq : Nat) : IoUnit := .single .read (reader seq) false

def submitted (key token : Nat) : Queue :=
  { stage (wrappingAdd 64 key 1) token with
    epochs := [waiting.insert key (reading key)]
    outstanding := {1, 0}
    queued := 2 }

def launched (key token : Nat) : Queue :=
  { stage (wrappingAdd 64 key 1) (token + 1) with
    epochs := [{ waiting with inFlight := 1 }]
    inFlight := (∅ : SortedMap Nat InFlight).insert token ⟨0, false, reading key⟩
    outstanding := {1, 0} }

lemma stage_submit (k t : Nat) :
    (stage (k + 1) t).submit 0 (.read 1 8 1) = (.ok (), submitted (k + 1) t) := rfl

lemma without_insert {epoch : Epoch} {key : Nat} (hindexed : epoch.Indexed)
    (hfresh : epoch.units.get? key = none) (u : IoUnit) :
    (epoch.insert key u).without key u = epoch := by
  have hi : ∀ {i : Index} {p : IoUnit → Nat}, i.Lists epoch.units p →
      i.get? (toLex (p u, key)) = none := by
    intro i p hlists
    rw [Option.eq_none_iff_forall_ne_some]
    rintro ⟨⟩ hsome
    obtain ⟨o, ho, -⟩ := (hlists _ _).mp hsome
    rw [hfresh] at ho
    cases ho
  rw [Epoch.insert, Epoch.without]
  simp only [Index.add, Index.remove]
  rw [erase_insert (hi hindexed.starts), erase_insert (hi hindexed.ends),
    erase_insert (hi hindexed.deadlines), erase_insert hfresh]

lemma waiting_without (k : Nat) (u : IoUnit) :
    (waiting.insert (k + 1) u).without (k + 1) u = waiting :=
  without_insert (indexed_default.insert (get?_empty 0)) rfl u

lemma submitted_takeNext (k t : Nat) : (submitted (k + 1) t).takeNext 0 =
    (some (reading (k + 1), false), { submitted (k + 1) t with
      epochs := [{ waiting with inFlight := 1 }] }) := by
  have hu : (waiting.insert (k + 1) (reading (k + 1))).units.get? (k + 1) =
      some (reading (k + 1)) := by
    rw [Epoch.insert, get?_insert, if_pos rfl]
  have hepochs : (submitted (k + 1) t).epochs =
      [waiting.insert (k + 1) (reading (k + 1))] := rfl
  have hpick : (waiting.insert (k + 1) (reading (k + 1))).pick (submitted (k + 1) t).head 0 =
      some (k + 1) := rfl
  have hunits : (waiting.insert (k + 1) (reading (k + 1))).hasUnits = true := rfl
  rw [Queue.takeNext, hepochs]
  dsimp only
  rw [if_pos hunits, hpick]
  dsimp only
  rw [remove_of_get hu, waiting_without]
  rfl

lemma submitted_dispatch {k t : Nat} (htoken : t + 1 < 2 ^ 64) :
    (submitted (k + 1) t).dispatch 0 =
      (some ⟨t, .read, 8, 1, false, [reader (k + 1)]⟩, launched (k + 1) t) := by
  have hplugged : (submitted (k + 1) t).plugged = false := rfl
  have hroom : ¬ (submitted (k + 1) t).limits.queueDepth ≤ (submitted (k + 1) t).inFlight.size :=
    Nat.not_succ_le_zero _
  have hnext : checkedAdd 64 (submitted (k + 1) t).nextToken 1 = some (t + 1) :=
    checkedAdd_eq_some.mpr ⟨htoken, rfl⟩
  rw [Queue.dispatch, hplugged, Bool.false_and, if_neg Bool.false_ne_true, if_neg hroom, hnext]
  dsimp only
  rw [submitted_takeNext]
  rfl

lemma launched_complete (k t : Nat) : (launched k t).complete t () =
    (.ok ⟨.read, 8, 1, (), [reader k]⟩, stage (wrappingAdd 64 k 1) (t + 1)) := by
  have hg : (launched k t).inFlight.get? t = some ⟨0, false, reading k⟩ := by
    rw [launched, get?_insert, if_pos rfl]
  rw [Queue.complete, Queue.takeFlight, hg]
  dsimp only
  rw [show (launched k t).inFlight.erase t = ∅ from erase_insert (get?_empty t)]
  rfl

/-- A run in which the queue passes the write by, as far as one number. -/
structure Passed (number : Nat) (world : World) : Prop where
  run : ReflTransGen (Step Unit) (World.new limits config) world
  queue : world.queue = stage (number % 2 ^ 64) (number - 3)
  accepted : world.accepted.head? = some (.write 0 0 1)
  answered : ∀ part ∈ world.answered, part.id ≠ 0

lemma passed_four : ∃ w, Passed 4 w := by
  have hwrite : ReflTransGen (Step Unit) (World.new limits config) _ :=
    .single (.submit 0 (.write 0 0 1) rfl)
  have hreads := ((hwrite.tail (.submit 0 (.read 1 6 1) rfl)).tail
    (.submit 0 (.read 2 7 1) rfl)).tail (.submit 0 (.read 3 8 1) rfl)
  have hdispatch := hreads.tail (.dispatch 0 rfl)
  have hcomplete := hdispatch.tail (.complete 0 () rfl)
  exact ⟨_, hcomplete, rfl, rfl, by decide⟩

lemma Passed.round {n : Nat} {w : World} (hpassed : Passed n w)
    (hfour : 4 ≤ n) (hb : n < 2 ^ 64) : ∃ w', Passed (n + 1) w' := by
  obtain ⟨hrun, hqueue, haccepted, hanswered⟩ := hpassed
  rw [Nat.mod_eq_of_lt hb] at hqueue
  obtain ⟨k, rfl⟩ : ∃ k, n = k + 1 := ⟨n - 1, by omega⟩
  obtain ⟨t, htoken⟩ : ∃ t, k + 1 - 3 = t := ⟨_, rfl⟩
  obtain ⟨q, accepted, answered, returned, tokens⟩ := w
  dsimp only at hqueue haccepted hanswered
  subst hqueue
  rw [htoken] at hrun
  have hsubmit := hrun.tail (.submit 0 (.read 1 8 1) (stage_submit k t))
  have hdispatch := hsubmit.tail (.dispatch 0 (submitted_dispatch (by omega)))
  have hcomplete := hdispatch.tail (.complete t () (launched_complete (k + 1) t))
  refine ⟨_, hcomplete, ?_, ?_, ?_⟩
  · change stage (wrappingAdd 64 (k + 1) 1) (t + 1) = _
    rw [wrappingAdd, show t + 1 = k + 1 + 1 - 3 by omega]
  · change (accepted ++ [_]).head? = _
    rw [List.head?_append, haccepted]
    rfl
  · exact List.forall_mem_append.mpr ⟨hanswered, List.forall_mem_singleton.mpr Nat.one_ne_zero⟩

lemma passed_all : ∃ w, Passed (2 ^ 64) w := by
  have h : ∀ n, 4 ≤ n → n ≤ 2 ^ 64 → ∃ w, Passed n w := by
    intro n hfour
    induction n, hfour using Nat.le_induction with
    | base => exact fun _ => passed_four
    | succ n hfour ih =>
      intro hb
      obtain ⟨w, hpassed⟩ := ih (by omega)
      exact hpassed.round hfour hb
  exact h (2 ^ 64) (by norm_num) le_rfl

lemma discarded : ∃ accepted answered returned tokens,
    ReflTransGen (Step Unit) (World.new limits config)
      ⟨((stage 0 (2 ^ 64 - 3)).submit 0 (.discard 1 0 1)).2, accepted ++ [.discard 1 0 1], answered,
        returned, tokens⟩ ∧
      accepted.head? = some (.write 0 0 1) ∧ ∀ part ∈ answered, part.id ≠ 0 := by
  obtain ⟨⟨queue, accepted, answered, returned, tokens⟩, hrun, hqueue, haccepted, hanswered⟩ :=
    passed_all
  rw [Nat.mod_self] at hqueue
  subst hqueue
  exact ⟨accepted, answered, returned, tokens, hrun.tail (.submit 0 (.discard 1 0 1) rfl),
    haccepted, hanswered⟩

end Ferrix.Block.Wraparound

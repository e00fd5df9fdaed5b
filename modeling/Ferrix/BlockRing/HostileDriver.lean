import Ferrix.BlockRing.Kernel

/-!
The kernel's end against a memory that answers every read with any value.
-/

namespace Ferrix.BlockRing.HostileDriver

open Relation Foundations Accesses OpenAddressing Layout Indices Kernel List

inductive Event
  | over
  | reset
deriving DecidableEq

structure Account (n : Nat) where
  side : KernelSide n
  accepted : List Submission
  polled : List Completed
  drained : List Submission
  first : Option Corruption
  events : List Event

namespace Account

variable {n : Nat} [NeZero n]

def new (layout : RingLayout) (device : Device) (submissions completions : BitVec 32) :
    Account n where
  side :=
    { layout, device
      submissions := ⟨submissions, submissions, submissions⟩
      completions := ⟨completions, completions, false⟩
      table := .new n layout.entries
      phase := .running }
  accepted := []
  polled := []
  drained := []
  first := none
  events := []

def report (account : Account n) (corruption : Corruption) : Account n :=
  { account with
    first := account.first.or (some corruption)
    events := account.events ++ [.over] }

end Account

inductive Step {n : Nat} [NeZero n] (account : Account n) : Account n → Prop
  | submit (submission : Submission)
      (hruns : Runs (account.side.submit submission) places (.ok (), side)) :
      Step account { account with side, accepted := account.accepted ++ [submission] }
  | refuse (submission : Submission)
      (hruns : Runs (account.side.submit submission) places (.error error, side)) :
      Step account { account with side }
  | publish (hruns : Runs account.side.publish places (bell, side)) :
      Step account { account with side }
  | poll (hruns : Runs account.side.poll places (.ok (some completed), side)) :
      Step account { account with side, polled := account.polled ++ [completed] }
  | pollNone (hruns : Runs account.side.poll places (.ok none, side)) :
      Step account { account with side }
  | pollCorrupt (hruns : Runs account.side.poll places (.error corruption, side)) :
      Step account ({ account with side }.report corruption)
  | sleep (hruns : Runs account.side.prepareToSleep places (.ok wait, side)) :
      Step account { account with side }
  | sleepCorrupt (hruns : Runs account.side.prepareToSleep places (.error corruption, side)) :
      Step account ({ account with side }.report corruption)
  | woke (hruns : Runs account.side.woke places side) : Step account { account with side }
  | stop : Step account { account with side := account.side.stop }
  | finish (ending : Ending) (count : Nat) :
      Step account { account with
        side := { account.side.finish ending with
          table := (KernelSide.drain account.side.table 0 count).2 }
        drained := account.drained ++ (KernelSide.drain account.side.table 0 count).1
        events := account.events ++ [.over] }
  | confirmReset :
      Step account { account with
        side := account.side.confirmReset.2
        events := account.events ++ [.reset] }

structure Kept {n : Nat} [NeZero n] (account : Account n) : Prop where
  once : account.accepted.Perm (account.polled.map Completed.submission ++ account.drained ++
    contents account.side.table.slots)
  table : account.side.phase.isLive → account.side.table.Kept
  first : account.first = account.side.corruption
  ended : account.side.phase.isLive = false → .over ∈ account.events
  reset : account.side.dataVmo = .releasable → ∃ before after,
    account.events = before ++ .reset :: after ∧ .over ∈ before

variable {corruption : Corruption} {completed : Completed} {raw : RawCompletion} {sub : Submission}

section

variable {n : Nat} {side side' : KernelSide n} {places : List Place}

lemma publish_runs {bell : Option Doorbell} (hruns : Runs side.publish places (bell, side')) :
    ∃ submissions, side' = { side with submissions } := by
  rw [KernelSide.publish] at hruns
  split_ifs at hruns
  · obtain ⟨l, r, ⟨found, submissions⟩, -, hr, -⟩ := runs_bind hruns
    cases (runs_done.mp hr).2
    exact ⟨submissions, rfl⟩
  · cases (runs_done.mp hruns).2
    exact ⟨side.submissions, rfl⟩

lemma woke_runs (hruns : Runs side.woke places side') :
    ∃ completions, side' = { side with completions } := by
  rw [KernelSide.woke] at hruns
  split_ifs at hruns
  · obtain ⟨l, r, completions, -, hr, -⟩ := runs_bind hruns
    cases (runs_done.mp hr).2
    exact ⟨completions, rfl⟩
  · cases (runs_done.mp hruns).2
    exact ⟨side.completions, rfl⟩

def Corrupts (side : KernelSide n) (corruption : Corruption) (side' : KernelSide n) : Prop :=
  side.phase.isLive = true ∧ (∃ completions,
      side' = { side with completions, phase := .ended (.corrupt corruption) }) ∨
    side.corruption = some corruption ∧ side' = side

lemma prepareToSleep_runs {answer : Except Corruption Wait}
    (hruns : Runs side.prepareToSleep places (answer, side')) :
    (∃ wait completions, answer = .ok wait ∧ side' = { side with completions }) ∨
      ∃ corruption, answer = .error corruption ∧ Corrupts side corruption side' := by
  rw [KernelSide.prepareToSleep] at hruns
  split_ifs at hruns with hlive
  · obtain ⟨before, after, ⟨wait, completions⟩, -, hrest, -⟩ := runs_bind hruns
    cases wait with
    | error corruption =>
      cases (runs_done.mp hrest).2
      exact .inr ⟨corruption, rfl, .inl ⟨hlive, completions, rfl⟩⟩
    | ok wait =>
      cases (runs_done.mp hrest).2
      exact .inl ⟨wait, completions, rfl, rfl⟩
  · split at hruns
    · rename_i corruption hcorruption
      cases (runs_done.mp hruns).2
      exact .inr ⟨corruption, rfl, .inr ⟨hcorruption, rfl⟩⟩
    · cases (runs_done.mp hruns).2
      exact .inl ⟨.sleep, side.completions, rfl, rfl⟩

variable [NeZero n] {answer : Except Corruption (Option Completed)}

lemma submit_runs {answer : Except SubmitError Unit}
    (hruns : Runs (side.submit sub) places (answer, side')) :
    (∃ e, answer = .error e ∧ side' = side) ∨
      answer = .ok () ∧ side.phase = .running ∧ ∃ table, side.table.insert sub = .ok table ∧
        side' = { side with table, submissions := side.submissions.stage } := by
  rw [KernelSide.submit] at hruns
  split at hruns
  · cases (runs_done.mp hruns).2
    exact .inl ⟨_, rfl, rfl⟩
  · split_ifs at hruns with hphase
    · cases (runs_done.mp hruns).2
      exact .inl ⟨_, rfl, rfl⟩
    · split at hruns
      · cases (runs_done.mp hruns).2
        exact .inl ⟨_, rfl, rfl⟩
      · rename_i checked hcheck
        obtain rfl := checkSubmission_raw hcheck
        split at hruns
        · cases (runs_done.mp hruns).2
          exact .inl ⟨_, rfl, rfl⟩
        · rename_i table hinsert
          obtain ⟨l, r, _, -, hr, -⟩ := runs_bind hruns
          cases (runs_done.mp hr).2
          exact .inr ⟨rfl, not_not.mp hphase, table, hinsert, rfl⟩

lemma poll_ended (hlive : side.phase.isLive = false)
    (hcorruption : side.corruption = some corruption)
    (hruns : Runs side.poll places (answer, side')) :
    answer = .error corruption ∧ places = [] ∧ side' = side := by
  rw [KernelSide.poll, if_neg (by simp [hlive]),
    show side.phase.corruption = some corruption from hcorruption] at hruns
  obtain ⟨rfl, h⟩ := runs_done.mp hruns
  cases h
  exact ⟨rfl, rfl, rfl⟩

lemma poll_runs (hruns : Runs side.poll places (answer, side')) :
    (answer = .ok none ∧ ∃ completions, side' = { side with completions }) ∨
      (∃ corruption, answer = .error corruption ∧ Corrupts side corruption side') ∨
      ∃ raw completed completions, answer = .ok (some completed) ∧ side.phase.isLive = true ∧
        side.judge raw = .ok completed ∧
        side' = { side with completions, table := (side.table.remove raw.id).2 } := by
  rw [KernelSide.poll] at hruns
  split_ifs at hruns with hlive
  · obtain ⟨before, after, ⟨pending, completions⟩, -, hrest, -⟩ := runs_bind hruns
    cases pending with
    | error corruption =>
      cases (runs_done.mp hrest).2
      exact .inr (.inl ⟨corruption, rfl, .inl ⟨hlive, completions, rfl⟩⟩)
    | ok pending =>
      simp only [KernelSide.check] at hrest
      split_ifs at hrest
      · cases (runs_done.mp hrest).2
        exact .inl ⟨rfl, completions, rfl⟩
      · obtain ⟨before, after, raw, -, hrest, -⟩ := runs_bind hrest
        rw [show KernelSide.judge { side with completions } raw = side.judge raw from rfl] at hrest
        cases hjudge : side.judge raw with
        | error corruption =>
          rw [hjudge] at hrest
          cases (runs_done.mp hrest).2
          exact .inr (.inl ⟨corruption, rfl, .inl ⟨hlive, completions, rfl⟩⟩)
        | ok completed =>
          rw [hjudge] at hrest
          obtain ⟨before, after, advanced, -, hrest, -⟩ := runs_bind hrest
          cases (runs_done.mp hrest).2
          exact .inr (.inr ⟨raw, completed, advanced, rfl, hlive, hjudge, rfl⟩)
  · split at hruns
    · rename_i corruption hcorruption
      cases (runs_done.mp hruns).2
      exact .inr (.inl ⟨corruption, rfl, .inr ⟨hcorruption, rfl⟩⟩)
    · cases (runs_done.mp hruns).2
      exact .inl ⟨rfl, side.completions, rfl⟩

/-- A completion that passes names an outstanding submission and claims no more than its payload;
a write or flush that is reported done was reported in full. -/
theorem judge_ok
    (hjudge : side.judge raw = .ok completed) : side.table.find raw.id = some completed.submission ∧
      completed.bytesDone.toNat ≤ side.device.payloadLen completed.submission.count ∧
      (completed.submission.op ≠ .read → completed.status = .ok →
        completed.bytesDone.toNat = side.device.payloadLen completed.submission.count) := by
  rw [KernelSide.judge] at hjudge
  cases hfind : side.table.find raw.id with
  | none => simp [hfind] at hjudge
  | some sub =>
    cases hstatus : Status.fromRaw raw.status with
    | none => simp [hfind, hstatus] at hjudge
    | some status =>
      simp only [hfind, hstatus] at hjudge
      split_ifs at hjudge with hlarge hshort
      · cases hjudge
        refine ⟨rfl, not_lt.mp hlarge, fun _ h => ?_⟩
        cases h
      · cases hjudge
        refine ⟨rfl, not_lt.mp hlarge, fun hop hok => ?_⟩
        simp only [Bool.and_eq_true, decide_eq_true_eq, not_and, not_lt] at hshort
        exact le_antisymm (not_lt.mp hlarge) (hshort hok hop)

variable {account account' : Account n}

section

variable (hkept : Kept account) {side : KernelSide n}
include hkept

lemma Kept.sameTable
    (htable : side.table = account.side.table) (hphase : side.phase = account.side.phase) :
    Kept { account with side } := by
  constructor
  · change account.accepted.Perm (_ ++ _ ++ contents side.table.slots)
    rw [htable]
    exact hkept.once
  · intro hlive
    rw [htable]
    rw [hphase] at hlive
    exact hkept.table hlive
  · change account.first = side.phase.corruption
    rw [hphase]
    exact hkept.first
  · intro hlive
    rw [hphase] at hlive
    exact hkept.ended hlive
  · intro hvmo
    rw [KernelSide.dataVmo, hphase] at hvmo
    exact hkept.reset hvmo

omit hkept in
lemma reset_append {es : List Event} (e : Event)
    (hreset : ∃ l r, es = l ++ .reset :: r ∧ .over ∈ l) :
    ∃ l r, es ++ [e] = l ++ .reset :: r ∧ .over ∈ l := by
  obtain ⟨l, r, rfl, hover⟩ := hreset
  exact ⟨l, r ++ [e], by simp, hover⟩

lemma Kept.corrupt (hcorrupts : Corrupts account.side corruption side) :
    Kept ({ account with side }.report corruption) := by
  rcases hcorrupts with ⟨hlive, completions, rfl⟩ | ⟨hcorruption, rfl⟩
  · have hf : account.first = none := hkept.first.trans (corruption_of_live hlive)
    refine ⟨hkept.once, fun h => (by cases h), ?_, fun _ => ?_, fun h => (by cases h)⟩
    · change account.first.or (some corruption) = some corruption
      rw [hf]
      rfl
    · exact mem_append_right _ mem_cons_self
  · refine ⟨hkept.once, hkept.table, ?_, fun h => ?_, fun h => ?_⟩
    · change account.first.or (some corruption) = account.side.corruption
      rw [hkept.first, hcorruption]
      rfl
    · exact mem_append_left _ (hkept.ended h)
    · exact reset_append .over (hkept.reset h)

lemma Kept.poll (hlive : account.side.phase.isLive = true) (completions : Consumer)
    (hjudge : account.side.judge raw = .ok completed) : Kept { account with
      side := { account.side with completions, table := (account.side.table.remove raw.id).2 }
      polled := account.polled ++ [completed] } := by
  obtain ⟨htable, hperm, -⟩ := Table.remove_found (hkept.table hlive) (judge_ok hjudge).1
  refine ⟨?_, fun _ => htable, hkept.first, hkept.ended, hkept.reset⟩
  refine hkept.once.trans ?_
  dsimp only
  rw [map_append, map_singleton]
  refine (hperm.append_left _).trans ?_
  rw [append_assoc, append_assoc, append_assoc]
  exact List.Perm.append_left _ perm_middle

lemma Kept.finish (ending : Ending) (count : Nat) : Kept { account with
      side := { account.side.finish ending with
        table := (KernelSide.drain account.side.table 0 count).2 }
      drained := account.drained ++ (KernelSide.drain account.side.table 0 count).1
      events := account.events ++ [.over] } := by
  have hdead : (account.side.finish ending).phase.isLive = false := by
    unfold KernelSide.finish
    split_ifs with hlive
    · rfl
    · simpa using hlive
  refine ⟨?_, fun h => ?_, ?_, fun _ => ?_, fun h => ?_⟩
  · refine hkept.once.trans ?_
    refine ((KernelSide.drain_perm _ 0 count).append_left _).trans ?_
    simp only [append_assoc]
    exact List.Perm.refl _
  · change (account.side.finish ending).phase.isLive = true at h
    rw [hdead] at h
    cases h
  · change account.first = (account.side.finish ending).phase.corruption
    rw [hkept.first]
    unfold KernelSide.finish
    split_ifs with hlive
    · rw [KernelSide.corruption, corruption_of_live hlive]
      cases ending <;> rfl
    · rfl
  · exact mem_append_right _ mem_cons_self
  · refine reset_append .over (hkept.reset ?_)
    unfold KernelSide.finish at h
    split_ifs at h
    · cases h
    · exact h

lemma Kept.confirmReset : Kept { account with
      side := account.side.confirmReset.2
      events := account.events ++ [.reset] } := by
  rcases account with ⟨⟨layout, device, submissions, completions, table, phase⟩, accepted, polled,
    drained, first, es⟩
  cases phase with
  | running | stopping =>
    exact ⟨hkept.once, hkept.table, hkept.first, fun h => (by cases h), fun h => (by cases h)⟩
  | ended reason | resetConfirmed reason =>
    refine ⟨hkept.once, fun h => (by cases h), hkept.first.trans ?_, fun h => ?_, fun h => ?_⟩
    · cases reason <;> rfl
    · exact mem_append_left _ (hkept.ended rfl)
    · exact ⟨es, [], rfl, hkept.ended rfl⟩

lemma Kept.submit (hphase : account.side.phase = .running) {table : Table n}
    (hinsert : account.side.table.insert sub = .ok table) : Kept { account with
      side := { account.side with table, submissions := account.side.submissions.stage }
      accepted := account.accepted ++ [sub] } := by
  obtain ⟨htable, hperm, -⟩ := Table.insert_ok (hkept.table (by rw [hphase]; rfl)) hinsert
  refine ⟨?_, fun _ => htable, hkept.first, hkept.ended, hkept.reset⟩
  refine (perm_append_singleton _ _).trans ?_
  refine (hkept.once.cons sub).trans ?_
  refine perm_middle.symm.trans ?_
  exact List.Perm.append_left _ hperm.symm

lemma step_kept (hs : Step account account') : Kept account' := by
  cases hs with
  | submit sub hruns =>
    rcases submit_runs hruns with ⟨e, h, -⟩ | ⟨-, hphase, table, hinsert, rfl⟩
    · cases h
    · exact hkept.submit hphase hinsert
  | refuse sub hruns =>
    rcases submit_runs hruns with ⟨e, -, rfl⟩ | ⟨h, -⟩
    · exact hkept
    · cases h
  | publish hruns =>
    obtain ⟨submissions, rfl⟩ := publish_runs hruns
    exact hkept.sameTable rfl rfl
  | woke hruns =>
    obtain ⟨completions, rfl⟩ := woke_runs hruns
    exact hkept.sameTable rfl rfl
  | poll hruns =>
    rcases poll_runs hruns with ⟨h, -⟩ | ⟨corruption, h, -⟩ |
      ⟨raw, completed, completions, h, hlive, hjudge, rfl⟩
    · cases h
    · cases h
    · cases h
      exact hkept.poll hlive completions hjudge
  | pollNone hruns =>
    rcases poll_runs hruns with ⟨-, completions, rfl⟩ | ⟨corruption, h, -⟩ |
      ⟨raw, completed, completions, h, -⟩
    · exact hkept.sameTable rfl rfl
    · cases h
    · cases h
  | pollCorrupt hruns =>
    rcases poll_runs hruns with ⟨h, -⟩ | ⟨corruption, h, hcorrupts⟩ |
      ⟨raw, completed, completions, h, -⟩
    · cases h
    · cases h
      exact hkept.corrupt hcorrupts
    · cases h
  | sleep hruns =>
    rcases prepareToSleep_runs hruns with ⟨wait, completions, -, rfl⟩ | ⟨corruption, h, -⟩
    · exact hkept.sameTable rfl rfl
    · cases h
  | sleepCorrupt hruns =>
    rcases prepareToSleep_runs hruns with ⟨wait, completions, h, -⟩ | ⟨corruption, h, hcorrupts⟩
    · cases h
    · cases h
      exact hkept.corrupt hcorrupts
  | stop =>
    rw [KernelSide.stop]
    split_ifs with hphase
    · exact ⟨hkept.once, fun _ => hkept.table (by rw [hphase]; rfl),
        hkept.first.trans (by rw [KernelSide.corruption, hphase]; rfl), fun h => (by cases h),
        fun h => (by cases h)⟩
    · exact hkept
  | finish ending count => exact hkept.finish ending count
  | confirmReset => exact hkept.confirmReset

end

lemma new_kept (layout : RingLayout) (device : Device) (submissions completions : BitVec 32) :
    Kept (Account.new layout device submissions completions : Account n) := by
  refine ⟨?_, fun _ => Table.new_kept _, rfl, fun h => (by cases h), fun h => (by cases h)⟩
  change List.Perm [] ([] ++ [] ++ contents fun _ => none)
  rw [contents_empty]
  exact List.Perm.refl _

lemma run_kept {layout : RingLayout} {device : Device} {submissions completions : BitVec 32}
    (hrun : ReflTransGen Step
      (Account.new layout device submissions completions) account) :
    Kept account := by
  induction hrun with
  | refl => exact new_kept layout device submissions completions
  | tail _ hs ih => exact step_kept ih hs

/-- What a hostile driver cannot make the kernel's end do. -/
structure Contained {n : Nat} [NeZero n] (account : Account n) : Prop where
  once : account.accepted.Perm (account.polled.map Completed.submission ++ account.drained ++
    contents account.side.table.slots)
  drains : ∀ count, n ≤ count →
    (KernelSide.drain account.side.table 0 count).1.Perm (contents account.side.table.slots) ∧
      contents (KernelSide.drain account.side.table 0 count).2.slots = []
  polls : ∀ places completed side, Runs account.side.poll places (.ok (some completed), side) →
    completed.submission ∈ contents account.side.table.slots ∧
      completed.bytesDone.toNat ≤ account.side.device.payloadLen completed.submission.count ∧
      (completed.submission.op ≠ .read → completed.status = .ok →
        completed.bytesDone.toNat = account.side.device.payloadLen completed.submission.count)
  corrupted : ∀ corruption, account.first = some corruption → ∀ places answer side,
    Runs account.side.poll places (answer, side) →
      answer = .error corruption ∧ places = [] ∧ side = account.side
  released : account.side.dataVmo = .releasable → ∃ before after,
    account.events = before ++ .reset :: after ∧ .over ∈ before

lemma Kept.contained (hkept : Kept account) : Contained account := by
  refine ⟨hkept.once, fun count hn => ?_, ?_, ?_, hkept.reset⟩
  · have he : contents (KernelSide.drain account.side.table 0 count).2.slots = [] := by
      refine KernelSide.drain_all (fun p hp => absurd hp (Nat.not_lt_zero _)) (le_trans ?_ hn)
      exact (length_filterMap_le _ _).trans (length_finRange).le
    have hperm := KernelSide.drain_perm account.side.table 0 count
    rw [he, append_nil] at hperm
    exact ⟨hperm.symm, he⟩
  · intro places completed side hruns
    rcases poll_runs hruns with ⟨h, -⟩ | ⟨corruption, h, -⟩ |
      ⟨raw, found, completions, h, hlive, hjudge, -⟩
    · cases h
    · cases h
    · cases h
      obtain ⟨hfind, hlarge, hshort⟩ := judge_ok hjudge
      exact ⟨((Table.find_eq_some (hkept.table hlive)).mp hfind).1, hlarge, hshort⟩
  · intro corruption hf places answer side hruns
    have hcorruption : account.side.corruption = some corruption := hkept.first ▸ hf
    refine poll_ended ?_ hcorruption hruns
    cases hlive : account.side.phase.isLive with
    | false => rfl
    | true =>
      rw [KernelSide.corruption, corruption_of_live hlive] at hcorruption
      cases hcorruption

/-- Whatever is read from the ring, and whatever calls are made, nothing gets out of hand. -/
theorem run_contained {layout : RingLayout} {device : Device} {submissions completions : BitVec 32}
    (hrun : ReflTransGen Step
      (Account.new layout device submissions completions) account) :
    Contained account := (run_kept hrun).contained

end

def layout : RingLayout := ⟨2, 64, 128, by decide, by decide, by decide⟩

def device : Device := ⟨512, 8, 2, 0, 1024, by decide, by decide, by decide, by decide⟩

/-- Two flushes are outstanding when the driver dies; the drain is dropped early and taken up
again, and the reset is confirmed. -/
theorem run_contained_flushes : ∃ account : Account 2, account.drained.length = 2 ∧
    account.side.dataVmo = .releasable ∧ Contained account := by
  have hfirst : ReflTransGen Step (Account.new layout device 0 0 : Account 2) _ :=
    .single (.submit (.flush 7)
      (.write (.write (.write (.write (.write (.write (.write (.done _)))))))))
  have hsecond := hfirst.tail (.submit (.flush 8)
    (.write (.write (.write (.write (.write (.write (.write (.done _)))))))))
  have hfinish := (hsecond.tail (.finish .driverDied 1)).tail (.finish .stopped 1)
  exact ⟨_, by decide, rfl, run_contained (hfinish.tail .confirmReset)⟩

end Ferrix.BlockRing.HostileDriver

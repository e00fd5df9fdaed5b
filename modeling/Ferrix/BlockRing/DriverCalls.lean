import Ferrix.BlockRing.Threads

/-!
The driver completes what it holds.  That its completions fit the ring follows from the kernel's
bound on what is outstanding.
-/

namespace Ferrix.BlockRing.DriverCalls

open Foundations Words Accesses Layout Indices Driver SharedRing RingEnds Threads List
open Function

inductive DriverWork
  | consume
  | complete (answer : Answer)

/-- The calls of the driver; it completes only what it holds, with no more bytes than were asked
for. -/
def driverRole (device : Device) : Role DriverSide DriverWork where
  code call side :=
    match call with
    | .work .consume => Prod.map Reply.consumed id <$> side.consume
    | .work (.complete answer) => Prod.map (Reply.completed answer) id <$>
        side.completeTimed answer.submission.id answer.status answer.bytesDone answer.deviceTicks
    | .publish => Prod.map Reply.published id <$> side.publish
    | .prepareToSleep => Prod.map Reply.waited id <$> side.prepareToSleep
    | .woke => (fun side => (.woken, side)) <$> side.woke
  permits s call :=
    match call with
    | .work (.complete answer) => answer.submission ∈ s.holding ∧
        answer.bytesDone.toNat ≤ device.payloadLen answer.submission.count
    | .work .consume | .publish | .prepareToSleep | .woke => True

/-- What the driver holds is what it consumed and has not completed. -/
structure Holdings (held : Nat) (s : Shared) : Prop where
  held : held = s.holding.length
  counted : s.consumed.length = s.heads .submissions
  consumed : s.consumed = s.sent.take (s.heads .submissions)
  books : s.consumed.Perm (s.answers.map Answer.submission ++ s.holding)

/-- The head the driver read last, with room for some more completions behind it. -/
def Watches (cfg : Setting) (producer : Producer) (room : Nat) (s : Shared) : Prop :=
  ∃ head, producer.observedHead = cfg.index .completions head ∧
    head ≤ s.heads .completions ∧ s.answers.length + room ≤ head + cfg.layout.entries

structure Fixed (cfg : Setting) (side : DriverSide) : Prop where
  layout : side.layout = cfg.layout
  device : side.device = cfg.device
  sane : side.fault = none

structure DriverAt (cfg : Setting) (side : DriverSide) (s : Shared) : Prop extends
    Ends cfg .driver side.completions side.submissions s where
  holdings : Holdings side.held s
  watches : Watches cfg side.completions 0 s
  fixed : Fixed cfg side

section

variable {cfg : Setting} {side : DriverSide} {held : Nat} {s s' : Shared}

lemma Holdings.taken (hholdings : Holdings held s) : s.heads .submissions ≤ s.sent.length := by
  have hlen := congrArg List.length hholdings.consumed
  rw [hholdings.counted, length_take] at hlen
  omega

lemma holdings_lasts (held : Nat) : Lasts cfg .driver (Holdings held) := by
  intro s s' hholdings ha
  obtain ⟨hconsumed, hholding, hanswers, ⟨more, hsent⟩, -, -⟩ := ha.respects
  have hheads : s'.heads .submissions = s.heads .submissions := ha.fills.heads
  constructor
  · rw [hholding]
    exact hholdings.held
  · rw [hconsumed, hheads]
    exact hholdings.counted
  · rw [hconsumed, hheads, ← hsent, take_append_of_le_length hholdings.taken]
    exact hholdings.consumed
  · rw [hconsumed, hanswers, hholding]
    exact hholdings.books

lemma watches_lasts (producer : Producer) (room : Nat) :
    Lasts cfg .driver (Watches cfg producer room) := by
  rintro s s' ⟨head, hhead, hle, hroom⟩ ha
  refine ⟨head, hhead, hle.trans ha.takes.heads, ?_⟩
  rw [ha.respects.2.2.1]
  exact hroom

lemma driverAt_lasts (side : DriverSide) : Lasts cfg .driver (DriverAt cfg side) :=
  fun s s' hat ha => ⟨ends_lasts _ _ s s' hat.toEnds ha,
    holdings_lasts _ s s' hat.holdings ha, watches_lasts _ _ s s' hat.watches ha, hat.fixed⟩

lemma Holdings.length (hholdings : Holdings held s) :
    s.answers.length + held = s.heads .submissions := by
  have hlen := hholdings.books.length_eq
  rw [hholdings.counted, length_append, length_map, ← hholdings.held] at hlen
  exact hlen.symm

lemma Holdings.fits (hholdings : Holdings held s) (h : Inv cfg s) :
    s.answers.length + held ≤ s.heads .completions + cfg.layout.entries := by
  have hlen := hholdings.length
  have htaken := hholdings.taken
  have hroom := h.room
  omega

end

variable {answer : Answer}

variable {cfg : Setting} {side : DriverSide} {s : Shared} {held : Nat}

abbrev DriverReturns (cfg : Setting) : Reply × DriverSide → Shared → Prop :=
  Returns cfg .driver (DriverAt cfg)

lemma since_lasts : Lasts cfg .driver fun s =>
    s.since .driver ≤ s.published .submissions := by
  intro s s' hsince ha
  rw [ha.respects.2.2.2.2.1]
  exact hsince.trans ha.fills.published

lemma consumed_since_lasts : Lasts cfg .driver fun s =>
    s.since .driver ≤ s.consumed.length := by
  intro s s' hsince ha
  rw [ha.respects.2.2.2.2.1, ha.respects.1]
  exact hsince

lemma submission_lasts (sub : Submission) : Lasts cfg .driver fun s =>
    s.sent[s.heads .submissions]? = some sub := by
  intro s s' hsubmission ha
  obtain ⟨more, hmore⟩ := ha.respects.2.2.2.1
  have hheads : s'.heads .submissions = s.heads .submissions := ha.fills.heads
  rw [← hmore, hheads, List.getElem?_append_left (List.getElem?_eq_some_iff.mp hsubmission).1]
  exact hsubmission

lemma holding_lasts (sub : Submission) : Lasts cfg .driver fun s =>
    sub ∈ s.holding := by
  intro s s' hh ha
  rw [ha.respects.2.1]
  exact hh

lemma acts_consumed {s' : Shared} (sub : Submission) (ha : Acts cfg .kernel s s') :
    Acts cfg .kernel (record .driver (.consumed (.ok (some (.request sub)))) s)
      (record .driver (.consumed (.ok (some (.request sub)))) s') := by
  obtain ⟨h, hfills, htakes, hconsumed, hholding, hr⟩ := ha
  exact ⟨{ h with }, { hfills with }, { htakes with }, congrArg (· ++ [sub]) hconsumed,
    congrArg (· ++ [sub]) hholding, hr⟩

lemma consumed_acts (h : Inv cfg s) (sub : Submission) :
    Acts cfg .driver s (record .driver (.consumed (.ok (some (.request sub)))) s) :=
  ⟨{ h with }, ⟨rfl, rfl, rfl, rfl, le_rfl, fun _ h => h⟩, ⟨rfl, rfl, rfl, le_rfl⟩,
    rfl, rfl, prefix_rfl, rfl, fun _ _ => rfl⟩

lemma Holdings.consume (hholdings : Holdings held s) {sub : Submission}
    (hsubmission : s.sent[s.heads .submissions]? = some sub) (w : BitVec 32) :
    Holdings (held + 1) (record .driver (.consumed (.ok (some (.request sub))))
      (view.write s (.head .submissions) w)) := by
  have hheads : (view.write s (.head .submissions) w).heads .submissions =
      s.heads .submissions + 1 := by
    rw [heads_write, update_self]
  constructor
  · change held + 1 = (s.holding ++ [sub]).length
    rw [length_append, ← hholdings.held]
    rfl
  · change (s.consumed ++ [sub]).length = (view.write s (.head .submissions) w).heads .submissions
    rw [hheads, length_append, hholdings.counted]
    rfl
  · change s.consumed ++ [sub] =
      s.sent.take ((view.write s (.head .submissions) w).heads .submissions)
    rw [hheads, take_add_one, hsubmission, ← hholdings.consumed]
    rfl
  · change (s.consumed ++ [sub]).Perm (s.answers.map Answer.submission ++ (s.holding ++ [sub]))
    rw [← append_assoc]
    exact hholdings.books.append_right _

lemma completed_acts (h : Inv cfg s) (hholdings : Holdings held s)
    (hh : answer.submission ∈ s.holding)
    (hbytes : answer.bytesDone.toNat ≤ cfg.device.payloadLen answer.submission.count)
    (hhas : Has view (answer.raw.words (cfg.slot .completions s.answers.length)) s) :
    Acts cfg .driver s (record .driver (.completed answer (.ok ())) s) := by
  have hlen := hholdings.length
  have hpos : 0 < held := by
    rw [hholdings.held]
    exact length_pos_of_mem hh
  refine ⟨⟨h.tails, h.indices, h.taken, fun ring => ?_, ?_, h.room,
    fun ring i hi => ?_, ?_, h.checked, ?_, h.wake⟩,
    ⟨rfl, rfl, rfl, rfl, le_rfl, fun _ h => h⟩, ⟨rfl, rfl, rfl, le_rfl⟩,
    rfl, rfl, prefix_append _ _, rfl, fun _ _ => rfl⟩
  · cases ring with
    | submissions => exact h.visible .submissions
    | completions =>
      change s.published .completions ≤ (s.answers ++ [answer]).length
      rw [length_append, length_singleton]
      exact (h.visible .completions).trans (Nat.le_succ _)
  · change (s.answers ++ [answer]).length ≤ s.heads .submissions
    rw [length_append, length_singleton]
    omega
  · cases ring with
    | submissions => exact h.filled .submissions i hi
    | completions =>
      refine has_concat (h.filled .completions i hi) ?_
      rintro rfl
      exact hhas
  · change List.Subperm ((s.answers ++ [answer]).map _) (s.sent.take (s.heads .submissions))
    rw [← hholdings.consumed, map_append]
    refine List.Subperm.trans ?_ hholdings.books.symm.subperm
    exact (subperm_append_left _).mpr (singleton_subperm_iff.mpr hh)
  · exact forall_mem_append.mpr ⟨h.honest, forall_mem_singleton.mpr hbytes⟩

lemma Holdings.complete (hholdings : Holdings held s) (hh : answer.submission ∈ s.holding) :
    Holdings (held - 1) (record .driver (.completed answer (.ok ())) s) := by
  refine ⟨?_, hholdings.counted, hholdings.consumed, ?_⟩
  · change held - 1 = (s.holding.erase answer.submission).length
    rw [length_erase_of_mem hh, ← hholdings.held]
  · change s.consumed.Perm ((s.answers ++ [answer]).map Answer.submission ++
      s.holding.erase answer.submission)
    rw [map_append, append_assoc]
    exact hholdings.books.trans ((perm_cons_erase hh).append_left _)

lemma nodup_words (raw : RawCompletion) (slot : Nat) :
    ((raw.words slot).map Sigma.fst).Nodup := by
  simp [RawCompletion.words]

structure Rest (cfg : Setting) (side : DriverSide) (s : Shared) : Prop where
  holdings : Holdings side.held s
  watches : Watches cfg side.completions 0 s

lemma rest_lasts (side : DriverSide) : Lasts cfg .driver (Rest cfg side) :=
  fun s s' hr ha => ⟨holdings_lasts _ s s' hr.holdings ha, watches_lasts _ _ s s' hr.watches ha⟩

lemma rest_recalls (side : DriverSide) : Recalls (Rest cfg side) := by
  rintro ⟨⟩ ⟨⟩ hr hpast
  obtain ⟨rfl, rfl, rfl, rfl, rfl, rfl⟩ := hpast
  exact ⟨{ hr.holdings with }, hr.watches⟩

variable (hat : DriverAt cfg side s)
include hat

lemma begun_at (c : Call DriverWork) : DriverAt cfg side (begun .driver c s) := by
  have ha : Acts cfg .driver s (begun .driver c s) := begun_acts hat.inv c
  exact ⟨⟨ha.inv, { hat.producer with }, { hat.consumer with }⟩, { hat.holdings with },
    hat.watches, hat.fixed⟩

lemma consume_takes (hpending : s.heads .submissions < s.published .submissions)
    (hseen : side.submissions.observedTail = cfg.index .submissions (s.published .submissions))
    {refuse : RawSubmission → InvalidSubmission →
      Code (Except Corruption (Option Consumed) × DriverSide)} :
    Answers cfg .driver (DriverAt cfg) false .consumed (do
        let raw ← RawSubmission.readFrom (side.layout.slot side.submissions.head)
        match checkSubmission raw side.device with
        | .ok r =>
          let submissions ← side.submissions.advance .submissions
          return (.ok (some (.request r)),
            { side with submissions, held := saturatingAdd 64 side.held 1 })
        | .error reason => refuse raw reason) s := by
  have hvisible : s.published .submissions ≤ s.sent.length := hat.inv.visible .submissions
  obtain ⟨sub, hsubmission⟩ : ∃ sub, s.sent[s.heads .submissions]? = some sub :=
    ⟨_, List.getElem?_eq_getElem (hpending.trans_le hvisible)⟩
  have hsees : Sees 1 cfg .driver side.submissions s :=
    ⟨hat.consumer.head, _, hseen, hpending, le_rfl⟩
  have hlasts : Lasts cfg .driver fun s => (DriverAt cfg side s ∧
      Sees 1 cfg .driver side.submissions s) ∧
      s.sent[s.heads .submissions]? = some sub :=
    ((driverAt_lasts side).and (sees_lasts side.submissions)).and (submission_lasts sub)
  have hhas : ∀ s, (DriverAt cfg side s ∧ Sees 1 cfg .driver side.submissions s) ∧
      s.sent[s.heads .submissions]? = some sub →
      Has view (sub.raw.words (side.layout.slot side.submissions.head)) s := by
    rintro s ⟨⟨hat, hsees⟩, hsubmission⟩
    have hfilled := hat.inv.filled .submissions (s.heads .submissions) le_rfl
    rw [Shared.words, hsubmission] at hfilled
    rw [hsees.head, hat.fixed.layout, slot_index]
    exact hfilled
  refine readSubmission_spec hlasts ⟨⟨hat, hsees⟩, hsubmission⟩ (fun s h => h.1.1.inv) hhas ?_
  rintro s ⟨⟨hat, hsees⟩, hsubmission⟩
  have hchecked : checkSubmission sub.raw side.device = .ok sub := by
    rw [hat.fixed.device]
    exact hat.inv.checked sub (mem_of_getElem? hsubmission)
  rw [hchecked]
  refine advance_spec hat.inv hsees ⟨hat, hsubmission⟩
    ((driverAt_lasts side).and (submission_lasts sub)) ?_
  rintro s s' submissions rfl ⟨hat, hsubmission⟩ h hconsumer
  have hh : saturatingAdd 64 side.held 1 = side.held + 1 := by
    have hfits := hat.holdings.fits hat.inv
    have hentries := entries_lt cfg
    have htaken := (hat.inv.taken .completions).trans (hat.inv.visible .completions)
    change _ ≤ s.answers.length at htaken
    exact saturatingAdd_of_lt (by omega)
  have hlasts' : Lasts cfg .driver fun s => Inv cfg s ∧ DriverAt cfg
      { side with submissions, held := saturatingAdd 64 side.held 1 }
      (record .driver (.consumed (.ok (some (.request sub)))) s) :=
    fun s s' h ha => ⟨ha.inv, driverAt_lasts _ _ _ h.2 (acts_consumed _ ha)⟩
  refine holds_done hlasts' ⟨h, ⟨(consumed_acts h _).inv, { hat.producer with },
    { hconsumer with }⟩, ?_, ?_, hat.fixed.layout, hat.fixed.device, hat.fixed.sane⟩
    fun s h => ⟨consumed_acts h.1 _, h.2, .inl ⟨_, rfl⟩⟩
  · rw [hh]
    exact hat.holdings.consume hsubmission _
  · obtain ⟨head, hhead, hle, hroom⟩ := hat.watches
    refine ⟨head, hhead, ?_, hroom⟩
    change head ≤ update s.heads .submissions (s.heads .submissions + 1) .completions
    exact hle

lemma consume_spec (hsince : s.since .driver ≤ s.published .submissions) :
    Answers cfg .driver (DriverAt cfg) false .consumed side.consume s := by
  obtain ⟨layout, device, submissions, completions, held, fault⟩ := side
  obtain rfl : layout = cfg.layout := hat.fixed.layout
  obtain rfl : fault = none := hat.fixed.sane
  rw [DriverSide.consume]
  refine pending_spec ((driverAt_lasts _).and since_lasts) ⟨hat, hsince⟩
    (fun s h => h.1.inv) (fun s h => h.1.consumer) fun s ⟨hat, hsince⟩ => ?_
  have hnear : DriverAt cfg ⟨cfg.layout, device, { submissions with
      observedTail := cfg.index .submissions (s.published .submissions) }, completions, held,
      none⟩ s :=
    ⟨⟨hat.inv, hat.producer, ⟨hat.consumer.head, _, rfl, hat.inv.taken _, le_rfl⟩⟩, hat.holdings,
      hat.watches, rfl, hat.fixed.device, rfl⟩
  have hpending : BitVec.ofNat 32 (s.published .submissions - s.heads .submissions) ≠ 0 ↔
      s.heads .submissions < s.published .submissions :=
    (pending_ne_zero hat.inv : _ ↔ s.heads Side.driver.consumes < _)
  dsimp only [DriverSide.check]
  split_ifs with hzero
  · have hnone : s.since .driver ≤ s.consumed.length := by
      rw [hat.holdings.counted]
      exact hsince.trans (not_lt.mp fun hlt => hpending.mpr hlt hzero)
    exact holds_done ((driverAt_lasts _).and consumed_since_lasts) ⟨hnear, hnone⟩
      fun s h => ⟨acts_refl h.1.inv, h.1, .inr ⟨rfl, h.2⟩⟩
  · exact consume_takes hnear (hpending.mp hzero) rfl

lemma observeHead_ok : side.completions.observeHead (s.memory (.head .completions)) =
      (.ok (BitVec.ofNat 32 (s.answers.length - s.heads .completions)),
        { side.completions with
          observedHead := cfg.index .completions (s.heads .completions) }) := by
  obtain ⟨head, hhead, hle, hroom⟩ := hat.watches
  have hentries := entries_lt cfg
  have htaken := hat.inv.taken .completions
  have hvisible : s.published .completions ≤ s.answers.length := hat.inv.visible .completions
  have hpublished : side.completions.published =
      cfg.index .completions (s.published .completions) := hat.producer.published
  have htail : side.completions.tail = cfg.index .completions s.answers.length :=
    hat.producer.tail
  have hnot : ¬side.completions.published - side.completions.observedHead <
      side.completions.published - cfg.index .completions (s.heads .completions) := by
    rw [hhead, hpublished, index_sub htaken, index_sub (hle.trans htaken), BitVec.lt_def,
      BitVec.toNat_ofNat, BitVec.toNat_ofNat, Nat.mod_eq_of_lt (by omega),
      Nat.mod_eq_of_lt (by omega)]
    omega
  rw [hat.inv.indices, Producer.observeHead, if_neg hnot, htail,
    index_sub (htaken.trans hvisible), ← htail]

lemma complete_writes (hh : answer.submission ∈ s.holding)
    (hbytes : answer.bytesDone.toNat ≤ cfg.device.payloadLen answer.submission.count)
    (hwatches : Watches cfg side.completions 1 s) :
    Answers cfg .driver (DriverAt cfg) false (.completed answer) (do
        answer.raw.writeTo (side.layout.slot side.completions.tail) return (.ok (), { side with
          completions := side.completions.stage
          held := side.held - 1 })) s := by
  have hlasts : Lasts cfg .driver fun s => (DriverAt cfg side s ∧
      Watches cfg side.completions 1 s) ∧ answer.submission ∈ s.holding :=
    ((driverAt_lasts side).and (watches_lasts _ _)).and (holding_lasts _)
  have hslot : ∀ s, DriverAt cfg side s → cfg.slot .completions s.answers.length =
      side.layout.slot side.completions.tail := by
    intro s hat
    rw [hat.producer.tail, hat.fixed.layout, slot_index]
    rfl
  have howned : ∀ w ∈ answer.raw.words (side.layout.slot side.completions.tail),
      entryOf w.1 = some (Side.driver.produces, side.layout.slot side.completions.tail) :=
    fun _ => entryOf_rawCompletion
  refine writeEntry_spec hlasts ⟨⟨hat, hwatches⟩, hh⟩ (fun s h => h.1.1.inv)
    (fun s h => hslot s h.1.1) ?_ ?_ howned (nodup_words _ _)
    fun s h hhas => holds_done (hlasts.and (has_lasts howned)) ⟨h, hhas⟩ ?_
  · rintro s ⟨⟨-, head, -, hle, hroom⟩, -⟩
    change s.answers.length < s.heads .completions + _
    omega
  · exact fun s m ⟨⟨hat, hwatches⟩, hh⟩ hi => ⟨⟨⟨⟨hi, { hat.producer with },
      { hat.consumer with }⟩, { hat.holdings with }, hat.watches, hat.fixed⟩, hwatches⟩, hh⟩
  · rintro s ⟨⟨⟨hat, hwatches⟩, hh⟩, hhas⟩
    rw [← hslot s hat] at hhas
    have ha := completed_acts hat.inv hat.holdings hh hbytes hhas
    refine ⟨ha, ⟨⟨ha.inv, ⟨?_, hat.producer.published, hat.producer.quiet⟩,
      { hat.consumer with }⟩, hat.holdings.complete hh, ?_,
      hat.fixed.layout, hat.fixed.device, hat.fixed.sane⟩, rfl⟩
    · change side.completions.tail + 1 = cfg.index .completions (s.answers ++ [answer]).length
      rw [hat.producer.tail, index_succ, length_append, length_singleton]
      rfl
    · obtain ⟨head, hhead, hle, hroom⟩ := hwatches
      refine ⟨head, hhead, hle, ?_⟩
      change (s.answers ++ [answer]).length + 0 ≤ _
      rw [length_append, length_singleton]
      exact hroom

lemma complete_spec (hh : answer.submission ∈ s.holding)
    (hbytes : answer.bytesDone.toNat ≤ cfg.device.payloadLen answer.submission.count) :
    Answers cfg .driver (DriverAt cfg) false (.completed answer)
      (side.completeTimed answer.submission.id answer.status answer.bytesDone answer.deviceTicks)
      s := by
  obtain ⟨layout, device, submissions, completions, held, fault⟩ := side
  obtain rfl : layout = cfg.layout := hat.fixed.layout
  obtain rfl : fault = none := hat.fixed.sane
  have hpos : held ≠ 0 := by
    have hn : held = s.holding.length := hat.holdings.held
    rw [hn]
    exact (length_pos_of_mem hh).ne'
  change Spec cfg .driver false _ (if held = 0 then _ else _) s
  rw [if_neg hpos]
  refine holds_read ((driverAt_lasts _).and (holding_lasts _)) ⟨hat, hh⟩
    fun s ⟨hat, hh⟩ => ⟨Does.refl hat.inv, ?_⟩
  have hfits := hat.holdings.fits hat.inv
  have hentries := entries_lt cfg
  have htaken : s.heads .completions ≤ s.answers.length :=
    (hat.inv.taken .completions).trans (hat.inv.visible .completions)
  have hroom : ¬cfg.layout.entries < saturatingAdd 64
      (BitVec.ofNat 32 (s.answers.length - s.heads .completions)).toNat held := by
    dsimp only at hfits
    rw [BitVec.toNat_ofNat, Nat.mod_eq_of_lt (by omega), saturatingAdd_of_lt (by omega)]
    omega
  have hok : completions.observeHead (view.look s (.head .completions)) = _ := observeHead_ok hat
  dsimp only [Access.bind]
  rw [hok]
  dsimp only
  rw [if_neg hroom]
  change Spec cfg .driver false _ (_ >>= _ >>= _) s
  have hat' : DriverAt cfg ⟨cfg.layout, device, submissions, { completions with
      observedHead := cfg.index .completions (s.heads .completions) }, held, none⟩ s :=
    ⟨⟨hat.inv, { hat.producer with }, hat.consumer⟩,
      hat.holdings, ⟨_, rfl, le_rfl, hat.inv.staged_le .completions⟩, rfl, hat.fixed.device, rfl⟩
  refine complete_writes hat' hh hbytes ⟨_, rfl, le_rfl, ?_⟩
  dsimp only at hfits
  omega

lemma DriverAt.rest : Rest cfg side s := ⟨hat.holdings, hat.watches⟩

lemma publish_fair : Answers cfg .driver (DriverAt cfg) true .published side.publish s := by
  obtain ⟨layout, device, submissions, completions, held, fault⟩ := side
  obtain rfl : fault = none := hat.fixed.sane
  rw [DriverSide.publish]
  exact publish_returns hat.toEnds hat.rest (rest_lasts _) (rest_recalls _)
    fun s bell completions hobserved ha hends hr hflushed =>
      have ⟨head, hhead, hroom⟩ := hr.watches
      ⟨ha, ⟨hends, hr.holdings, ⟨head, hobserved.trans hhead, hroom⟩, { hat.fixed with }⟩, hflushed⟩

lemma prepareToSleep_fair (hawake : s.asleep .submissions = false) :
    Answers cfg .driver (DriverAt cfg) false .waited side.prepareToSleep s := by
  obtain ⟨layout, device, submissions, completions, held, fault⟩ := side
  obtain rfl : layout = cfg.layout := hat.fixed.layout
  obtain rfl : fault = none := hat.fixed.sane
  exact prepareToSleep_returns hat.toEnds hat.rest (rest_lasts _) (rest_recalls _) hawake
    fun s wait submissions ha hends hr =>
    ⟨ha, ⟨hends, hr.holdings, hr.watches, { hat.fixed with }⟩, wait, rfl⟩

lemma woke_fair (hawake : s.asleep .submissions = false) :
    Spec cfg .driver false (fun side => DriverReturns cfg (.woken, side)) side.woke s := by
  obtain ⟨layout, device, submissions, completions, held, fault⟩ := side
  obtain rfl : fault = none := hat.fixed.sane
  exact woke_returns hat.toEnds hat.rest (rest_lasts _) (rest_recalls _) hawake
    fun s submissions hends hr =>
    ⟨acts_refl hends.inv, ⟨hends, hr.holdings, hr.watches, { hat.fixed with }⟩, trivial⟩

lemma driver_spec (c : Call DriverWork) (hpermits : (driverRole cfg.device).permits s c) :
    Spec cfg .driver c.loud (DriverReturns cfg)
      ((driverRole cfg.device).code c side) (begun .driver c s) := by
  have hbegun := begun_at hat c
  have hsince : (begun .driver c s).since .driver ≤ s.published .submissions :=
    (begun_since .driver c s).le
  cases c with
  | publish => exact holds_map (publish_fair hbegun)
  | prepareToSleep =>
    exact holds_map (prepareToSleep_fair hbegun (prepareToSleep_awake _ .driver s))
  | woke => exact holds_map (woke_fair hbegun (woke_awake _ .driver s))
  | work own =>
    cases own with
    | consume => exact holds_map (consume_spec hbegun hsince)
    | complete answer => exact holds_map (complete_spec hbegun hpermits.1 hpermits.2)

end Ferrix.BlockRing.DriverCalls

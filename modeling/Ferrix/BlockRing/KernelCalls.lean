import Ferrix.BlockRing.Threads

/-!
The kernel never reads the submission head.  That a slot it writes is free follows from its table:
what it has sent and not polled fits the ring.
-/

namespace Ferrix.BlockRing.KernelCalls

open Foundations Accesses OpenAddressing Layout Kernel SharedRing RingEnds Threads List
open KernelSide

inductive KernelWork
  | submit (submission : Submission)
  | poll
  | stop

/-- The calls of the kernel, any of them at any time. -/
def kernelRole (n : Nat) [NeZero n] : Role (KernelSide n) KernelWork where
  code call side :=
    match call with
    | .work (.submit submission) =>
      Prod.map (Reply.submitted submission) id <$> side.submit submission
    | .work .poll => Prod.map Reply.polled id <$> side.poll
    | .work .stop => return (.stopped, side.stop)
    | .publish => Prod.map Reply.published id <$> side.publish
    | .prepareToSleep => Prod.map Reply.waited id <$> side.prepareToSleep
    | .woke => (fun side => (.woken, side)) <$> side.woke
  permits _ _ := True

/-- What the kernel remembers is what it sent and has not polled. -/
structure Books {n : Nat} [NeZero n] (cfg : Setting) (table : Table n) (s : Shared) : Prop where
  kept : table.Kept
  limit : table.limit ≤ cfg.layout.entries
  counted : s.polled.length = s.heads .completions
  polled : s.polled = (s.answers.take (s.heads .completions)).map (Answer.judged cfg.device)
  sent : s.sent.Perm (s.polled.map Completed.submission ++ contents table.slots)

structure Fixed {n : Nat} (cfg : Setting) (side : KernelSide n) : Prop where
  layout : side.layout = cfg.layout
  device : side.device = cfg.device
  live : side.phase.isLive = true

structure KernelAt {n : Nat} [NeZero n] (cfg : Setting) (side : KernelSide n) (s : Shared) :
    Prop extends Ends cfg .kernel side.submissions side.completions s where
  books : Books cfg side.table s
  fixed : Fixed cfg side

variable {answer : Answer}

section

variable {n : Nat} [NeZero n] {cfg : Setting} {side : KernelSide n} {table : Table n}
  {s s' : Shared}

lemma Books.taken (hbooks : Books cfg table s) : s.heads .completions ≤ s.answers.length := by
  have hlen := congrArg List.length hbooks.polled
  rw [hbooks.counted, length_map, length_take] at hlen
  omega

lemma books_lasts (table : Table n) : Lasts cfg .kernel (Books cfg table) := by
  intro s s' hbooks ha
  obtain ⟨hsent, hpolled, ⟨more, hanswers⟩, -, -⟩ := ha.respects
  have hheads : s'.heads .completions = s.heads .completions := ha.fills.heads
  refine ⟨hbooks.kept, hbooks.limit, ?_, ?_, ?_⟩
  · rw [hpolled, hheads]
    exact hbooks.counted
  · rw [hpolled, hheads, ← hanswers, take_append_of_le_length hbooks.taken]
    exact hbooks.polled
  · rw [hsent, hpolled]
    exact hbooks.sent

lemma books_recalls (table : Table n) : Recalls (Books cfg table) := by
  rintro ⟨⟩ ⟨⟩ hbooks hpast
  obtain ⟨rfl, rfl, rfl, rfl, rfl, rfl⟩ := hpast
  exact { hbooks with }

lemma kernelAt_lasts (side : KernelSide n) : Lasts cfg .kernel (KernelAt cfg side) :=
  fun s s' hat ha => ⟨ends_lasts _ _ s s' hat.toEnds ha, books_lasts _ s s' hat.books ha, hat.fixed⟩

lemma Books.sent_length (hbooks : Books cfg table s) :
    s.sent.length = s.heads .completions + table.len := by
  have hlen := hbooks.sent.length_eq
  rw [length_append, length_map, hbooks.counted, ← hbooks.kept.counted] at hlen
  exact hlen

lemma Books.outstanding (hbooks : Books cfg table s) (h : Inv cfg s)
    (hanswer : s.answers[s.heads .completions]? = some answer) :
    table.find answer.submission.id = some answer.submission := by
  have hsubmissions : s.polled.map Completed.submission =
      (s.answers.take (s.heads .completions)).map Answer.submission := by
    rw [hbooks.polled, map_map]
    rfl
  have hdrawn : (s.answers.map Answer.submission).Subperm s.sent :=
    h.drawn.trans (take_sublist _ _).subperm
  have hperm := hbooks.sent
  rw [hsubmissions] at hperm
  have hsplit := hdrawn.trans hperm.subperm
  nth_rewrite 1 [← take_append_drop (s.heads .completions) s.answers] at hsplit
  rw [map_append, subperm_append_left] at hsplit
  refine (Table.find_eq_some hbooks.kept).mpr ⟨hsplit.subset ?_, rfl⟩
  rw [mem_map]
  refine ⟨answer, ?_, rfl⟩
  rw [mem_iff_getElem?]
  exact ⟨0, by rw [List.getElem?_drop, Nat.add_zero, hanswer]⟩

lemma judge_answer (hbooks : Books cfg side.table s) (h : Inv cfg s) (hfixed : Fixed cfg side)
    (hanswer : s.answers[s.heads .completions]? = some answer) :
    side.judge answer.raw = .ok (answer.judged cfg.device) := by
  have hstatus : Status.fromRaw answer.raw.status = some answer.status := by
    change Status.fromRaw answer.status.raw = some answer.status
    cases answer.status <;> rfl
  have hfind : side.table.find answer.raw.id = some answer.submission :=
    hbooks.outstanding h hanswer
  have hbytes := h.honest answer (mem_of_getElem? hanswer)
  rw [judge, hfind, hstatus, hfixed.device]
  exact if_neg (not_lt.mpr hbytes)

end

variable {sub : Submission}

variable {n : Nat} [NeZero n] {cfg : Setting} {side : KernelSide n} {s : Shared} {table : Table n}

abbrev KernelReturns (n : Nat) [NeZero n] (cfg : Setting) :
    Reply × KernelSide n → Shared → Prop :=
  Returns cfg .kernel (KernelAt cfg)

lemma insert_error {e : SubmitError}
    (hinsert : table.insert sub = .error e) : e = .full ∨ e = .duplicateId := by
  rw [Table.insert] at hinsert
  split_ifs at hinsert
  · cases hinsert
    exact .inl rfl
  · split at hinsert
    · cases hinsert
    · cases hinsert
      exact .inr rfl
    · cases hinsert
      exact .inl rfl

lemma submitted_acts (h : Inv cfg s)
    (hroom : s.sent.length < s.heads .completions + cfg.layout.entries)
    (hchecked : checkSubmission sub.raw cfg.device = .ok sub)
    (hhas : Has view (sub.raw.words (cfg.slot .submissions s.sent.length)) s) :
    Acts cfg .kernel s (record .kernel (.submitted sub (.ok ())) s) := by
  have hvisible := h.visible .submissions
  have htaken := h.taken .submissions
  change s.published .submissions ≤ s.sent.length at hvisible
  refine ⟨⟨h.tails, h.indices, h.taken, fun r => ?_, h.answered, ?_,
    fun r i hi => ?_, ?_, ?_, h.honest, h.wake⟩,
    ⟨rfl, rfl, rfl, rfl, le_rfl, fun _ h => h⟩, ⟨rfl, rfl, rfl, le_rfl⟩,
    rfl, rfl, rfl, prefix_append _ _, rfl, fun _ _ => rfl⟩
  · cases r with
    | submissions =>
      change s.published .submissions ≤ (s.sent ++ [sub]).length
      rw [length_append, length_singleton]
      omega
    | completions => exact h.visible .completions
  · change (s.sent ++ [sub]).length ≤ _
    rw [length_append, length_singleton]
    exact hroom
  · cases r with
    | completions => exact h.filled .completions i hi
    | submissions =>
      refine has_concat (h.filled .submissions i hi) ?_
      rintro rfl
      exact hhas
  · change List.Subperm _ ((s.sent ++ [sub]).take (s.heads .submissions))
    rw [take_append_of_le_length (by omega)]
    exact h.drawn
  · exact forall_mem_append.mpr ⟨h.checked, forall_mem_singleton.mpr hchecked⟩

lemma nodup_words (raw : RawSubmission) (slot : Nat) :
    ((raw.words slot).map Sigma.fst).Nodup := by
  simp [RawSubmission.words]

lemma since_lasts : Lasts cfg .kernel fun s =>
    s.since .kernel ≤ s.published .completions := by
  intro s s' hsince ha
  rw [ha.respects.2.2.2.1]
  exact hsince.trans ha.fills.published

lemma polled_since_lasts : Lasts cfg .kernel fun s =>
    s.since .kernel ≤ s.polled.length := by
  intro s s' hsince ha
  rw [ha.respects.2.2.2.1, ha.respects.2.1]
  exact hsince

lemma answer_lasts (answer : Answer) : Lasts cfg .kernel fun s =>
    s.answers[s.heads .completions]? = some answer := by
  intro s s' hanswer ha
  obtain ⟨more, hmore⟩ := ha.respects.2.2.1
  have hheads : s'.heads .completions = s.heads .completions := ha.fills.heads
  rw [← hmore, hheads, List.getElem?_append_left (List.getElem?_eq_some_iff.mp hanswer).1]
  exact hanswer

lemma acts_polled {s' : Shared} (completed : Completed) (ha : Acts cfg .driver s s') :
    Acts cfg .driver (record .kernel (.polled (.ok (some completed))) s)
      (record .kernel (.polled (.ok (some completed))) s') := by
  obtain ⟨h, hfills, htakes, hsent, hpolled, hr⟩ := ha
  refine ⟨{ h with }, { hfills with }, { htakes with }, hsent, ?_, hr⟩
  exact congrArg (· ++ [completed]) hpolled

lemma polled_acts (h : Inv cfg s) (completed : Completed) :
    Acts cfg .kernel s (record .kernel (.polled (.ok (some completed))) s) :=
  ⟨{ h with }, ⟨rfl, rfl, rfl, rfl, le_rfl, fun _ h => h⟩, ⟨rfl, rfl, rfl, le_rfl⟩,
    rfl, rfl, rfl, prefix_rfl, rfl, fun _ _ => rfl⟩

lemma Books.poll (hbooks : Books cfg table s) (h : Inv cfg s)
    (hanswer : s.answers[s.heads .completions]? = some answer)
    (w : BitVec 32) : Books cfg (table.remove answer.submission.id).2
      (record .kernel (.polled (.ok (some (answer.judged cfg.device))))
        (view.write s (.head .completions) w)) := by
  obtain ⟨hkept, hperm, hL⟩ := Table.remove_found hbooks.kept (hbooks.outstanding h hanswer)
  have hheads : (view.write s (.head .completions) w).heads .completions =
      s.heads .completions + 1 := by
    rw [heads_write, Function.update_self]
  refine ⟨hkept, hL.trans_le hbooks.limit, ?_, ?_, ?_⟩
  · change (s.polled ++ [_]).length = (view.write s (.head .completions) w).heads .completions
    rw [hheads, length_append, hbooks.counted]
    rfl
  · change s.polled ++ [_] = (s.answers.take
      ((view.write s (.head .completions) w).heads .completions)).map _
    rw [hheads, take_add_one, hanswer, map_append, ← hbooks.polled]
    rfl
  · change s.sent.Perm ((s.polled ++ [_]).map Completed.submission ++ _)
    rw [map_append, append_assoc]
    exact hbooks.sent.trans (hperm.append_left _)

variable (hat : KernelAt cfg side s)
include hat

lemma begun_at (c : Call KernelWork) : KernelAt cfg side (begun .kernel c s) := by
  have ha : Acts cfg .kernel s (begun .kernel c s) := begun_acts hat.inv c
  exact ⟨⟨ha.inv, { hat.producer with }, { hat.consumer with }⟩, { hat.books with }, hat.fixed⟩

lemma submit_writes (hchecked : checkSubmission sub.raw side.device = .ok sub)
    (hinsert : side.table.insert sub = .ok table) :
    Answers cfg .kernel (KernelAt cfg) false (.submitted sub) (do
        sub.raw.writeTo (side.layout.slot side.submissions.tail)
        return (.ok (), { side with table, submissions := side.submissions.stage })) s := by
  obtain ⟨hkept, hperm, hlen, hL, -⟩ := Table.insert_ok hat.books.kept hinsert
  have hslot : ∀ s, KernelAt cfg side s → cfg.slot .submissions s.sent.length =
      side.layout.slot side.submissions.tail := by
    intro s hat
    rw [hat.producer.tail, hat.fixed.layout, slot_index]
    rfl
  have hroom : ∀ s, KernelAt cfg side s →
      s.sent.length < s.heads .completions + cfg.layout.entries := by
    intro s hat
    have hlength := hat.books.sent_length
    have hfits := hat.books.limit
    omega
  have howned : ∀ w ∈ sub.raw.words (side.layout.slot side.submissions.tail),
      entryOf w.1 = some (Side.kernel.produces, side.layout.slot side.submissions.tail) :=
    fun _ => entryOf_rawSubmission
  refine writeEntry_spec (kernelAt_lasts side) hat (fun s hat => hat.inv) hslot ?_ ?_
    howned (nodup_words _ _) fun s hat hhas => holds_done
      ((kernelAt_lasts side).and (has_lasts howned)) ⟨hat, hhas⟩ ?_
  · intro s hat
    have hanswered := hat.inv.answered
    have htaken := hat.books.taken
    change s.sent.length < s.heads .submissions + _
    exact (hroom s hat).trans_le (by omega)
  · exact fun s m hat h => ⟨⟨h, { hat.producer with }, { hat.consumer with }⟩,
      { hat.books with }, hat.fixed⟩
  · rintro s ⟨hat, hhas⟩
    rw [← hslot s hat] at hhas
    have ha := submitted_acts hat.inv (hroom s hat) (hat.fixed.device ▸ hchecked) hhas
    refine ⟨ha, ⟨⟨ha.inv, ⟨?_, hat.producer.published, hat.producer.quiet⟩,
      { hat.consumer with }⟩, ⟨hkept, hL.trans_le hat.books.limit,
      hat.books.counted, hat.books.polled, ?_⟩, hat.fixed.layout, hat.fixed.device,
      hat.fixed.live⟩, nofun⟩
    · change side.submissions.tail + 1 = cfg.index .submissions (s.sent ++ [sub]).length
      rw [hat.producer.tail, index_succ, length_append, length_singleton]
      rfl
    · change (s.sent ++ [sub]).Perm (_ ++ contents table.slots)
      calc (s.sent ++ [sub]).Perm
            (s.polled.map Completed.submission ++ contents side.table.slots ++ [sub]) :=
            hat.books.sent.append_right _
        _ = s.polled.map Completed.submission ++ (contents side.table.slots ++ [sub]) :=
            append_assoc _ _ _
        List.Perm _ (s.polled.map Completed.submission ++ contents table.slots) :=
            (perm_append_comm.trans hperm.symm).append_left _

lemma submit_spec (sub : Submission) : Answers cfg .kernel (KernelAt cfg) false (.submitted sub)
      (side.submit sub) s := by
  have hcorruption : side.phase.corruption = none := corruption_of_live hat.fixed.live
  have herror : ∀ error, (∀ corruption, error ≠ .corrupt corruption) →
      Answers cfg .kernel (KernelAt cfg) false (.submitted sub) (.done (.error error, side)) s := by
    intro error h
    refine holds_done (kernelAt_lasts side) hat fun s hat => ⟨acts_refl hat.inv, hat, ?_⟩
    intro corruption heq
    cases heq
    exact h corruption rfl
  rw [submit, hcorruption]
  change Spec _ _ _ _ (if side.phase ≠ .running then _ else _) s
  split_ifs
  · exact herror _ nofun
  · cases hcheck : checkSubmission sub.raw side.device with
    | error reason => exact herror _ nofun
    | ok checked =>
      obtain rfl := checkSubmission_raw hcheck
      cases hinsert : side.table.insert checked with
      | error error =>
        have h : ∀ corruption, error ≠ .corrupt corruption := by
          rcases insert_error hinsert with rfl | rfl <;> exact nofun
        simp only [hinsert]
        exact herror error h
      | ok table =>
        simp only [hinsert]
        exact submit_writes hat hcheck hinsert

lemma poll_takes (hpending : s.heads .completions < s.published .completions)
    (hseen : side.completions.observedTail = cfg.index .completions (s.published .completions)) :
    Answers cfg .kernel (KernelAt cfg) false .polled (do
        let raw ← RawCompletion.readFrom (side.layout.slot side.completions.head)
        match side.check (side.judge raw) with
        | (.error corruption, side) => return (.error corruption, side)
        | (.ok completed, side) =>
          let cs ← side.completions.advance .completions
          return (.ok (some completed),
            { side with completions := cs, table := (side.table.remove raw.id).2 })) s := by
  have hvisible : s.published .completions ≤ s.answers.length := hat.inv.visible .completions
  obtain ⟨answer, hanswer⟩ : ∃ answer, s.answers[s.heads .completions]? = some answer :=
    ⟨_, List.getElem?_eq_getElem (hpending.trans_le hvisible)⟩
  have hsees : Sees 1 cfg .kernel side.completions s :=
    ⟨hat.consumer.head, _, hseen, hpending, le_rfl⟩
  have hlasts : Lasts cfg .kernel fun s => (KernelAt cfg side s ∧
      Sees 1 cfg .kernel side.completions s) ∧
      s.answers[s.heads .completions]? = some answer :=
    ((kernelAt_lasts side).and (sees_lasts side.completions)).and (answer_lasts answer)
  have hhas : ∀ s, (KernelAt cfg side s ∧ Sees 1 cfg .kernel side.completions s) ∧
      s.answers[s.heads .completions]? = some answer →
      Has view (answer.raw.words (side.layout.slot side.completions.head)) s := by
    rintro s ⟨⟨hat, hsees⟩, hanswer⟩
    have hfilled := hat.inv.filled .completions (s.heads .completions) le_rfl
    rw [Shared.words, hanswer] at hfilled
    rw [hsees.head, hat.fixed.layout, slot_index]
    exact hfilled
  refine readCompletion_spec hlasts ⟨⟨hat, hsees⟩, hanswer⟩ (fun s h => h.1.1.inv) hhas ?_
  rintro s ⟨⟨hat, hsees⟩, hanswer⟩
  rw [judge_answer hat.books hat.inv hat.fixed hanswer]
  refine advance_spec hat.inv hsees ⟨hat, hanswer⟩
    ((kernelAt_lasts side).and (answer_lasts answer)) ?_
  rintro s s' cs rfl ⟨hat, hanswer⟩ h hconsumer
  have hlasts' : Lasts cfg .kernel fun s => Inv cfg s ∧ KernelAt cfg
      { side with completions := cs, table := (side.table.remove answer.raw.id).2 }
      (record .kernel (.polled (.ok (some (answer.judged cfg.device)))) s) :=
    fun s s' h ha => ⟨ha.inv, kernelAt_lasts _ _ _ h.2 (acts_polled _ ha)⟩
  refine holds_done hlasts' ⟨h, ⟨(polled_acts h _).inv, { hat.producer with },
    { hconsumer with }⟩, hat.books.poll hat.inv hanswer _,
    hat.fixed.layout, hat.fixed.device, hat.fixed.live⟩ fun s h => ⟨polled_acts h.1 _, h.2, ?_⟩
  exact .inl ⟨_, rfl⟩

lemma poll_spec (hsince : s.since .kernel ≤ s.published .completions) :
    Answers cfg .kernel (KernelAt cfg) false .polled side.poll s := by
  have hentries : side.layout.entries = cfg.layout.entries := by rw [hat.fixed.layout]
  rw [poll, if_pos hat.fixed.live, hentries]
  refine pending_spec ((kernelAt_lasts side).and since_lasts) ⟨hat, hsince⟩
    (fun s h => h.1.inv) (fun s h => h.1.consumer) fun s ⟨hat, hsince⟩ => ?_
  have hnear : KernelAt cfg { side with completions := { side.completions with
      observedTail := cfg.index .completions (s.published .completions) } } s :=
    ⟨⟨hat.inv, hat.producer, ⟨hat.consumer.head, _, rfl, hat.inv.taken _, le_rfl⟩⟩, hat.books,
      hat.fixed.layout, hat.fixed.device, hat.fixed.live⟩
  have hpending : BitVec.ofNat 32 (s.published .completions - s.heads .completions) ≠ 0 ↔
      s.heads .completions < s.published .completions :=
    (pending_ne_zero hat.inv : _ ↔ s.heads Side.kernel.consumes < _)
  dsimp only [check]
  split_ifs with hzero
  · have hnone : s.since .kernel ≤ s.polled.length := by
      rw [hat.books.counted]
      exact hsince.trans (not_lt.mp fun hlt => hpending.mpr hlt hzero)
    exact holds_done ((kernelAt_lasts _).and polled_since_lasts) ⟨hnear, hnone⟩
      fun s h => ⟨acts_refl h.1.inv, h.1, .inr ⟨rfl, h.2⟩⟩
  · exact poll_takes hnear (hpending.mp hzero) rfl

lemma publish_fair : Answers cfg .kernel (KernelAt cfg) true .published side.publish s := by
  rw [publish, if_pos hat.fixed.live]
  exact publish_returns hat.toEnds hat.books (books_lasts _) (books_recalls _)
    fun s bell submissions _ ha hends hbooks hflushed =>
    ⟨ha, ⟨hends, hbooks, { hat.fixed with }⟩, hflushed⟩

lemma prepareToSleep_fair (hawake : s.asleep .completions = false) :
    Answers cfg .kernel (KernelAt cfg) false .waited side.prepareToSleep s := by
  have hentries : side.layout.entries = cfg.layout.entries := by rw [hat.fixed.layout]
  rw [prepareToSleep, if_pos hat.fixed.live, hentries]
  exact prepareToSleep_returns hat.toEnds hat.books (books_lasts _) (books_recalls _) hawake
    fun s wait cs ha hends hbooks =>
    ⟨ha, ⟨hends, hbooks, { hat.fixed with }⟩, wait, rfl⟩

lemma woke_fair (hawake : s.asleep .completions = false) :
    Spec cfg .kernel false (fun side => KernelReturns n cfg (.woken, side)) side.woke s := by
  rw [woke, if_pos hat.fixed.live]
  exact woke_returns hat.toEnds hat.books (books_lasts _) (books_recalls _) hawake
    fun s cs hends hbooks =>
    ⟨acts_refl hends.inv, ⟨hends, hbooks, { hat.fixed with }⟩, trivial⟩

lemma stop_at : KernelAt cfg side.stop s := by
  rw [stop]
  split_ifs
  · exact ⟨hat.toEnds, hat.books, hat.fixed.layout, hat.fixed.device, rfl⟩
  · exact hat

lemma kernel_spec (c : Call KernelWork) :
    Spec cfg .kernel c.loud (KernelReturns n cfg) ((kernelRole n).code c side)
      (begun .kernel c s) := by
  have hbegun := begun_at hat c
  have hsince : (begun .kernel c s).since .kernel ≤ s.published .completions :=
    (begun_since .kernel c s).le
  cases c with
  | publish => exact holds_map (publish_fair hbegun)
  | prepareToSleep =>
    exact holds_map (prepareToSleep_fair hbegun (prepareToSleep_awake _ .kernel s))
  | woke => exact holds_map (woke_fair hbegun (woke_awake _ .kernel s))
  | work own =>
    cases own with
    | submit sub => exact holds_map (submit_spec hbegun sub)
    | poll => exact holds_map (poll_spec hbegun hsince)
    | stop =>
      exact holds_done (kernelAt_lasts _) (stop_at hbegun)
        fun s hat => ⟨acts_refl hat.inv, hat, trivial⟩

end Ferrix.BlockRing.KernelCalls

import Ferrix.BlockRing.RingEnds

/-!
A side is between two calls or inside one; inside, it takes one access at a time.  What a call
answers goes into the history when it returns.
-/

namespace Ferrix.BlockRing.Threads

open Foundations.Accesses Layout Indices Kernel Driver SharedRing RingEnds Function

inductive Call (W : Type)
  | work (own : W)
  | publish
  | prepareToSleep
  | woke

inductive Reply
  | submitted (submission : Submission) (answer : Except SubmitError Unit)
  | polled (answer : Except Corruption (Option Completed))
  | stopped
  | consumed (answer : Except Corruption (Option Consumed))
  | completed (answer : Answer) (outcome : Except CompleteError Unit)
  | published (bell : Option Doorbell)
  | waited (answer : Except Corruption Wait)
  | woken

def record (side : Side) (reply : Reply) (s : Shared) : Shared :=
  match reply with
  | .submitted submission (.ok ()) => { s with sent := s.sent ++ [submission] }
  | .polled (.ok (some completed)) => { s with polled := s.polled ++ [completed] }
  | .consumed (.ok (some (.request submission))) =>
    { s with
      consumed := s.consumed ++ [submission]
      holding := s.holding ++ [submission] }
  | .completed answer (.ok ()) =>
    { s with
      answers := s.answers ++ [answer]
      holding := s.holding.erase answer.submission }
  | .published bell =>
    { s with
      ringing := update s.ringing side.produces false
      rung := if bell.isSome then update s.rung side.produces true else s.rung }
  | .waited (.ok .sleep) => { s with asleep := update s.asleep side.consumes true }
  | _ => s

/-- The history when a call begins: it notes what it finds published, and a sleep ends. -/
def begun {W : Type} (side : Side) (call : Call W) (s : Shared) : Shared :=
  { s with
    since := update s.since side (s.published side.consumes)
    asleep := match call with
      | .prepareToSleep | .woke => update s.asleep side.consumes false
      | .work _ | .publish => s.asleep }

/-- An answer that reports nothing wrong; one that says nothing is pending says so of what was
published when the call began, and `publish` leaves nothing it was given unpublished. -/
def Reply.Fair (side : Side) (s : Shared) : Reply → Prop
  | .submitted _ answer => ∀ corruption, answer ≠ .error (.corrupt corruption)
  | .polled answer => (∃ completed, answer = .ok (some completed)) ∨
      answer = .ok none ∧ s.since .kernel ≤ s.polled.length
  | .consumed answer => (∃ submission, answer = .ok (some (.request submission))) ∨
      answer = .ok none ∧ s.since .driver ≤ s.consumed.length
  | .completed _ outcome => outcome = .ok ()
  | .waited answer => ∃ wait, answer = .ok wait
  | .published _ => Flushed side s
  | .stopped | .woken => True

structure Role (σ W : Type) where
  code : Call W → σ → Code (Reply × σ)
  permits : Shared → Call W → Prop

inductive Thread (σ W : Type)
  | idle (state : σ)
  | busy (call : Call W) (code : Code (Reply × σ))

inductive Advances {σ W : Type} (role : Role σ W) (side : Side) :
    Thread σ W → Shared → Thread σ W → Shared → Prop
  | call (state : σ) (call : Call W) (s : Shared) (hpermits : role.permits s call) :
      Advances role side (.idle state) s (.busy call (role.code call state)) (begun side call s)
  | access {call : Call W} {code code' : Code (Reply × σ)} {s s' : Shared}
      (hmoves : Moves view code s code' s') :
      Advances role side (.busy call code) s (.busy call code') s'
  | answer (call : Call W) (reply : Reply) (state : σ) (s : Shared) :
      Advances role side (.busy call (.done (reply, state))) s (.idle state) (record side reply s)

/-- A side inside a call ends it and answers while the other takes no step. -/
theorem advances_alone {σ W : Type} (role : Role σ W) (side : Side) (call : Call W)
    (code : Code (Reply × σ)) (s : Shared) :
    Relation.ReflTransGen (fun here there => Advances role side here.1 here.2 there.1 there.2)
      (.busy call code, s)
      (.idle (code.alone view s).1.2,
        record side (code.alone view s).1.1 (code.alone view s).2) := by
  induction code generalizing s with
  | done value => exact .single (.answer call value.1 value.2 s)
  | read place next ih => exact .head (.access (.read place next s)) (ih _ _)
  | write place word next ih => exact .head (.access (.write place word next s)) (ih _)
  | barrier next ih => exact .head (.access (.barrier next s)) (ih _)

def Call.loud {W : Type} : Call W → Bool
  | .publish => true
  | .work _ | .prepareToSleep | .woke => false

variable {cfg : Setting} {side : Side} {σ W : Type} {At : σ → Shared → Prop} {s s' : Shared}

structure Returns (cfg : Setting) (side : Side) (At : σ → Shared → Prop) (value : Reply × σ)
    (s : Shared) : Prop where
  acts : Acts cfg side s (record side value.1 s)
  state : At value.2 (record side value.1 s)
  fair : value.1.Fair side s

abbrev Answers {α : Type} (cfg : Setting) (side : Side) (At : σ → Shared → Prop) (loud : Bool)
    (reply : α → Reply) : Code (α × σ) → Shared → Prop :=
  Spec cfg side loud fun value => Returns cfg side At (Prod.map reply id value)

def ThreadAt (cfg : Setting) (side : Side) (At : σ → Shared → Prop) :
    Thread σ W → Shared → Prop
  | .idle state, s => At state s
  | .busy call code, s => Spec cfg side call.loud (Returns cfg side At) code s ∧
      (call.loud = false → s.ringing side.produces = false)

lemma begun_since (side : Side) (c : Call W) (s : Shared) :
    (begun side c s).since side = s.published side.consumes := by
  change update s.since side _ side = _
  rw [update_self]

lemma prepareToSleep_awake (W : Type) (side : Side) (s : Shared) :
    (begun side (.prepareToSleep : Call W) s).asleep side.consumes = false := by
  change update s.asleep side.consumes false side.consumes = _
  rw [update_self]

lemma woke_awake (W : Type) (side : Side) (s : Shared) :
    (begun side (.woke : Call W) s).asleep side.consumes = false :=
  prepareToSleep_awake W side s

lemma published_quiet (side : Side) (bell : Option Doorbell) (s : Shared) :
    (record side (.published bell) s).ringing side.produces = false := by
  change update s.ringing side.produces false side.produces = _
  rw [update_self]

section

variable (hi : Inv cfg s)
include hi

lemma begun_acts (call : Call W) : Acts cfg side s (begun side call s) := by
  have hasleep : ∀ r, (begun side call s).asleep r = true → s.asleep r = true := by
    intro r hasleep
    cases call with
    | work | publish => exact hasleep
    | prepareToSleep | woke =>
      change update s.asleep side.consumes false r = true at hasleep
      rw [update_apply] at hasleep
      split_ifs at hasleep
      exact hasleep
  have hsince : ∀ other, other ≠ side → (begun side call s).since other = s.since other := by
    intro other hne
    exact update_of_ne hne _ _
  refine ⟨{ hi with wake := fun r h => hi.wake r (hasleep r h) },
    ⟨rfl, rfl, rfl, ?_, le_rfl, fun _ h => h⟩, ⟨rfl, rfl, rfl, le_rfl⟩, ?_⟩
  · cases call with
    | work | publish => rfl
    | prepareToSleep | woke =>
      exact update_of_ne (consumes_ne_produces side).symm _ _
  · cases side with
    | kernel =>
      exact ⟨rfl, rfl, rfl, List.prefix_rfl, hsince .driver (by decide), fun _ _ => rfl⟩
    | driver =>
      exact ⟨rfl, rfl, List.prefix_rfl, hsince .kernel (by decide), fun _ _ => rfl⟩

lemma acts_refl : Acts cfg side s s :=
  (Does.refl hi : Does cfg side true s s).acts

lemma published_acts (side : Side) (bell : Option Doorbell)
    (hbell : bell.isSome = false → s.ringing side.produces = false) :
    Acts cfg side s (record side (.published bell) s) := by
  have ho : ∀ r, r ≠ side.produces → s.Awake r → (record side (.published bell) s).Awake r := by
    intro r hne hawake
    change _ ∨ (if bell.isSome then update s.rung side.produces true else s.rung) r = true ∨
      update s.ringing side.produces false r = true
    rw [update_of_ne hne]
    split_ifs
    · rw [update_of_ne hne]
      exact hawake
    · exact hawake
  have hsame : s.Awake side.produces → (record side (.published bell) s).Awake side.produces := by
    intro hawake
    change _ ∨ (if bell.isSome then update s.rung side.produces true else s.rung)
      side.produces = true ∨ _
    split_ifs with hsome
    · exact .inr (.inl (update_self _ _ _))
    · have hquiet := hbell (by simpa using hsome)
      rcases hawake with h | h | h
      · exact .inl h
      · exact .inr (.inl h)
      · rw [hquiet] at h
        cases h
  refine ⟨{ hi with wake := fun r hasleep => ?_ }, ⟨rfl, rfl, rfl, rfl, le_rfl, fun _ => hsame⟩,
    ⟨rfl, update_of_ne (consumes_ne_produces side) _ _, rfl, le_rfl⟩, ?_⟩
  · obtain ⟨hasks, hawake⟩ := hi.wake r hasleep
    refine ⟨hasks, ?_⟩
    rcases eq_or_ne r side.produces with rfl | hne
    · exact hsame hawake
    · exact ho r hne hawake
  · have hrefl := Respects.refl side s
    cases side <;> exact hrefl

lemma slept_acts
    (hasks : asks (s.memory (.wantBell side.consumes)) = true) (hawake : s.Awake side.consumes) :
    Acts cfg side s (record side (.waited (.ok .sleep)) s) := by
  refine ⟨{ hi with wake := fun r hasleep => ?_ },
    ⟨rfl, rfl, rfl, update_of_ne (consumes_ne_produces side).symm _ _, le_rfl,
      fun _ h => h⟩, ⟨rfl, rfl, rfl, le_rfl⟩, ?_⟩
  · rcases eq_or_ne r side.consumes with rfl | hne
    · exact ⟨hasks, hawake⟩
    · change update s.asleep side.consumes true r = true at hasleep
      rw [update_of_ne hne] at hasleep
      exact hi.wake r hasleep
  · have hrefl := Respects.refl side s
    cases side <;> exact hrefl

end

def past (s : Shared) : (Ring → Nat) × List Submission × List Submission × List Submission ×
    List Answer × List Completed :=
  (s.heads, s.sent, s.consumed, s.holding, s.answers, s.polled)

abbrev Recalls (F : Shared → Prop) : Prop := ∀ ⦃s s' : Shared⦄, F s → past s' = past s → F s'

section

variable {α : Type} {post : α → Shared → Prop} {F : Shared → Prop} {producer : Producer}
  {consumer : Consumer} (hends : Ends cfg side producer consumer s) (hF : F s)
  (hlasts : Lasts cfg side F) (hrecalls : Recalls F)
include hends hF hlasts hrecalls

lemma publish_returns {v : Option Doorbell × Producer → α}
    (hreturns : ∀ s bell producer', producer'.observedHead = producer.observedHead →
      Acts cfg side s (record side (.published bell) s) →
      Ends cfg side producer' consumer (record side (.published bell) s) →
      F (record side (.published bell) s) → Flushed side s → post (v (bell, producer')) s) :
    Spec cfg side true post (producer.publish side.produces >>= fun b => .done (v b)) s := by
  have hboth : Lasts cfg side fun s => ConsumerAt cfg side consumer s ∧ F s :=
    (sees_lasts consumer).and hlasts
  refine publish_spec hends.inv hends.producer ⟨hends.consumer, hF⟩ hboth ?_ ?_ ?_ ?_
  · rintro s w ⟨hconsumer, hF⟩
    obtain ⟨seen, hseen, hlow, hhigh⟩ := hconsumer.observed
    refine ⟨⟨hconsumer.head, seen, hseen, hlow, ?_⟩, hrecalls hF rfl⟩
    change seen ≤ update s.published side.produces (s.staged side.produces) side.consumes
    rw [update_of_ne (consumes_ne_produces side)]
    exact hhigh
  · rintro s ⟨hconsumer, hF⟩
    cases hasks : asks (s.memory (.wantBell side.produces)) with
    | true =>
      rw [read_wanted hasks]
      exact ⟨hconsumer, hF⟩
    | false =>
      rw [read_unwanted hasks]
      exact ⟨{ hconsumer with }, hrecalls hF rfl⟩
  · intro s producer' hobserved hi hproducer hr hflushed
    refine holds_done ((((inv_lasts _ _).and (producerAt_lasts _)).and hboth).and flushed_lasts)
      ⟨⟨⟨hi, hproducer⟩, hr⟩, hflushed⟩
      fun s ⟨⟨⟨hi, hproducer⟩, hconsumer, hF⟩, hflushed⟩ => ?_
    have ha := published_acts hi side none fun _ => hproducer.quiet
    exact hreturns s none producer' hobserved ha ⟨ha.inv,
      { hproducer with quiet := published_quiet side none s }, { hconsumer with }⟩
      (hrecalls hF rfl) hflushed
  · intro s producer' bell hobserved hi hr hplaces hflushed
    refine holds_done ((((inv_lasts _ _).and (places_lasts producer')).and hboth).and
      flushed_lasts) ⟨⟨⟨hi, hplaces⟩, hr⟩, hflushed⟩
      fun s ⟨⟨⟨hi, hplaces⟩, hconsumer, hF⟩, hflushed⟩ => ?_
    have ha := published_acts hi side (some bell) nofun
    exact hreturns s (some bell) producer' hobserved ha ⟨ha.inv,
      ⟨hplaces.1, hplaces.2, published_quiet side (some bell) s⟩, { hconsumer with }⟩
      (hrecalls hF rfl) hflushed

variable (hawake : s.asleep side.consumes = false) {loud : Bool}
include hawake

lemma prepareToSleep_returns {v : Except Corruption Wait × Consumer → α}
    (hreturns : ∀ s wait consumer', Acts cfg side s (record side (.waited (.ok wait)) s) →
      Ends cfg side producer consumer' (record side (.waited (.ok wait)) s) →
      F (record side (.waited (.ok wait)) s) → post (v (.ok wait, consumer')) s) :
    Spec cfg side loud post (consumer.prepareToSleep side.consumes cfg.layout.entries >>=
      fun b => .done (v b)) s := by
  have hboth : Lasts cfg side fun s => ProducerAt cfg side producer s ∧ F s :=
    (producerAt_lasts producer).and hlasts
  refine prepareToSleep_spec hends.inv hends.consumer hawake ⟨hends.producer, hF⟩ hboth ?_ ?_ ?_
  · rintro s w ⟨hproducer, hF⟩
    exact ⟨{ hproducer with }, hrecalls hF rfl⟩
  · intro s consumer' hi hconsumer hr _ hasks hwoken
    refine holds_done ((((inv_lasts _ _).and (sees_lasts _)).and hboth).and sleepy_lasts)
      ⟨⟨⟨hi, hconsumer⟩, hr⟩, hasks, hwoken⟩
      fun s ⟨⟨⟨hi, hconsumer⟩, hproducer, hF⟩, hasks, hwoken⟩ => ?_
    have ha := slept_acts hi hasks hwoken
    exact hreturns s .sleep consumer' ha ⟨ha.inv, { hproducer with }, { hconsumer with }⟩
      (hrecalls hF rfl)
  · intro s consumer' pending hi hconsumer hr _
    refine holds_done (((inv_lasts _ _).and (sees_lasts _)).and hboth)
      ⟨⟨hi, hconsumer⟩, hr⟩ fun s ⟨⟨hi, hconsumer⟩, hproducer, hF⟩ => ?_
    exact hreturns s (.pending pending) consumer' (acts_refl hi) ⟨hi, hproducer, hconsumer⟩ hF

lemma woke_returns {v : Consumer → α}
    (hreturns : ∀ s consumer', Ends cfg side producer consumer' s → F s → post (v consumer') s) :
    Spec cfg side loud post (consumer.setWantBell side.consumes false >>=
      fun consumer => .done (v consumer)) s := by
  have hboth : Lasts cfg side fun s => ProducerAt cfg side producer s ∧ F s :=
    (producerAt_lasts producer).and hlasts
  refine setWantBell_spec hends.inv hends.consumer hawake ⟨hends.producer, hF⟩ hboth ?_ ?_ false
  · rintro s w ⟨hproducer, hF⟩
    exact ⟨{ hproducer with }, hrecalls hF rfl⟩
  · intro s consumer' hi hconsumer _ hr
    exact holds_done (((inv_lasts _ _).and (sees_lasts _)).and hboth)
      ⟨⟨hi, hconsumer⟩, hr⟩ fun s ⟨⟨hi, hconsumer⟩, hproducer, hF⟩ =>
      hreturns s consumer' ⟨hi, hproducer, hconsumer⟩ hF

end

lemma threadAt_lasts (hlasts : ∀ state, Lasts cfg side (At state)) (t : Thread σ W) :
    Lasts cfg side (ThreadAt cfg side At t) := by
  intro s s' hthread ha
  cases t with
  | idle state => exact hlasts state s s' hthread ha
  | busy c code =>
    refine ⟨hthread.1.disturbed ha, fun hloud => ?_⟩
    rw [(takes_of_acts ha).ringing]
    exact hthread.2 hloud

lemma ringing_eq_false (hquiet : ∀ state s, At state s → s.ringing side.produces = false)
    {t : Thread σ W} (hthread : ThreadAt cfg side At t s)
    (hnot : ¬∃ code, t = .busy .publish code) : s.ringing side.produces = false := by
  cases t with
  | idle state => exact hquiet state s hthread
  | busy c code =>
    cases c with
    | publish => exact absurd ⟨code, rfl⟩ hnot
    | work | prepareToSleep | woke => exact hthread.2 rfl

variable {role : Role σ W}

/-- A step of a side keeps to what it may do and leaves it where it should be. -/
theorem advances_keeps (hi : Inv cfg s)
    (hquiet : ∀ state s, At state s → s.ringing side.produces = false)
    (hspec : ∀ call state s, Inv cfg s → At state s → role.permits s call →
      Spec cfg side call.loud (Returns cfg side At) (role.code call state) (begun side call s))
    {thread thread' : Thread σ W} (hthread : ThreadAt cfg side At thread s)
    (hadvances : Advances role side thread s thread' s') :
    Acts cfg side s s' ∧ ThreadAt cfg side At thread' s' := by
  cases hadvances with
  | call state call _ hpermits =>
    exact ⟨begun_acts hi call, hspec call state s hi hthread hpermits,
      fun _ => hquiet state s hthread⟩
  | access hmoves =>
    obtain ⟨hdoes, hrest⟩ := hthread.1.moves hmoves
    refine ⟨hdoes.acts, hrest, fun hloud => ?_⟩
    rw [hdoes.silent hloud]
    exact hthread.2 hloud
  | answer call reply state _ =>
    have hreturns := hthread.1.done
    exact ⟨hreturns.acts, hreturns.state⟩

end Ferrix.BlockRing.Threads

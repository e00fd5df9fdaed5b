import Ferrix.BlockRing.SharedRing

namespace Ferrix.BlockRing.RingEnds

open Foundations.Accesses Layout Indices SharedRing BitVec

/-- What a call of a side comes to between the steps of the other. -/
abbrev Spec {α : Type} (cfg : Setting) (side : Side) (loud : Bool) (post : α → Shared → Prop)
    (tree : Code α) (s : Shared) : Prop :=
  Holds view (Acts cfg side.other) (Does cfg side loud) post tree s

/-- A property the other side keeps. -/
abbrev Lasts (cfg : Setting) (side : Side) (P : Shared → Prop) : Prop :=
  Stable (Acts cfg side.other) P

structure ProducerAt (cfg : Setting) (side : Side) (producer : Producer) (s : Shared) :
    Prop where
  tail : producer.tail = cfg.index side.produces (s.staged side.produces)
  published : producer.published = cfg.index side.produces (s.published side.produces)
  quiet : s.ringing side.produces = false

def Flushed (side : Side) (s : Shared) : Prop :=
  s.published side.produces = s.staged side.produces

/-- A consumer's indices are those of its ring, and it has seen so many entries behind its head. -/
structure Sees (ahead : Nat) (cfg : Setting) (side : Side) (consumer : Consumer) (s : Shared) :
    Prop where
  head : consumer.head = cfg.index side.consumes (s.heads side.consumes)
  observed : ∃ seen, consumer.observedTail = cfg.index side.consumes seen ∧
    s.heads side.consumes + ahead ≤ seen ∧ seen ≤ s.published side.consumes

abbrev ConsumerAt : Setting → Side → Consumer → Shared → Prop := Sees 0

structure Ends (cfg : Setting) (side : Side) (producer : Producer) (consumer : Consumer)
    (s : Shared) : Prop where
  inv : Inv cfg s
  producer : ProducerAt cfg side producer s
  consumer : ConsumerAt cfg side consumer s

section

variable {cfg : Setting} {side : Side} {s s' : Shared}

section

variable (hacts : Acts cfg side.other s s')
include hacts

lemma staged_of_acts : s'.staged side.produces = s.staged side.produces := by
  cases side with
  | kernel => exact congrArg List.length hacts.respects.1
  | driver => exact congrArg List.length hacts.respects.2.2.1

lemma takes_of_acts : Takes s s' side.produces := by
  cases side <;> exact hacts.takes

lemma fills_of_acts : Fills s s' side.consumes := by
  cases side <;> exact hacts.fills

end

lemma inv_lasts (cfg : Setting) (side : Side) : Lasts cfg side (Inv cfg) :=
  fun _ _ _ hacts => hacts.inv

lemma producerAt_lasts (producer : Producer) : Lasts cfg side (ProducerAt cfg side producer) := by
  intro s s' hat hacts
  have htakes := takes_of_acts hacts
  constructor
  · rw [staged_of_acts hacts]
    exact hat.tail
  · rw [htakes.published]
    exact hat.published
  · rw [htakes.ringing]
    exact hat.quiet

lemma flushed_lasts : Lasts cfg side (Flushed side) := by
  intro s s' hflushed hacts
  rw [Flushed, (takes_of_acts hacts).published, staged_of_acts hacts]
  exact hflushed

/-- A producer whose tail is where it was published has nothing left to publish. -/
theorem ProducerAt.flushed {producer : Producer} (hat : ProducerAt cfg side producer s)
    (hi : Inv cfg s) (hsame : producer.tail = producer.published) : Flushed side s := by
  have hentries := entries_lt cfg
  have hstaged := hi.staged_le side.produces
  have htaken := hi.taken side.produces
  have hvisible := hi.visible side.produces
  rw [hat.tail, hat.published] at hsame
  have hzero : 0#32 = BitVec.ofNat 32 (s.staged side.produces - s.published side.produces) := by
    rw [← index_sub hvisible, hsame, BitVec.sub_self]
  have hmod := congrArg BitVec.toNat hzero
  rw [toNat_ofNat, toNat_ofNat, Nat.zero_mod, Nat.mod_eq_of_lt (by omega)] at hmod
  exact le_antisymm hvisible (Nat.sub_eq_zero_iff_le.mp hmod.symm)

lemma places_lasts (producer : Producer) : Lasts cfg side fun s =>
    producer.tail = cfg.index side.produces (s.staged side.produces) ∧
      producer.published = cfg.index side.produces (s.published side.produces) := by
  intro s s' hplaces hacts
  rw [staged_of_acts hacts, (takes_of_acts hacts).published]
  exact hplaces

lemma sees_lasts {ahead : Nat} (consumer : Consumer) :
    Lasts cfg side (Sees ahead cfg side consumer) := by
  intro s s' hsees hacts
  have hfills := fills_of_acts hacts
  obtain ⟨seen, hseen, hlow, hhigh⟩ := hsees.observed
  refine ⟨?_, seen, hseen, ?_, hhigh.trans hfills.published⟩
  · rw [hfills.heads]
    exact hsees.head
  · rw [hfills.heads]
    exact hlow

lemma ends_lasts (producer : Producer) (consumer : Consumer) :
    Lasts cfg side (Ends cfg side producer consumer) := fun s s' hends hacts =>
  ⟨hacts.inv, producerAt_lasts _ s s' hends.producer hacts, sees_lasts _ s s' hends.consumer hacts⟩

end

lemma read_wanted {s : Shared} {ring : Ring} (hasks : asks (s.memory (.wantBell ring)) = true) :
    view.read s (.wantBell ring) = s := if_pos hasks

lemma read_unwanted {s : Shared} {ring : Ring} (hasks : asks (s.memory (.wantBell ring)) = false) :
    view.read s (.wantBell ring) = { s with ringing := Function.update s.ringing ring false } :=
  if_neg (by simp [hasks])

section

variable {cfg : Setting} {side : Side} {α : Type} {post : α → Shared → Prop} {s : Shared}
  {F : Shared → Prop} {producer : Producer}

lemma publish_spec (hi : Inv cfg s) (hat : ProducerAt cfg side producer s) (hF : F s)
    (hlasts : Lasts cfg side F)
    (htail : ∀ s word, F s → F (view.write s (.tail side.produces) word))
    (hlook : ∀ s, F s → F (view.read s (.wantBell side.produces)))
    {f : Option Doorbell × Producer → Code α}
    (hnone : ∀ s producer', producer'.observedHead = producer.observedHead → Inv cfg s →
      ProducerAt cfg side producer' s → F s → Flushed side s →
      Spec cfg side true post (f (none, producer')) s)
    (hsome : ∀ s producer' bell, producer'.observedHead = producer.observedHead → Inv cfg s →
      F s → producer'.tail = cfg.index side.produces (s.staged side.produces) ∧
        producer'.published = cfg.index side.produces (s.published side.produces) →
      Flushed side s → Spec cfg side true post (f (some bell, producer')) s) :
    Spec cfg side true post (producer.publish side.produces >>= f) s := by
  have howned : Lasts cfg side fun s =>
      producer.tail = cfg.index side.produces (s.staged side.produces) := by
    intro s s' h hacts
    rw [staged_of_acts hacts]
    exact h
  have hringing : Lasts cfg side fun s =>
      Flushed side s ∧ s.ringing side.produces = true := by
    intro s s' h hacts
    refine ⟨flushed_lasts s s' h.1 hacts, ?_⟩
    rw [(takes_of_acts hacts).ringing]
    exact h.2
  have hbegun := ((inv_lasts cfg side).and hlasts).and howned
  rw [Producer.publish]
  split_ifs with hsame
  · exact hnone s producer rfl hi hat hF (hat.flushed hi hsame)
  · refine holds_write hbegun ⟨⟨hi, hF⟩, hat.tail⟩ fun s ⟨⟨hi, hF⟩, htailed⟩ => ?_
    have hdoes := does_tail hi side
    rw [← htailed] at hdoes
    refine ⟨hdoes, holds_barrier (hbegun.and hringing)
      ⟨⟨⟨hdoes.acts.inv, htail s _ hF⟩, htailed⟩, Function.update_self _ _ _,
        Function.update_self _ _ _⟩ fun s h => ⟨Does.refl h.1.1.1, ?_⟩⟩
    refine holds_read (hbegun.and hringing) h fun s ⟨⟨⟨hi, hF⟩, htailed⟩, hpublished, hrings⟩ => ?_
    have hdoes := does_look hi side
    refine ⟨hdoes, ?_⟩
    have hi' := hdoes.acts.inv
    have hF' := hlook s hF
    have hpublished' : producer.tail = cfg.index side.produces (s.published side.produces) :=
      hpublished ▸ htailed
    change Spec cfg side true post (f (if s.memory (.wantBell side.produces) = WANT_BELL then
      some ⟨side.produces, producer.tail⟩ else none,
      { producer with published := producer.tail })) _
    split_ifs with hwant
    · rw [read_wanted (by simpa [asks] using hwant)] at hi' hF' ⊢
      exact hsome s _ _ rfl hi' hF' ⟨htailed, hpublished'⟩ hpublished
    · rw [read_unwanted (by simpa [asks] using hwant)] at hi' hF' ⊢
      exact hnone _ _ rfl hi' ⟨htailed, hpublished', Function.update_self _ _ _⟩ hF' hpublished

variable {loud : Bool} {P : Shared → Prop} {consumer : Consumer} {f : Consumer → Code α}

lemma observe_ok (hi : Inv cfg s) (hat : ConsumerAt cfg side consumer s) :
    consumer.observe (s.memory (.tail side.consumes)) cfg.layout.entries =
      (.ok (BitVec.ofNat 32 (s.published side.consumes - s.heads side.consumes)),
        { consumer with
          observedTail := cfg.index side.consumes (s.published side.consumes) }) := by
  obtain ⟨seen, hseen, hlow, hhigh⟩ := hat.observed
  rw [Nat.add_zero] at hlow
  have hentries := entries_lt cfg
  have htaken := hi.taken side.consumes
  have hstaged := hi.staged_le side.consumes
  have hvisible := hi.visible side.consumes
  rw [Consumer.observe, hi.tails, hat.head, hseen, index_sub htaken, index_sub hlow,
    toNat_ofNat, Nat.mod_eq_of_lt (by omega), if_neg (by omega), if_neg]
  rw [lt_def, toNat_ofNat, toNat_ofNat, Nat.mod_eq_of_lt (by omega), Nat.mod_eq_of_lt (by omega)]
  omega

lemma pending_spec (hlasts : Lasts cfg side P) (hP : P s)
    (hi : ∀ s, P s → Inv cfg s) (hat : ∀ s, P s → ConsumerAt cfg side consumer s)
    {f : Except Corruption (BitVec 32) × Consumer → Code α}
    (hn : ∀ s, P s → Spec cfg side loud post
      (f (.ok (BitVec.ofNat 32 (s.published side.consumes - s.heads side.consumes)),
        { consumer with
          observedTail := cfg.index side.consumes (s.published side.consumes) })) s) :
    Spec cfg side loud post (consumer.pending side.consumes cfg.layout.entries >>= f) s := by
  refine holds_read hlasts hP fun s hP => ⟨Does.refl (hi s hP), ?_⟩
  change Spec cfg side loud post
    (f (consumer.observe (s.memory (.tail side.consumes)) cfg.layout.entries)) s
  rw [observe_ok (hi s hP) (hat s hP)]
  exact hn s hP

lemma advance_spec {F : Shared → Prop} (hi : Inv cfg s)
    (hsees : Sees 1 cfg side consumer s) (hF : F s) (hlasts : Lasts cfg side F)
    (hn : ∀ s s' consumer', s' = view.write s (.head side.consumes)
        (cfg.index side.consumes (s.heads side.consumes + 1)) → F s → Inv cfg s' →
      ConsumerAt cfg side consumer' s' → Spec cfg side loud post (f consumer') s') :
    Spec cfg side loud post (consumer.advance side.consumes >>= f) s := by
  refine holds_write (((inv_lasts cfg side).and (sees_lasts consumer)).and hlasts)
    ⟨⟨hi, hsees⟩, hF⟩ fun s ⟨⟨hi, hsees⟩, hF⟩ => ?_
  obtain ⟨seen, hseen, hlow, hhigh⟩ := hsees.observed
  have hdoes := does_head hi side loud (hlow.trans hhigh)
  have hhead : consumer.head + 1 = cfg.index side.consumes (s.heads side.consumes + 1) := by
    rw [hsees.head, index_succ]
  rw [hhead]
  refine ⟨hdoes, hn s _ _ rfl hF hdoes.acts.inv ⟨?_, seen, hseen, ?_, hhigh⟩⟩
  · change _ = cfg.index side.consumes (Function.update s.heads side.consumes _ side.consumes)
    rw [Function.update_self]
  · change Function.update s.heads side.consumes _ side.consumes ≤ seen
    rw [Function.update_self]
    exact hlow

lemma pending_ne_zero (hi : Inv cfg s) :
    BitVec.ofNat 32 (s.published side.consumes - s.heads side.consumes) ≠ 0 ↔
      s.heads side.consumes < s.published side.consumes := by
  have hentries := entries_lt cfg
  have hstaged := hi.staged_le side.consumes
  have hvisible := hi.visible side.consumes
  rw [Ne, ← toNat_inj, toNat_ofNat, Nat.mod_eq_of_lt (by omega)]
  change ¬_ - _ = 0 ↔ _
  omega

lemma awake_lasts : Lasts cfg side fun s => s.asleep side.consumes = false := by
  intro s s' h hacts
  rw [(fills_of_acts hacts).asleep]
  exact h

lemma sleepy_lasts : Lasts cfg side fun s =>
    asks (s.memory (.wantBell side.consumes)) = true ∧ s.Awake side.consumes := by
  intro s s' h hacts
  have hfills := fills_of_acts hacts
  refine ⟨?_, hfills.awake h.1 h.2⟩
  rw [hfills.wantBell]
  exact h.1

lemma asked_lasts : Lasts cfg side fun s =>
    asks (s.memory (.wantBell side.consumes)) = true := by
  intro s s' h hacts
  rw [(fills_of_acts hacts).wantBell]
  exact h

variable {F : Shared → Prop} (hi : Inv cfg s) (hat : ConsumerAt cfg side consumer s)
  (hawake : s.asleep side.consumes = false) (hF : F s) (hlasts : Lasts cfg side F)
  (hwant : ∀ s word, F s → F (view.write s (.wantBell side.consumes) word))
include hi hat hawake hF hlasts hwant

lemma setWantBell_spec (hn : ∀ s consumer', Inv cfg s → ConsumerAt cfg side consumer' s →
      s.asleep side.consumes = false → F s → Spec cfg side loud post (f consumer') s)
    (on : Bool) : Spec cfg side loud post (consumer.setWantBell side.consumes on >>= f) s := by
  refine holds_write ((((inv_lasts cfg side).and (sees_lasts consumer)).and
    awake_lasts).and hlasts) ⟨⟨⟨hi, hat⟩, hawake⟩, hF⟩ fun s ⟨⟨⟨hi, hat⟩, hawake⟩, hF⟩ => ?_
  have hdoes := does_wantBell hi side loud hawake (if on then 1 else 0)
  exact ⟨hdoes, hn _ _ hdoes.acts.inv ⟨hat.head, hat.observed⟩ hawake (hwant s _ hF)⟩

lemma prepareToSleep_spec {f : Except Corruption Wait × Consumer → Code α}
    (hsleep : ∀ s consumer', Inv cfg s → ConsumerAt cfg side consumer' s → F s →
      s.asleep side.consumes = false → asks (s.memory (.wantBell side.consumes)) = true →
      s.Awake side.consumes → Spec cfg side loud post (f (.ok .sleep, consumer')) s)
    (hpending : ∀ s consumer' pending, Inv cfg s → ConsumerAt cfg side consumer' s → F s →
      s.asleep side.consumes = false →
      Spec cfg side loud post (f (.ok (.pending pending), consumer')) s) :
    Spec cfg side loud post (consumer.prepareToSleep side.consumes cfg.layout.entries >>= f) s := by
  have hstate : ∀ consumer : Consumer, Lasts cfg side fun s => ((Inv cfg s ∧
      ConsumerAt cfg side consumer s) ∧ s.asleep side.consumes = false) ∧ F s := fun consumer =>
    (((inv_lasts cfg side).and (sees_lasts consumer)).and awake_lasts).and hlasts
  refine holds_bind (holds_write (hstate consumer) ⟨⟨⟨hi, hat⟩, hawake⟩, hF⟩
    fun s ⟨⟨⟨hi, hat⟩, hawake⟩, hF⟩ => ?_)
  have hdoes := does_wantBell hi side loud hawake 1
  have hasked : asks ((view.write s (.wantBell side.consumes) (1 : BitVec 32)).memory
      (.wantBell side.consumes)) = true := by
    rw [memory_write, Function.update_self]
    rfl
  refine ⟨hdoes, holds_barrier ((hstate { consumer with wantBell := true }).and asked_lasts)
    ⟨⟨⟨⟨hdoes.acts.inv, hat.head, hat.observed⟩, hawake⟩, hwant s _ hF⟩, hasked⟩
    fun s h => ⟨Does.refl h.1.1.1.1, ?_⟩⟩
  refine pending_spec ((hstate { consumer with wantBell := true }).and asked_lasts) h
    (fun s h => h.1.1.1.1) (fun s h => h.1.1.1.2) fun s ⟨⟨⟨⟨hi, hat⟩, hawake⟩, hF⟩, hasked⟩ => ?_
  have hat' : ConsumerAt cfg side { consumer with
      wantBell := true
      observedTail := cfg.index side.consumes (s.published side.consumes) } s :=
    ⟨hat.head, _, rfl, hi.taken _, le_rfl⟩
  dsimp only
  split_ifs with hzero
  · have hnone : s.heads side.consumes = s.published side.consumes := by
      have htaken := hi.taken side.consumes
      have hnot := (pending_ne_zero hi).not.mp (not_not.mpr hzero)
      omega
    refine holds_done ((hstate _).and sleepy_lasts)
      ⟨⟨⟨⟨hi, hat'⟩, hawake⟩, hF⟩, hasked, .inl hnone⟩ fun s h => ?_
    exact hsleep s _ h.1.1.1.1 h.1.1.1.2 h.1.2 h.1.1.2 h.2.1 h.2.2
  · refine setWantBell_spec hi hat' hawake hF hlasts hwant
      (fun s consumer' hi hat hawake hF => ?_) false
    exact holds_done (hstate consumer') ⟨⟨⟨hi, hat⟩, hawake⟩, hF⟩ fun s h =>
      hpending s _ _ h.1.1.1 h.1.1.2 h.2 h.1.2

end

variable {cfg : Setting} {side : Side} {loud : Bool} {α : Type} {post : α → Shared → Prop}
  {s : Shared} {P : Shared → Prop} {slot : Nat} {words : List ((place : Place) × Word place)}

section

variable (hlasts : Lasts cfg side P) (hP : P s) (hi : ∀ s, P s → Inv cfg s)
include hlasts hP hi

lemma readWord_spec (hhas : ∀ s, P s → Has view words s) {place : Place} {word : Word place}
    (i : Nat) (hw : words[i]? = some ⟨place, word⟩) (hstill : ∀ s, view.read s place = s)
    {f : Word place → Code α} (hn : ∀ s, P s → Spec cfg side loud post (f word) s) :
    Spec cfg side loud post (.read place f) s := by
  refine holds_read hlasts hP fun s hP => ?_
  have hlook : view.look s place = word := hhas s hP _ (List.mem_of_getElem? hw)
  rw [hstill, hlook]
  exact ⟨Does.refl (hi s hP), hn s hP⟩

lemma readSubmission_spec {raw : RawSubmission} (hhas : ∀ s, P s → Has view (raw.words slot) s)
    {f : RawSubmission → Code α} (hn : ∀ s, P s → Spec cfg side loud post (f raw) s) :
    Spec cfg side loud post (RawSubmission.readFrom slot >>= f) s := by
  refine readWord_spec hlasts hP hi hhas 0 rfl (fun _ => rfl) fun s hP => ?_
  refine readWord_spec hlasts hP hi hhas 1 rfl (fun _ => rfl) fun s hP => ?_
  refine readWord_spec hlasts hP hi hhas 2 rfl (fun _ => rfl) fun s hP => ?_
  refine readWord_spec hlasts hP hi hhas 3 rfl (fun _ => rfl) fun s hP => ?_
  refine readWord_spec hlasts hP hi hhas 4 rfl (fun _ => rfl) fun s hP => ?_
  refine readWord_spec hlasts hP hi hhas 5 rfl (fun _ => rfl) fun s hP => ?_
  refine readWord_spec hlasts hP hi hhas 6 rfl (fun _ => rfl) fun s hP => ?_
  exact hn s hP

lemma readCompletion_spec {raw : RawCompletion} (hhas : ∀ s, P s → Has view (raw.words slot) s)
    {f : RawCompletion → Code α} (hn : ∀ s, P s → Spec cfg side loud post (f raw) s) :
    Spec cfg side loud post (RawCompletion.readFrom slot >>= f) s := by
  refine readWord_spec hlasts hP hi hhas 0 rfl (fun _ => rfl) fun s hP => ?_
  refine readWord_spec hlasts hP hi hhas 1 rfl (fun _ => rfl) fun s hP => ?_
  refine readWord_spec hlasts hP hi hhas 2 rfl (fun _ => rfl) fun s hP => ?_
  refine readWord_spec hlasts hP hi hhas 3 rfl (fun _ => rfl) fun s hP => ?_
  exact hn s hP

end

lemma entry_of_acts {s' : Shared} (hacts : Acts cfg side.other s s') {place : Place}
    (hentry : entryOf place = some (side.produces, slot)) : s'.memory place = s.memory place := by
  cases side with
  | kernel =>
    cases place with
    | submission slot field => exact hacts.respects.2.2.2.2 slot field
    | tail | head | wantBell | completion => cases hentry
  | driver =>
    cases place with
    | completion slot field => exact hacts.respects.2.2.2.2.2 slot field
    | tail | head | wantBell | submission => cases hentry

lemma has_lasts (howned : ∀ word ∈ words, entryOf word.1 = some (side.produces, slot)) :
    Lasts cfg side (Has view words) :=
  fun _ _ hhas hacts word hw =>
    (entry_of_acts hacts (howned word hw)).trans (hhas word hw)

lemma writeEntry_spec (hlasts : Lasts cfg side P) (hP : P s) (hi : ∀ s, P s → Inv cfg s)
    (hslot : ∀ s, P s → cfg.slot side.produces (s.staged side.produces) = slot)
    (hroom : ∀ s, P s → s.staged side.produces < s.heads side.produces + cfg.layout.entries)
    (hkeeps : ∀ s memory, P s → Inv cfg { s with memory } → P { s with memory })
    (howned : ∀ word ∈ words, entryOf word.1 = some (side.produces, slot))
    (hnodup : (words.map Sigma.fst).Nodup) {f : Unit → Code α}
    (hn : ∀ s, P s → Has view words s → Spec cfg side false post (f ()) s) :
    Spec cfg side false post (Access.puts words >>= f) s := by
  refine holds_puts (fun place => entryOf place = some (side.produces, slot)) [] ?_ ?_ howned
    hnodup hP (List.forall_mem_nil _) hn
  · exact fun words howned => hlasts.and (has_lasts howned)
  · intro place word s hentry hP
    have hdoes : Does cfg side false s (view.write s place word) :=
      does_entry (hi s hP) word (by rw [hentry, hslot s hP]) (hroom s hP)
    refine ⟨hdoes, ?_⟩
    have hi' := hdoes.acts.inv
    rw [write_entry hentry] at hi' ⊢
    exact hkeeps s _ hP hi'

end Ferrix.BlockRing.RingEnds

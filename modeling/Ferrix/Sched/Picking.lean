import Ferrix.Sched.QueueRuns

/-!
Which entity the queue picks: the eligible one with the earliest deadline.
-/

namespace Ferrix.Sched.Picking

open Foundations.WrappingClock DeadlineTree TreeOrder TreeShape Eevdf Bookkeeping QueueCalls List
open QueueRuns (Call Keeping sound_foldl step)

variable {T : Type} {q : RunQueue T}

lemma isEligible_of_behind (hs : Sound q) (hne : q.entities ≠ []) {vruntime : BitVec 64}
    (h : offset vruntime q.zero ≤ 0) : q.isEligible vruntime = true := by
  rw [RunQueue.isEligible, decide_eq_true_eq, RunQueue.relative]
  have hle := mul_nonpos_of_nonpos_of_nonneg h (Int.natCast_nonneg q.load)
  have := hs.based.sum_nonneg hne
  omega

lemma exists_eligible (hs : Sound q) (hne : q.entities ≠ []) :
    ∃ e ∈ q.entities, q.isEligible e.vruntime = true := by
  have hlt := hs.based.sum_lt hne
  rw [hs.counted.sum, hs.counted.load] at hlt
  obtain ⟨e, he, hbehind⟩ := exists_behind hlt
  exact ⟨e, he, isEligible_of_behind hs hne hbehind⟩

lemma isEligible_mono {a b : BitVec 64} (hle : offset a q.zero ≤ offset b q.zero)
    (hb : q.isEligible b = true) : q.isEligible a = true := by
  rw [RunQueue.isEligible, decide_eq_true_eq, RunQueue.relative] at hb ⊢
  have := mul_le_mul_of_nonneg_right hle (Int.natCast_nonneg q.load)
  omega

lemma pick_eq_first_eligible (hs : Sound q) (hspread : Spread q) : q.tree.pick q.isEligible =
      q.tree.toList.find? fun e => q.isEligible e.vruntime := by
  have hmem : ∀ v ∈ vruntimes q.tree.root, ∃ e ∈ q.entities, e.vruntime = v := by
    intro v hv
    obtain ⟨e, he, rfl⟩ := mem_map.mp hv
    exact ⟨e, mem_entities_of_tree he, rfl⟩
  have hplaced : Placed (fun v => offset v q.zero) (vruntimes q.tree.root) := by
    intro a ha b hb
    obtain ⟨first, hf, rfl⟩ := hmem a ha
    obtain ⟨second, hsecond, rfl⟩ := hmem b hb
    exact before_iff_of_near (hspread.vruntimes first hf second hsecond)
      (hs.based.near first hf) (hs.based.near second hsecond)
  exact pick_eq_find? hs.filed.wellFormed hplaced (fun a _ b _ hle hb => isEligible_mono hle hb)

lemma not_before_of_order {a b : Key} (hnear : Near a.deadline b.deadline)
    (h : a.order b = .lt) : before b.deadline a.deadline = false := by
  rw [Key.order] at h
  rw [before, decide_eq_false_iff_not, not_lt]
  split at h
  · rename_i heq
    rw [heq, offset_self]
  · split at h
    · rename_i hbefore
      rw [before, decide_eq_true_eq] at hbefore
      rw [offset_swap (by have := hnear.1; omega)]
      omega
    · simp at h

lemma pickNext_spec (hs : Sound q) (hspread : Spread q) (hne : q.entities ≠ []) :
    ∃ e ∈ q.entities, q.pickNext.2.curr = some e ∧
      q.putCurrBack.tree.pick q.putCurrBack.isEligible = some e ∧
      q.isEligible e.vruntime = true ∧
      ∀ other ∈ q.entities, q.isEligible other.vruntime = true → other ≠ e →
        e.key.order other.key = .lt := by
  obtain ⟨hback, hnone, hperm, -⟩ := putCurrBack_spec hs hspread
  have hspreadBack := spread_of_perm hspread hperm
  have heligible : ∀ v, q.putCurrBack.isEligible v = q.isEligible v := by
    intro v
    rw [RunQueue.putCurrBack]
    rcases q.curr with _ | curr <;> rfl
  have hneBack : q.putCurrBack.entities ≠ [] := by
    intro he
    rw [he] at hperm
    exact hne (nil_perm.mp hperm)
  simp only [← heligible, ← hperm.mem_iff]
  rw [RunQueue.pickNext]
  generalize q.putCurrBack = back at *
  have hentities : back.entities = back.tree.toList := by
    rw [RunQueue.entities, hnone]
    rfl
  have hpick := pick_eq_first_eligible hback hspreadBack
  obtain ⟨someone, hsomeone, hsomeoneEligible⟩ := exists_eligible hback hneBack
  rw [hentities] at hsomeone
  rcases hfound : back.tree.toList.find? (fun e => back.isEligible e.vruntime)
    with _ | e
  · exact absurd hsomeoneEligible (by simpa using List.find?_eq_none.mp hfound _ hsomeone)
  · rw [hfound] at hpick
    obtain ⟨hchosen, front, r, hsplit, hfront⟩ := List.find?_eq_some_iff_append.mp hfound
    have hm : e ∈ back.tree.toList := by
      rw [hsplit]
      simp
    have hchoose : back.choose = some e.key := by
      rw [RunQueue.choose, hpick]
      rfl
    obtain ⟨hremoved, -, -⟩ := hback.filed.remove
      (fun a ha b hb => hspreadBack.deadlines a (mem_entities_of_tree ha) b
        (mem_entities_of_tree hb)) hm
    simp only [hchoose, hremoved]
    refine ⟨e, mem_entities_of_tree hm, rfl, hpick, hchosen, ?_⟩
    intro other ho hotherEligible hne
    rw [hentities, hsplit, mem_append, mem_cons] at ho
    have horder := hback.filed.inOrder
    rw [InOrder, ← DeadlineTree.Tree.toList, hsplit, pairwise_append, pairwise_cons] at horder
    rcases ho with ho | rfl | ho
    · exact absurd hotherEligible (by simpa using hfront other ho)
    · exact absurd rfl hne
    · exact horder.2.1.1 other ho

/-- What an entity is owed, times the load: the weighted sum of everybody's offset from it. -/
def exactLag (queue : RunQueue T) (entity : Entity T) : Int :=
  weightedSum entity.vruntime queue.entities

lemma isEligible_iff (hs : Sound q) (hspread : Spread q) {e : Entity T} (he : e ∈ q.entities) :
    q.isEligible e.vruntime = true ↔ 0 ≤ exactLag q e := by
  have hshift : exactLag q e = weightedSum q.zero q.entities -
      offset e.vruntime q.zero * totalWeight q.entities :=
    weightedSum_shift fun o ho => offset_eq_sub_of_all_near
      (hspread.vruntimes o ho e he) (hs.based.near o ho)
      (hs.based.near e he)
  rw [RunQueue.isEligible, decide_eq_true_eq, RunQueue.relative, hshift, ← hs.counted.sum,
    ← hs.counted.load]
  omega

/-- What looking at everybody finds: of the entities owed something, the least in the order of
wrapping deadlines and identifiers. -/
structure BruteForce (queue : RunQueue T) (entity : Entity T) : Prop where
  mem : entity ∈ queue.entities
  owed : 0 ≤ exactLag queue entity
  least : ∀ other ∈ queue.entities, 0 ≤ exactLag queue other → other ≠ entity →
    entity.key.order other.key = .lt

/-- After every run that keeps the virtual times together, `pickNext` runs what brute force finds,
and the tree's pick finds it without the fallback. -/
theorem pick_is_brute_force (config : Config) (queue : RunQueue T) (calls : List (Call T))
    (hnew : RunQueue.new config = .ok queue) (hkeeping : Keeping queue calls)
    (hne : (calls.foldl step queue).entities ≠ []) :
    ∃ entity, BruteForce (calls.foldl step queue) entity ∧
      (calls.foldl step queue).pickNext.2.curr = some entity ∧
      (calls.foldl step queue).putCurrBack.tree.pick
        (calls.foldl step queue).putCurrBack.isEligible = some entity := by
  obtain ⟨hs, hspread⟩ := sound_foldl calls queue (sound_new hnew) hkeeping
  obtain ⟨entity, hmem, hcurr, hpick, heligible, hleast⟩ := pickNext_spec hs hspread hne
  refine ⟨entity, ⟨hmem, (isEligible_iff hs hspread hmem).mp heligible, ?_⟩, hcurr, hpick⟩
  intro other hother howed hother'
  exact hleast other hother ((isEligible_iff hs hspread hother).mpr howed) hother'

def longCharge : RunQueue Unit :=
  [Call.enqueue 1 () (.new 1024), .pickNext, .updateCurr (2 ^ 63), .enqueue 2 () (.new 1024),
    .pickNext, .updateCurr 1000000].foldl step
      ⟨⟨3000000⟩, DeadlineTree.Tree.new, none, 0#64, 0, 0⟩

theorem long_charge_misleads : Spread longCharge ∧
    longCharge.pickNext.2.curr.any fun entity => exactLag longCharge entity < 0 := by
  decide +kernel

theorem pick_is_brute_force_two : ∃ entity, BruteForce ([Call.enqueue 1 () (.new 1024),
    .enqueue 2 () (.new 2048), .pickNext, .updateCurr 3000000].foldl step
      ⟨⟨3000000⟩, DeadlineTree.Tree.new, none, 0#64, 0, 0⟩) entity := by
  obtain ⟨entity, hforce, -⟩ := pick_is_brute_force ⟨3000000⟩ _ [.enqueue 1 () (.new 1024),
    .enqueue 2 () (.new 2048), .pickNext, .updateCurr 3000000] rfl (by decide +kernel)
    (by decide +kernel)
  exact ⟨entity, hforce⟩

end Ferrix.Sched.Picking

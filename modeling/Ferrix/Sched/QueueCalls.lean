import Ferrix.Sched.Bookkeeping

namespace Ferrix.Sched.QueueCalls

open Foundations.WrappingClock DeadlineTree TreeOrder Eevdf Bookkeeping List RunQueue

variable {T : Type} {curr e : Entity T} {q q' : RunQueue T}

lemma near_deadlines (hspread : Spread q) :
    ∀ a ∈ q.tree.toList, ∀ b ∈ q.tree.toList, Near a.deadline b.deadline :=
  fun a ha b hb => hspread.deadlines a (mem_entities_of_tree ha) b (mem_entities_of_tree hb)

lemma enqueue_sound (hs : Sound q) (hspread : Spread q) (id : Nat)
    (payload : T) (s : EntityState) (hspread' : Spread (q.enqueue id payload s).2) :
    Sound (q.enqueue id payload s).2 := by
  rw [enqueue] at hspread' ⊢
  split
  · exact hs
  rename_i hweight
  rw [if_neg hweight] at hspread'
  split
  · exact hs
  rename_i hcontains
  rw [if_neg hcontains] at hspread'
  rw [spread_normalize] at hspread'
  have hfresh := not_contains hcontains
  have hid : (q.placed id payload s).id = id := rfl
  have hpayload : (q.placed id payload s).payload.isSome = true := rfl
  have hpos : 0 < (q.placed id payload s).weight := Nat.pos_of_ne_zero hweight
  generalize q.placed id payload s = e at *
  have hperm := entities_insert (q.addLoad e.vruntime e.weight) e
  have hnear : ∀ a ∈ q.entities, Near e.vruntime a.vruntime := by
    intro a ha
    exact hspread'.vruntimes e (hperm.mem_iff.mpr mem_cons_self) a
      (hperm.mem_iff.mpr (mem_cons_of_mem _ ha))
  refine sound_insert hs.filed hspread' ⟨?_, ?_, ?_, ?_, ?_, ?_⟩
  · rw [map_cons, nodup_cons, hid]
    refine ⟨?_, hs.names⟩
    intro hm
    obtain ⟨o, ho, heq⟩ := mem_map.mp hm
    exact hfresh o ho heq
  · exact forall_mem_cons.mpr ⟨hpayload, hs.payloads⟩
  · exact forall_mem_cons.mpr ⟨hpos, hs.weights⟩
  · rw [totalWeight_cons]
    change q.load + e.weight = e.weight + totalWeight q.entities
    rw [hs.counted.load, Nat.add_comm]
  · rw [weightedSum_cons]
    change q.sum + e.weight * offset e.vruntime q.zero =
      e.weight * offset e.vruntime q.zero + weightedSum q.zero q.entities
    rw [hs.counted.sum, Int.add_comm]
  · change Gathered q.zero (e :: q.entities)
    refine gathered_cons (hs.gathered hspread) hnear ?_
    intro hne
    have hlt := hs.based.sum_lt hne
    rw [hs.counted.sum, hs.counted.load] at hlt
    obtain ⟨anchor, hanchor, hbehind⟩ := exists_behind hlt
    have := (hs.based.near anchor hanchor).1
    have := le_offset e.vruntime q.zero
    have := offset_lt e.vruntime q.zero
    exact ⟨anchor, hanchor, by omega, by omega⟩

section

lemma pick_mem {eligible : BitVec 64 → Bool} {link : Link T}
    (h : link.pick eligible = some e) : e ∈ link.toList := by
  induction link with
  | empty => simp [Link.pick] at h
  | node root left right height minVruntime ihleft ihright =>
    rw [Link.pick] at h
    split at h
    · exact mem_append_left _ (ihleft h)
    · split at h
      · rw [Option.some.injEq] at h
        simp [h]
      · simp [ihright h]

lemma choose_spec (q : RunQueue T) : (q.choose = none ∧ q.tree.toList = []) ∨
      ∃ e ∈ q.tree.toList, q.choose = some e.key := by
  rw [RunQueue.choose]
  rcases hpick : q.tree.pick q.isEligible with _ | e
  · rw [DeadlineTree.Tree.first, first_eq_head?]
    rcases hlist : q.tree.toList with _ | ⟨head, r⟩
    · rw [DeadlineTree.Tree.toList] at hlist
      exact .inl ⟨by simp [hlist], rfl⟩
    · refine .inr ⟨head, mem_cons_self, ?_⟩
      rw [DeadlineTree.Tree.toList] at hlist
      simp [hlist]
  · exact .inr ⟨e, pick_mem hpick, by simp⟩

variable {q : RunQueue T}

lemma entities_of_curr (hcurr : q.curr = some curr) : q.entities = curr :: q.tree.toList := by
  rw [entities, hcurr]
  rfl

lemma names_tree (hs : Sound q) (hcurr : q.curr = some curr) :
    ∀ other ∈ q.tree.toList, other.id ≠ curr.id := by
  have hnames := hs.names
  rw [entities_of_curr hcurr, map_cons, nodup_cons] at hnames
  intro other ho heq
  exact hnames.1 (heq ▸ mem_map_of_mem ho)

lemma putCurrBack_spec (hs : Sound q) (hspread : Spread q) :
    Sound q.putCurrBack ∧ q.putCurrBack.curr = none ∧
      q.putCurrBack.entities.Perm q.entities ∧ q.putCurrBack.config = q.config := by
  rw [putCurrBack]
  rcases hcurr : q.curr with _ | curr
  · exact ⟨hs, hcurr, List.Perm.refl _, rfl⟩
  · have hentities := entities_of_curr hcurr
    have hperm : (entities { q with
        curr := none, tree := q.tree.insert curr }).Perm q.entities := by
      rw [hentities]
      exact toList_insert q.tree curr
    refine ⟨sound_of_perm hs hperm ?_ rfl rfl rfl, rfl, hperm, rfl⟩
    refine hs.filed.insert ?_ (names_tree hs hcurr)
    rw [← hentities]
    exact hspread.deadlines

lemma spread_of_perm (hspread : Spread q) (hperm : q'.entities.Perm q.entities) : Spread q' := by
  have hm : ∀ a ∈ times q', a ∈ times q := by
    intro a ha
    refine ((hperm.map Entity.vruntime).append (hperm.map Entity.deadline)).mem_iff.mp ha
  exact fun a ha b hb => hspread a (hm a ha) b (hm b hb)

lemma pickNext_sound (hs : Sound q) (hspread : Spread q) :
    Sound q.pickNext.2 ∧ q.pickNext.2.entities.Perm q.entities ∧
      q.pickNext.2.config = q.config := by
  obtain ⟨hback, hnone, hperm, hconfig⟩ := putCurrBack_spec hs hspread
  have hspreadBack := spread_of_perm hspread hperm
  rw [pickNext]
  generalize q.putCurrBack = back at *
  rcases choose_spec back with ⟨hchoose, -⟩ | ⟨e, hm, hchoose⟩
  · simp only [hchoose]
    exact ⟨hback, hperm, hconfig⟩
  · obtain ⟨hfound, hfiled, hr⟩ := hback.filed.remove (near_deadlines hspreadBack) hm
    simp only [hchoose, hfound]
    have hmoved : (entities { back with
        tree := (back.tree.remove e.key).1, curr := some e }).Perm
        back.entities := by
      rw [entities, entities, hnone]
      exact hr.symm
    exact ⟨sound_of_perm hback hmoved hfiled rfl rfl rfl, hmoved.trans hperm, hconfig⟩

lemma setSliceNs_sound (hs : Sound q) (sliceNs : Nat) : Sound (q.setSliceNs sliceNs).2 := by
  rw [setSliceNs]
  split
  · exact hs
  · exact ⟨hs.filed, hs.names, hs.payloads, hs.weights, { hs.counted with }, { hs.based with }⟩

lemma yieldCurr_sound (hs : Sound q) : Sound q.yieldCurr := by
  rw [yieldCurr]
  split
  · exact hs
  · rcases hcurr : q.curr with _ | curr
    · simp only [Option.map_none]
      rw [← hcurr]
      exact hs
    · have hentities := entities_of_curr hcurr
      obtain ⟨hfiled, hnames, hpayloads, hweights, ⟨hload, hsum⟩, he, hnonneg, hlt, hnear⟩ :=
        hs
      rw [hentities] at hnames hpayloads hweights hload hsum he hnonneg hlt hnear
      refine ⟨hfiled, hnames, ?_, ?_, ⟨hload, hsum⟩, ?_, ?_, ?_, ?_⟩
      · exact forall_mem_cons.mpr (forall_mem_cons.mp hpayloads)
      · exact forall_mem_cons.mpr (forall_mem_cons.mp hweights)
      · exact fun h => absurd h (by simp [entities])
      · exact fun _ => hnonneg (by simp)
      · exact fun _ => hlt (by simp)
      · exact forall_mem_cons.mpr (forall_mem_cons.mp hnear)

end

section

/-- One entity is out of the tree and out of the running slot, and still counted
in the sums. -/
structure Holding (queue : RunQueue T) (entity : Entity T) : Prop where
  filed : Filed queue.tree
  names : ((entity :: queue.entities).map Entity.id).Nodup
  payloads : ∀ other ∈ entity :: queue.entities, other.payload.isSome = true
  weights : ∀ other ∈ entity :: queue.entities, 0 < other.weight
  load : queue.load = totalWeight (entity :: queue.entities)
  sum : queue.sum = weightedSum queue.zero (entity :: queue.entities)
  sum_nonneg : 0 ≤ queue.sum
  sum_lt : queue.sum < queue.load
  near : ∀ other ∈ entity :: queue.entities, Near other.vruntime queue.zero
  gathered : Gathered queue.zero (entity :: queue.entities)

variable {q : RunQueue T}

section

variable (hs : Sound q)
include hs

variable (hspread : Spread q)
include hspread

lemma holding_of_perm
    (hperm : q.entities.Perm (e :: q'.entities)) (hfiled : Filed q'.tree) (hzero : q'.zero = q.zero)
    (hsum : q'.sum = q.sum) (hload : q'.load = q.load) : Holding q' e := by
  have hne : q.entities ≠ [] := by
    intro h
    rw [h] at hperm
    simpa using hperm.length_eq
  have hm : ∀ o ∈ e :: q'.entities, o ∈ q.entities :=
    fun o ho => hperm.mem_iff.mpr ho
  refine ⟨hfiled, (hperm.map Entity.id).nodup_iff.mp hs.names, fun o ho => hs.payloads o (hm o ho),
    fun o ho => hs.weights o (hm o ho), ?_, ?_, ?_, ?_, ?_, ?_⟩
  · rw [hload, hs.counted.load, totalWeight_perm hperm]
  · rw [hsum, hzero, hs.counted.sum, weightedSum_perm hperm]
  · exact hsum ▸ hs.based.sum_nonneg hne
  · rw [hsum, hload]
    exact hs.based.sum_lt hne
  · exact fun o ho => hzero ▸ hs.based.near o (hm o ho)
  · rw [hzero]
    exact fun a ha b hb => hs.gathered hspread a (hm a ha) b (hm b hb)

lemma holding_curr (hcurr : q.curr = some curr) : Holding { q with curr := none } curr := by
  refine holding_of_perm hs hspread ?_ hs.filed rfl rfl rfl
  rw [entities_of_curr hcurr]
  exact List.Perm.refl _

lemma holding_queued (hm : e ∈ q.tree.toList) : (q.tree.remove e.key).2 = some e ∧
      Holding { q with tree := (q.tree.remove e.key).1 } e := by
  obtain ⟨hfound, hfiled, hperm⟩ := hs.filed.remove (near_deadlines hspread) hm
  refine ⟨hfound, holding_of_perm hs hspread ?_ hfiled rfl rfl rfl⟩
  rw [entities, entities]
  exact (hperm.append_left _).trans perm_middle

omit hspread in
omit hs in
lemma detach_sound (h : Holding q e) : Sound (q.detach e).2 := by
  rw [detach]
  refine sound_normalize (List.Perm.refl q.entities) h.filed ⟨(nodup_cons.mp h.names).2,
    (forall_mem_cons.mp h.payloads).2, (forall_mem_cons.mp h.weights).2, ?_, ?_, ?_⟩
  · change q.load - e.weight = _
    rw [h.load, totalWeight_cons]
    omega
  · change q.sum - e.weight * offset e.vruntime q.zero = weightedSum q.zero q.entities
    rw [h.sum, weightedSum_cons]
    ring
  · exact fun a ha b hb =>
      h.gathered a (mem_cons_of_mem _ ha) b (mem_cons_of_mem _ hb)

lemma removeCurr_sound : Sound q.removeCurr.2 := by
  rw [removeCurr]
  rcases hcurr : q.curr with _ | curr
  · exact hs
  · exact detach_sound (holding_curr hs hspread hcurr)

lemma remove_sound (id : Nat) : Sound (q.remove id).2 := by
  rw [remove]
  split
  · exact removeCurr_sound hs hspread
  · rcases hfind : q.tree.find id with _ | k
    · exact hs
    · obtain ⟨e, hm, -, rfl⟩ := exists_of_find hfind
      obtain ⟨hfound, hholding⟩ := holding_queued hs hspread hm
      simp only [hfound]
      exact detach_sound hholding

end

variable {e : Entity T} {weight : Nat}

section

variable (h : Holding q e) {moved : Entity T}
include h

lemma Holding.avgVruntime : q.avgVruntime = q.zero := by
  rw [RunQueue.avgVruntime]
  split
  · rfl
  · rw [Int.ediv_eq_zero_of_lt h.sum_nonneg h.sum_lt]
    simp

lemma Holding.lagAt : q.lagAt e.vruntime = -offset e.vruntime q.zero := by
  have hload : (q.load : Int) ≠ 0 := by
    have := h.sum_nonneg
    have := h.sum_lt
    omega
  have hnear := h.near e mem_cons_self
  have := hnear.1
  have := hnear.2
  rw [RunQueue.lagAt, if_neg (by exact_mod_cast hload), RunQueue.relative, sub_eq_add_neg,
    ← neg_mul, Int.add_mul_ediv_right _ _ hload,
    Int.ediv_eq_zero_of_lt h.sum_nonneg h.sum_lt, zero_add, asI64, BitVec.toInt_ofInt]
  exact Int.bmod_eq_of_le_mul_two (by omega) (by omega)

lemma Holding.lt_offset_reweigh (weight : Nat) (hbehind : offset e.vruntime q.zero ≤ 0) :
    -2 ^ 63 < offset (q.reweigh e.vruntime e.weight weight).1.1 q.zero := by
  rw [reweigh]
  dsimp only
  rw [h.avgVruntime, h.lagAt]
  have howed : 0 ≤ (-offset e.vruntime q.zero * e.weight).tdiv weight :=
    Int.tdiv_nonneg (mul_nonneg (by omega) (Int.natCast_nonneg _)) (Int.natCast_nonneg _)
  generalize (-offset e.vruntime q.zero * e.weight).tdiv weight = owed at howed
  have hrange : 0 ≤ max (-i64Max - 1) (min owed i64Max) ∧
      max (-i64Max - 1) (min owed i64Max) < 2 ^ 63 := by
    rw [i64Max]
    omega
  generalize max (-i64Max - 1) (min owed i64Max) = owed at hrange
  rw [sub_eq_add_neg, ← BitVec.ofInt_neg, offset_add_ofInt] <;> rw [offset_self] <;> omega

lemma Holding.gathered_reweigh (weight : Nat)
    (hmoved : moved.vruntime = (q.reweigh e.vruntime e.weight weight).1.1)
    (hnear : ∀ a ∈ q.entities, Near moved.vruntime a.vruntime) :
    Gathered q.zero (moved :: q.entities) := by
  refine gathered_cons
    (fun a ha b hb => h.gathered a (mem_cons_of_mem _ ha) b (mem_cons_of_mem _ hb))
    hnear ?_
  intro hne
  have hlow := le_offset moved.vruntime q.zero
  have hhigh := offset_lt moved.vruntime q.zero
  by_cases hbehind : offset e.vruntime q.zero ≤ 0
  · have hinside := h.lt_offset_reweigh weight hbehind
    rw [← hmoved] at hinside
    obtain ⟨anchor, hanchor⟩ := exists_mem_of_ne_nil _ hne
    have hanchorNear := h.near anchor (mem_cons_of_mem _ hanchor)
    have := hanchorNear.1
    have := hanchorNear.2
    exact ⟨anchor, hanchor, by omega, by omega⟩
  · have hlt := h.sum_lt
    rw [h.sum, h.load] at hlt
    obtain ⟨anchor, hanchor, hle⟩ := exists_behind hlt
    rcases mem_cons.mp hanchor with rfl | hanchor
    · exact absurd hle hbehind
    · have := (h.near anchor (mem_cons_of_mem _ hanchor)).1
      exact ⟨anchor, hanchor, by omega, by omega⟩

lemma Holding.replace (moved : Entity T) (hid : moved.id = e.id)
    (hpayload : moved.payload = e.payload) (hweight : 0 < moved.weight) :
    ((moved :: q.entities).map Entity.id).Nodup ∧
      (∀ other ∈ moved :: q.entities, other.payload.isSome = true) ∧
      ∀ other ∈ moved :: q.entities, 0 < other.weight := by
  refine ⟨?_, ?_, ?_⟩
  · rw [map_cons, hid]
    exact h.names
  · have hpayloads := forall_mem_cons.mp h.payloads
    exact forall_mem_cons.mpr ⟨hpayload ▸ hpayloads.1, hpayloads.2⟩
  · exact forall_mem_cons.mpr ⟨hweight, (forall_mem_cons.mp h.weights).2⟩

lemma Holding.reweighed (hweight : weight ≠ 0)
    (hmoved : moved = reweighed e weight (q.reweigh e.vruntime e.weight weight).1)
    (hnear : ∀ a ∈ q.entities, Near moved.vruntime a.vruntime) :
    Ledger (q.reweigh e.vruntime e.weight weight).2 (moved :: q.entities) := by
  have hreplace := h.replace moved
  subst hmoved
  obtain ⟨hnames, hpayloads, hweights⟩ := hreplace rfl rfl (Nat.pos_of_ne_zero hweight)
  have hload := h.load
  have hsum := h.sum
  rw [totalWeight_cons] at hload
  rw [weightedSum_cons] at hsum
  refine ⟨hnames, hpayloads, hweights, ?_, ?_, h.gathered_reweigh weight rfl hnear⟩
  · change q.load - e.weight + weight = weight + totalWeight q.entities
    omega
  · change q.sum - e.weight * offset e.vruntime q.zero + weight * offset _ _ = _
    rw [weightedSum_cons, hsum, add_sub_cancel_left]
    exact add_comm _ _

lemma setQueuedWeight_sound (hweight : weight ≠ 0)
    (hspread' : Spread (q.setQueuedWeight e weight)) :
    Sound (q.setQueuedWeight e weight) := by
  rw [setQueuedWeight] at hspread' ⊢
  split
  · rename_i hsame
    rw [if_pos hsame, spread_normalize] at hspread'
    exact sound_insert h.filed hspread' { h with }
  · rename_i hchange
    rw [if_neg hchange] at hspread'
    rw [spread_normalize] at hspread'
    have hperm := entities_insert (q.reweigh e.vruntime e.weight weight).2
      (reweighed e weight (q.reweigh e.vruntime e.weight weight).1)
    refine sound_insert h.filed hspread' (h.reweighed hweight rfl ?_)
    intro a ha
    exact hspread'.vruntimes _ (hperm.mem_iff.mpr mem_cons_self) a
      (hperm.mem_iff.mpr (mem_cons_of_mem _ ha))

end

lemma setCurrWeight_sound (hs : Sound q) (hspread : Spread q) (hcurr : q.curr = some curr)
    (hweight : weight ≠ 0) (hspread' : Spread (q.setCurrWeight curr weight)) :
    Sound (q.setCurrWeight curr weight) := by
  rw [setCurrWeight] at hspread' ⊢
  split
  · exact hs
  · rename_i hchange
    rw [if_neg hchange] at hspread'
    dsimp only at hspread' ⊢
    rw [spread_normalize] at hspread'
    have hledger := (holding_curr hs hspread hcurr).reweighed hweight rfl
      fun a ha => hspread'.vruntimes _ mem_cons_self a (mem_cons_of_mem _ ha)
    exact sound_normalize (List.Perm.refl _) hs.filed { hledger with }

lemma updateCurr_sound (hs : Sound q) (hspread : Spread q) (deltaNs : Nat)
    (hcharge : ∀ curr ∈ q.curr, toVirtual deltaNs curr.weight < 2 ^ 62)
    (hspread' : Spread (q.updateCurr deltaNs).2) : Sound (q.updateCurr deltaNs).2 := by
  rw [updateCurr] at hspread' ⊢
  rcases hcurr : q.curr with _ | curr
  · exact hs
  · rw [hcurr] at hspread'
    dsimp only at hspread' ⊢
    rw [spread_normalize] at hspread'
    have h := holding_curr hs hspread hcurr
    have hdelta := hcharge curr hcurr
    have hmoved : offset (charge q.config.sliceNs deltaNs curr).1.vruntime
        q.zero = offset curr.vruntime q.zero + toVirtual deltaNs curr.weight := by
      change offset (curr.vruntime + BitVec.ofNat 64 (toVirtual deltaNs curr.weight)) _ = _
      rw [← BitVec.ofInt_natCast]
      obtain ⟨hlow, hhigh⟩ : Near curr.vruntime q.zero := h.near curr mem_cons_self
      exact offset_add_ofInt (by omega) (by omega)
    have hweight : (charge q.config.sliceNs deltaNs curr).1.weight = curr.weight :=
      rfl
    obtain ⟨hnames, hpayloads, hweights⟩ := h.replace
      (charge q.config.sliceNs deltaNs curr).1 rfl rfl
      (h.weights curr mem_cons_self)
    generalize (charge q.config.sliceNs deltaNs curr).1 = charged at *
    refine sound_normalize (List.Perm.refl (charged :: q.tree.toList)) hs.filed
      ⟨hnames, hpayloads, hweights, ?_, ?_, ?_⟩
    · rw [totalWeight_cons, hweight]
      exact h.load
    · have hsum : q.sum = weightedSum q.zero (curr :: q.tree.toList) := h.sum
      rw [weightedSum_cons] at hsum ⊢
      rw [hmoved, hweight, hsum]
      ring
    · refine gathered_cons ?_ ?_ ?_
      · exact fun a ha b hb =>
          h.gathered a (mem_cons_of_mem _ ha) b (mem_cons_of_mem _ hb)
      · intro a ha
        exact hspread'.vruntimes charged mem_cons_self a (mem_cons_of_mem _ ha)
      · intro hne
        obtain ⟨anchor, hanchor⟩ := exists_mem_of_ne_nil _ hne
        have hmem := mem_cons_of_mem curr hanchor
        have := h.gathered curr mem_cons_self anchor hmem
        have := h.gathered anchor hmem curr mem_cons_self
        refine ⟨anchor, hanchor, ?_⟩
        dsimp only at *
        omega

lemma setWeight_sound (hs : Sound q) (hspread : Spread q) (id weight : Nat)
    (hspread' : Spread (q.setWeight id weight).2) : Sound (q.setWeight id weight).2 := by
  rw [setWeight] at hspread' ⊢
  split
  · exact hs
  · rename_i hweight
    rw [if_neg hweight] at hspread'
    rcases hfilter : q.curr.filter fun curr => curr.id == id with _ | curr
    · simp only [hfilter] at hspread' ⊢
      rcases hfind : q.tree.find id with _ | k
      · exact hs
      · obtain ⟨e, hm, -, rfl⟩ := exists_of_find hfind
        obtain ⟨hfound, hholding⟩ := holding_queued hs hspread hm
        simp only [hfind, hfound] at hspread' ⊢
        exact setQueuedWeight_sound hholding hweight hspread'
    · simp only [hfilter] at hspread' ⊢
      exact setCurrWeight_sound hs hspread (Option.filter_eq_some_iff.mp hfilter).1 hweight hspread'

end

lemma popFirst_spec {tree : DeadlineTree.Tree T} (h : Filed tree)
    (hnear : ∀ a ∈ tree.toList, ∀ b ∈ tree.toList, Near a.deadline b.deadline)
    (hne : tree.toList ≠ []) : ∃ e, tree.popFirst.2 = some e ∧ Filed tree.popFirst.1 ∧
      tree.toList.Perm (e :: tree.popFirst.1.toList) := by
  rcases hlist : tree.toList with _ | ⟨head, r⟩
  · exact absurd hlist hne
  · have hf : tree.first = some head := by
      rw [DeadlineTree.Tree.toList] at hlist
      rw [DeadlineTree.Tree.first, first_eq_head?, hlist]
      rfl
    have hm : head ∈ tree.toList := by simp [hlist]
    obtain ⟨hfound, hfiled, hperm⟩ := h.remove hnear hm
    rw [DeadlineTree.Tree.popFirst, hf, ← hlist]
    exact ⟨head, hfound, hfiled, hperm⟩

lemma levelEach_spec {sliceNs : Nat} {avg : BitVec 64} {f : Entity T → Entity T}
    (hf : f = leveled sliceNs avg) (n : Nat) :
    ∀ {old : DeadlineTree.Tree T} (fresh : DeadlineTree.Tree T), Filed old →
      old.toList.length = n → (∀ a ∈ old.toList, ∀ b ∈ old.toList, Near a.deadline b.deadline) →
      (levelEach sliceNs avg n old fresh).toList.Perm
          (old.toList.map f ++ fresh.toList) ∧ (Filed fresh →
          (∀ a ∈ old.toList.map f ++ fresh.toList, ∀ b ∈ old.toList.map f ++ fresh.toList,
              Near a.deadline b.deadline) → ((old.toList.map f ++ fresh.toList).map
            Entity.id).Nodup → Filed (levelEach sliceNs avg n old fresh)) := by
  induction n with
  | zero =>
    intro old fresh _ hlen _
    rw [eq_nil_of_length_eq_zero hlen]
    exact ⟨List.Perm.refl _, fun hfresh _ _ => hfresh⟩
  | succ n ih =>
    intro old fresh hold hlen hnear
    obtain ⟨e, hpopped, hr, hold'⟩ :=
      popFirst_spec hold hnear (ne_nil_of_length_eq_add_one hlen)
    rw [levelEach]
    simp only [hpopped, ← hf]
    have hlen' := hold'.length_eq
    rw [length_cons] at hlen'
    obtain ⟨hperm, hfiled⟩ := ih (fresh.insert (f e)) hr (by omega) (fun a ha b hb =>
        hnear a (hold'.mem_iff.mpr (mem_cons_of_mem _ ha)) b
          (hold'.mem_iff.mpr (mem_cons_of_mem _ hb)))
    have hmoved : (old.popFirst.1.toList.map f ++ (fresh.insert (f e)).toList).Perm
        (f e :: (old.popFirst.1.toList.map f ++ fresh.toList)) :=
      ((toList_insert fresh _).append_left _).trans perm_middle
    have hall := ((hold'.map f).append_right fresh.toList)
    refine ⟨hperm.trans (hmoved.trans hall.symm), ?_⟩
    intro hfresh hnearAll hnames
    have hsub : ∀ a ∈ f e :: (old.popFirst.1.toList.map f ++ fresh.toList),
        a ∈ old.toList.map f ++ fresh.toList :=
      fun a ha => hall.mem_iff.mpr ha
    have hnodup := (hall.map Entity.id).nodup_iff.mp hnames
    refine hfiled (hfresh.insert ?_ ?_) ?_ ((hmoved.map Entity.id).nodup_iff.mpr hnodup)
    · have hfront : ∀ a ∈ f e :: fresh.toList, a ∈ f e ::
            (old.popFirst.1.toList.map f ++ fresh.toList) :=
        forall_mem_cons.mpr ⟨mem_cons_self, fun a ha => mem_cons_of_mem _ (mem_append_right _ ha)⟩
      exact fun a ha b hb =>
        hnearAll a (hsub a (hfront a ha)) b (hsub b (hfront b hb))
    · intro o ho heq
      rw [map_append, map_cons] at hnodup
      exact (nodup_cons.mp hnodup).1 (heq ▸ mem_append_right _ (mem_map_of_mem ho))
    · exact fun a ha b hb => hnearAll a (hsub a (hmoved.mem_iff.mp ha)) b
        (hsub b (hmoved.mem_iff.mp hb))

lemma weightedSum_leveled (sliceNs : Nat) (avg : BitVec 64) (entities : List (Entity T)) :
    weightedSum avg (entities.map (leveled sliceNs avg)) = 0 := by
  induction entities with
  | nil => rfl
  | cons e entities ih =>
    rw [map_cons, weightedSum_cons, ih]
    change _ * offset avg avg + 0 = 0
    rw [offset_self]
    ring

lemma level_sound (hs : Sound q) (hspread : Spread q)
    (hspread' : Spread q.level) : Sound q.level := by
  obtain ⟨hmoved, hfiled⟩ := levelEach_spec (f := leveled q.config.sliceNs q.avgVruntime) rfl
    q.tree.toList.length DeadlineTree.Tree.new hs.filed rfl (near_deadlines hspread)
  have hnew : (DeadlineTree.Tree.new : DeadlineTree.Tree T).toList = [] := rfl
  rw [hnew, append_nil] at hmoved hfiled
  have hperm : q.level.entities.Perm (q.entities.map (leveled q.config.sliceNs q.avgVruntime)) := by
    rw [entities, entities, map_append]
    refine List.Perm.append (List.Perm.of_eq ?_) hmoved
    change (q.curr.map _).toList = _
    rw [Option.toList_map]
  have hids : (q.entities.map (leveled q.config.sliceNs
      q.avgVruntime)).map Entity.id = q.entities.map Entity.id := by
    rw [map_map]
    rfl
  have hempty : q.level.entities = [] ↔ q.entities = [] := by
    rw [← length_eq_zero_iff, hperm.length_eq, length_map, length_eq_zero_iff]
  refine ⟨?_, ?_, ?_, ?_, ⟨?_, ?_⟩, ?_, ?_, ?_, ?_⟩
  · refine hfiled filed_new ?_ ?_
    · have hsub : ∀ a ∈ q.tree.toList.map
          (leveled q.config.sliceNs q.avgVruntime), a ∈ q.level.entities :=
        fun a ha => mem_append_right _ (hmoved.mem_iff.mpr ha)
      exact fun a ha b hb => hspread'.deadlines a (hsub a ha) b (hsub b hb)
    · rw [map_map]
      have hnames := hs.names
      rw [entities, map_append] at hnames
      exact (nodup_append.mp hnames).2.1
  · rw [(hperm.map Entity.id).nodup_iff, hids]
    exact hs.names
  · intro e he
    obtain ⟨o, ho, rfl⟩ := mem_map.mp (hperm.mem_iff.mp he)
    exact hs.payloads o ho
  · intro e he
    obtain ⟨o, ho, rfl⟩ := mem_map.mp (hperm.mem_iff.mp he)
    exact hs.weights o ho
  · rw [totalWeight_perm hperm, totalWeight, map_map]
    exact hs.counted.load
  · rw [weightedSum_perm hperm]
    exact (weightedSum_leveled _ _ _).symm
  · exact fun _ => rfl
  · exact fun _ => Int.le_refl 0
  · intro hne
    have hne' := mt hempty.mpr hne
    have := hs.based.sum_nonneg hne'
    have := hs.based.sum_lt hne'
    change (0 : Int) < q.load
    omega
  · intro e he
    obtain ⟨o, ho, rfl⟩ := mem_map.mp (hperm.mem_iff.mp he)
    exact Near.refl q.avgVruntime

end Ferrix.Sched.QueueCalls

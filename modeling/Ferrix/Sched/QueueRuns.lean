import Ferrix.Sched.QueueCalls

/-!
Whole runs of the run queue: every sequence of calls that keeps the virtual
times within a quarter of the clock leaves a queue that passes its own check.
-/

namespace Ferrix.Sched.QueueRuns

open Foundations.WrappingClock DeadlineTree TreeOrder TreeShape Eevdf Bookkeeping QueueCalls List

variable {T : Type}

inductive Call (T : Type) where
  | enqueue (id : Nat) (payload : T) (state : EntityState)
  | pickNext
  | updateCurr (deltaNs : Nat)
  | yieldCurr
  | setSliceNs (sliceNs : Nat)
  | setWeight (id weight : Nat)
  | level
  | removeCurr
  | remove (id : Nat)

def step (queue : RunQueue T) : Call T → RunQueue T
  | .enqueue id payload state => (queue.enqueue id payload state).2
  | .pickNext => queue.pickNext.2
  | .updateCurr deltaNs => (queue.updateCurr deltaNs).2
  | .yieldCurr => queue.yieldCurr
  | .setSliceNs sliceNs => (queue.setSliceNs sliceNs).2
  | .setWeight id weight => (queue.setWeight id weight).2
  | .level => queue.level
  | .removeCurr => queue.removeCurr.2
  | .remove id => (queue.remove id).2

def ChargeBounded (queue : RunQueue T) : Call T → Prop
  | .updateCurr deltaNs => ∀ curr ∈ queue.curr, toVirtual deltaNs curr.weight < 2 ^ 62
  | _ => True

/-- The virtual times stay within a quarter of the clock of each other in every
state of the run, and so does every charge. -/
def Keeping : RunQueue T → List (Call T) → Prop
  | queue, [] => Spread queue
  | queue, call :: calls =>
    Spread queue ∧ ChargeBounded queue call ∧ Keeping (step queue call) calls

instance (a b : BitVec 64) : Decidable (Near a b) :=
  inferInstanceAs (Decidable (_ ∧ _))

instance (queue : RunQueue T) : Decidable (Spread queue) :=
  decidable_of_iff ((times queue).all fun a => (times queue).all fun b => decide (Near a b))
    (by simp [Spread, all_eq_true])

instance (queue : RunQueue T) : (call : Call T) → Decidable (ChargeBounded queue call)
  | .updateCurr deltaNs =>
    inferInstanceAs (Decidable (∀ curr ∈ queue.curr, toVirtual deltaNs curr.weight < 2 ^ 62))
  | .enqueue _ _ _ | .pickNext | .yieldCurr | .setSliceNs _ | .setWeight _ _ | .level
  | .removeCurr | .remove _ => .isTrue trivial

instance decidableKeeping : (queue : RunQueue T) → (calls : List (Call T)) →
    Decidable (Keeping queue calls)
  | queue, [] => inferInstanceAs (Decidable (Spread queue))
  | queue, call :: calls =>
    have := decidableKeeping (step queue call) calls
    inferInstanceAs (Decidable (_ ∧ _ ∧ _))

variable {q : RunQueue T} {link : Link T}

lemma Keeping.spread {calls : List (Call T)} (h : Keeping q calls) : Spread q := by
  cases calls with
  | nil => exact h
  | cons c calls => exact h.1

lemma sound_step (hs : Sound q) (hspread : Spread q) {call : Call T}
    (hcharge : ChargeBounded q call) (hspread' : Spread (step q call)) :
    Sound (step q call) := by
  cases call with
  | enqueue id payload state => exact enqueue_sound hs hspread id payload state hspread'
  | pickNext => exact (pickNext_sound hs hspread).1
  | updateCurr deltaNs => exact updateCurr_sound hs hspread deltaNs hcharge hspread'
  | yieldCurr => exact yieldCurr_sound hs
  | setSliceNs sliceNs => exact setSliceNs_sound hs sliceNs
  | setWeight id weight => exact setWeight_sound hs hspread id weight hspread'
  | level => exact level_sound hs hspread hspread'
  | removeCurr => exact removeCurr_sound hs hspread
  | remove id => exact remove_sound hs hspread id

lemma sound_foldl (calls : List (Call T)) : ∀ q : RunQueue T, Sound q → Keeping q calls →
      Sound (calls.foldl step q) ∧ Spread (calls.foldl step q) := by
  induction calls with
  | nil =>
    intro q hs hkeeping
    exact ⟨hs, hkeeping⟩
  | cons c calls ih =>
    intro q hs hkeeping
    obtain ⟨hspread, hcharge, hr⟩ := hkeeping
    exact ih (step q c) (sound_step hs hspread hcharge hr.spread) hr

def depth : Link T → Nat
  | .empty => 0
  | .node _ left right _ _ => 1 + max (depth left) (depth right)

/-- Heights are depths, subtrees differ in depth by at most one, and every
recorded minimum is the virtual runtime of an entity below that none below is
before. -/
def Exact : Link T → Prop
  | .empty => True
  | .node entity left right height minVruntime =>
    Exact left ∧ Exact right ∧ height = depth (.node entity left right height minVruntime) ∧
      depth left ≤ depth right + 1 ∧ depth right ≤ depth left + 1 ∧
      minVruntime ∈ vruntimes (.node entity left right height minVruntime) ∧
      ∀ v ∈ vruntimes (.node entity left right height minVruntime),
        before v minVruntime = false

lemma height_eq_depth (h : WellFormed link) : link.height = depth link := by
  induction link with
  | empty => rfl
  | node e left right height minVruntime ihleft ihright =>
    obtain ⟨hleft, hright, hheight, -⟩ := h
    rw [height_node, hheight, ihleft hleft, ihright hright]
    rfl

lemma exact_of_wellFormed (place : BitVec 64 → Int) (h : WellFormed link)
    (hplaced : Placed place (vruntimes link)) : Exact link := by
  induction link with
  | empty => trivial
  | node e left right height minVruntime ihleft ihright =>
    obtain ⟨hmem, hleast⟩ := minVruntime_spec h hplaced minVruntime rfl
    have hdepth := height_eq_depth h
    obtain ⟨hleft, hright, -, hl, hr, -⟩ := h
    rw [height_eq_depth hleft, height_eq_depth hright] at hl hr
    refine ⟨ihleft hleft (hplaced.mono (by simp [vruntimes])),
      ihright hright (hplaced.mono (by simp [vruntimes])), hdepth, hl, hr, hmem, ?_⟩
    intro v hv
    rw [← Bool.not_eq_true, hplaced v hv minVruntime hmem]
    have := hleast v hv
    omega

lemma Sound.exact {q : RunQueue T} (hs : Sound q) (hspread : Spread q) : Exact q.tree.root := by
  rcases hlist : vruntimes q.tree.root with _ | ⟨origin, r⟩
  · refine exact_of_wellFormed (fun _ => 0) hs.filed.wellFormed ?_
    rw [hlist]
    intro a ha
    simp at ha
  · have horigin : origin ∈ vruntimes q.tree.root := by simp [hlist]
    refine exact_of_wellFormed _ hs.filed.wellFormed (placed_of_near ?_ horigin)
    intro a ha b hb
    obtain ⟨f, hf, rfl⟩ := mem_map.mp ha
    obtain ⟨second, hsecond, rfl⟩ := mem_map.mp hb
    exact hspread.vruntimes f (mem_entities_of_tree hf) second (mem_entities_of_tree hsecond)

lemma checkSums_eq_ok (hs : Sound q) : q.checkSums = .ok () := by
  have hviews : (q.entities.filter fun e => e.payload.isSome) = q.entities :=
    filter_eq_self.mpr hs.payloads
  rw [RunQueue.checkSums, hviews, if_neg, if_neg, if_neg, if_neg]
  · rintro ⟨hload, hr⟩
    have hne : q.entities ≠ [] := by
      intro he
      apply hload
      rw [hs.counted.load, he]
      rfl
    exact hr ⟨hs.based.sum_nonneg hne, hs.based.sum_lt hne⟩
  · rintro ⟨hload, hsum⟩
    refine hsum (hs.based.empty ?_)
    by_contra hne
    have := totalWeight_pos hne hs.weights
    rw [← hs.counted.load] at this
    omega
  · rw [not_not]
    exact hs.counted.sum.symm
  · rw [not_not]
    exact hs.counted.load.symm

lemma checkInvariants_eq_ok (hs : Sound q) (hspread : Spread q) : q.checkInvariants = .ok () := by
  have hcheck : q.tree.check = .ok q.tree.toList.length :=
    check_eq_ok hs.filed.wellFormed hs.filed.inOrder (consistent_keys (fun a ha b hb =>
      hspread.deadlines a (mem_entities_of_tree ha) b (mem_entities_of_tree hb)))
  rw [RunQueue.checkInvariants, hcheck]
  dsimp only
  rw [if_neg, if_neg, if_neg]
  · exact checkSums_eq_ok hs
  · intro hany
    rw [Option.any_eq_true] at hany
    obtain ⟨curr, hcurr, hfind⟩ := hany
    obtain ⟨k, hk⟩ := Option.isSome_iff_exists.mp hfind
    obtain ⟨o, ho, hid, -⟩ := exists_of_find hk
    exact names_tree hs hcurr o ho hid
  · rw [Bool.or_eq_true, not_or]
    constructor
    · intro hany
      rw [any_eq_true] at hany
      obtain ⟨e, he, hnone⟩ := hany
      have := hs.payloads e (mem_entities_of_tree he)
      rw [Option.isNone_iff_eq_none] at hnone
      simp [hnone] at this
    · intro hany
      rw [Option.any_eq_true] at hany
      obtain ⟨curr, hcurr, hnone⟩ := hany
      have := hs.payloads curr (by rw [entities_of_curr hcurr]; exact mem_cons_self)
      rw [Option.isNone_iff_eq_none] at hnone
      simp [hnone] at this
  · rw [not_not]
    exact hs.filed.len.symm

structure Exactly (queue : RunQueue T) : Prop where
  check : queue.checkInvariants = .ok ()
  inOrder : InOrder queue.tree.root
  exact : Exact queue.tree.root
  len : queue.tree.len = queue.tree.toList.length
  names : (queue.entities.map Entity.id).Nodup
  load : queue.load = (queue.entities.map Entity.weight).sum
  sum : queue.sum = (queue.entities.map fun entity =>
    (entity.weight : Int) * offset entity.vruntime queue.zero).sum
  base : queue.entities ≠ [] → 0 ≤ queue.sum ∧ queue.sum < queue.load

/-- After every run from a fresh queue that keeps the virtual times together,
the bookkeeping is exact and passes the queue's own check. -/
theorem bookkeeping_exact (config : Config) (queue : RunQueue T) (calls : List (Call T))
    (hnew : RunQueue.new config = .ok queue) (hkeeping : Keeping queue calls) :
    Exactly (calls.foldl step queue) := by
  obtain ⟨hs, hspread⟩ := sound_foldl calls queue (sound_new hnew) hkeeping
  exact ⟨checkInvariants_eq_ok hs hspread, hs.filed.inOrder, Sound.exact hs hspread,
    hs.filed.len, hs.names, hs.counted.load, hs.counted.sum,
    fun hne => ⟨hs.based.sum_nonneg hne, hs.based.sum_lt hne⟩⟩

theorem bookkeeping_exact_two :
    Exactly ([Call.enqueue 1 () (.new 1024), .enqueue 2 () (.new 2048), .pickNext,
      .updateCurr 3000000, .pickNext, .setWeight 1 512, .remove 2].foldl step
      ⟨⟨3000000⟩, DeadlineTree.Tree.new, none, 0#64, 0, 0⟩) :=
  bookkeeping_exact ⟨3000000⟩ _ _ rfl (by decide +kernel)

/-- The deepest way down the tree, and so every height and recursion, is logarithmic in what is
queued. -/
theorem tree_stays_shallow (config : Config) (queue : RunQueue T) (calls : List (Call T))
    (hnew : RunQueue.new config = .ok queue) (hkeeping : Keeping queue calls) :
    2 ^ (depth (calls.foldl step queue).tree.root / 2) ≤ (calls.foldl step queue).tree.len + 1 := by
  obtain ⟨hs, -⟩ := sound_foldl calls queue (sound_new hnew) hkeeping
  rw [← height_eq_depth hs.filed.wellFormed, hs.filed.len]
  exact two_pow_height_le hs.filed.wellFormed

theorem tree_stays_shallow_two :
    2 ^ (depth ([Call.enqueue 1 () (.new 1024), .enqueue 2 () (.new 2048)].foldl step
      ⟨⟨3000000⟩, .new, none, 0#64, 0, 0⟩).tree.root / 2) ≤ 3 :=
  tree_stays_shallow ⟨3000000⟩ _ _ rfl (by decide +kernel)

end Ferrix.Sched.QueueRuns

import Ferrix.Sched.Eevdf
import Ferrix.Sched.TreeShape

/-!
The run queue's bookkeeping: the tree, the names and the incremental sums stay
exact while the virtual times on the queue stay within a quarter of the clock.
-/

namespace Ferrix.Sched.Bookkeeping

open Foundations.WrappingClock DeadlineTree TreeOrder TreeShape Eevdf List RunQueue

variable {T : Type} {zero : BitVec 64} {e : Entity T} {q : RunQueue T} {tree : DeadlineTree.Tree T}

section

def totalWeight (entities : List (Entity T)) : Nat := (entities.map Entity.weight).sum

def weightedSum (zero : BitVec 64) (entities : List (Entity T)) : Int :=
  (entities.map fun entity => (entity.weight : Int) * offset entity.vruntime zero).sum

@[simp]
lemma totalWeight_cons (e : Entity T) (entities : List (Entity T)) :
    totalWeight (e :: entities) = e.weight + totalWeight entities := rfl

@[simp]
lemma weightedSum_cons (zero : BitVec 64) (e : Entity T) (entities : List (Entity T)) :
    weightedSum zero (e :: entities) =
      e.weight * offset e.vruntime zero + weightedSum zero entities := rfl

lemma totalWeight_perm {entities entities' : List (Entity T)} (h : entities.Perm entities') :
    totalWeight entities = totalWeight entities' :=
  (h.map _).sum_eq

lemma weightedSum_perm {entities entities' : List (Entity T)} (h : entities.Perm entities') :
    weightedSum zero entities = weightedSum zero entities' :=
  (h.map _).sum_eq

variable {entities : List (Entity T)}

lemma mul_totalWeight (v : Int) :
    v * totalWeight entities = (entities.map fun e => e.weight * v).sum := by
  induction entities with
  | nil => simp [totalWeight]
  | cons e entities ih =>
    rw [totalWeight_cons, Nat.cast_add, mul_add, ih, mul_comm, List.map_cons, List.sum_cons]

lemma le_weightedSum {low : Int} (h : ∀ e ∈ entities, low ≤ offset e.vruntime zero) :
    low * totalWeight entities ≤ weightedSum zero entities := by
  rw [mul_totalWeight]
  exact List.sum_le_sum fun e he =>
    mul_le_mul_of_nonneg_left (h e he) (Int.natCast_nonneg _)

lemma weightedSum_le {high : Int} (h : ∀ e ∈ entities, offset e.vruntime zero ≤ high) :
    weightedSum zero entities ≤ high * totalWeight entities := by
  rw [mul_totalWeight]
  exact List.sum_le_sum fun e he =>
    mul_le_mul_of_nonneg_left (h e he) (Int.natCast_nonneg _)

lemma weightedSum_shift {t : BitVec 64} {shift : Int}
    (h : ∀ e ∈ entities, offset e.vruntime t = offset e.vruntime zero - shift) :
    weightedSum t entities = weightedSum zero entities - shift * totalWeight entities := by
  induction entities with
  | nil => simp [totalWeight, weightedSum]
  | cons e entities ih =>
    rw [weightedSum_cons, weightedSum_cons, totalWeight_cons, h e (by simp),
      ih (fun o ho => h o (by simp [ho])), Nat.cast_add]
    ring

lemma totalWeight_pos (hne : entities ≠ []) (hpos : ∀ e ∈ entities, 0 < e.weight) :
    0 < totalWeight entities := by
  rcases entities with _ | ⟨e, entities⟩
  · exact absurd rfl hne
  · have := hpos e (by simp)
    rw [totalWeight_cons]
    omega

lemma exists_behind (hlt : weightedSum zero entities < totalWeight entities) :
    ∃ e ∈ entities, offset e.vruntime zero ≤ 0 := by
  by_contra hnone
  push Not at hnone
  have hle : 1 * (totalWeight entities : Int) ≤ weightedSum zero entities :=
    le_weightedSum (fun e he => by have := hnone e he; omega)
  omega

@[simp]
lemma normalize_tree (q : RunQueue T) : q.normalize.tree = q.tree := by
  unfold RunQueue.normalize
  split <;> rfl

@[simp]
lemma normalize_curr (q : RunQueue T) : q.normalize.curr = q.curr := by
  unfold RunQueue.normalize
  split <;> rfl

@[simp]
lemma normalize_load (q : RunQueue T) : q.normalize.load = q.load := by
  unfold RunQueue.normalize
  split <;> rfl

@[simp]
lemma normalize_config (q : RunQueue T) : q.normalize.config = q.config := by
  unfold RunQueue.normalize
  split <;> rfl

@[simp]
lemma normalize_entities (q : RunQueue T) : q.normalize.entities = q.entities := by
  simp [entities]

structure Counted (queue : RunQueue T) : Prop where
  load : queue.load = totalWeight queue.entities
  sum : queue.sum = weightedSum queue.zero queue.entities

/-- The base is at the virtual time, and near everyone. -/
structure Based (queue : RunQueue T) : Prop where
  empty : queue.entities = [] → queue.sum = 0
  sum_nonneg : queue.entities ≠ [] → 0 ≤ queue.sum
  sum_lt : queue.entities ≠ [] → queue.sum < queue.load
  near : ∀ entity ∈ queue.entities, Near entity.vruntime queue.zero

/-- No two offsets from `zero` are more than a quarter of the clock apart. -/
def Gathered (zero : BitVec 64) (entities : List (Entity T)) : Prop :=
  ∀ a ∈ entities, ∀ b ∈ entities,
    offset a.vruntime zero - offset b.vruntime zero ≤ 2 ^ 62

lemma gathered_cons {new : Entity T} {rest : List (Entity T)} (hrest : Gathered zero rest)
    (hnear : ∀ a ∈ rest, Near new.vruntime a.vruntime)
    (hanchor : rest ≠ [] → ∃ a ∈ rest, -(2 ^ 63 + 2 ^ 62) < offset new.vruntime zero - offset
      a.vruntime zero ∧ offset new.vruntime zero - offset a.vruntime zero < 2 ^ 63 + 2 ^ 62) :
    Gathered zero (new :: rest) := by
  have hexact : ∀ b ∈ rest, offset new.vruntime zero - offset b.vruntime zero ≤ 2 ^ 62 ∧
        offset b.vruntime zero - offset new.vruntime zero ≤ 2 ^ 62 := by
    intro b hb
    obtain ⟨a, ha, hlow, hhigh⟩ := hanchor (ne_nil_of_mem hb)
    have hf := offset_eq_sub_of_near (hnear a ha) hlow hhigh
    have := (hnear a ha).1
    have := (hnear a ha).2
    have := hrest a ha b hb
    have := hrest b hb a ha
    have hsecond := offset_eq_sub_of_near (c := zero) (hnear b hb) (by omega) (by omega)
    have := (hnear b hb).1
    have := (hnear b hb).2
    omega
  intro a ha b hb
  rcases mem_cons.mp ha with ha' | ha' <;> rcases mem_cons.mp hb with hb' | hb'
  · rw [ha', hb']
    omega
  · rw [ha']
    exact (hexact b hb').1
  · rw [hb']
    exact (hexact a ha').2
  · exact hrest a ha' b hb'

lemma mean_bounds (hcounted : Counted q) (hload : (0 : Int) < q.load)
    (low high : Int) (hlow : ∀ e ∈ q.entities, low ≤ offset e.vruntime q.zero)
    (hhigh : ∀ e ∈ q.entities, offset e.vruntime q.zero ≤ high) :
    low ≤ q.sum / q.load ∧ q.sum / q.load ≤ high := by
  have hle := le_weightedSum hlow
  have hge := weightedSum_le hhigh
  rw [← hcounted.sum, ← hcounted.load] at hle hge
  exact ⟨(Int.le_ediv_iff_mul_le hload).mpr hle, Int.ediv_le_of_le_mul hload hge⟩

lemma normalize_base (hload : q.load ≠ 0)
    (hlow : -2 ^ 63 ≤ q.sum / q.load) (hhigh : q.sum / q.load < 2 ^ 63) :
    offset q.normalize.zero q.zero = q.sum / q.load ∧ q.normalize.sum = q.sum % q.load := by
  have htarget : q.normalize.zero = q.zero + BitVec.ofInt 64 (q.sum / q.load) := by
    rw [RunQueue.normalize, if_neg hload]
    simp [avgVruntime, hload]
  have hshift : offset q.normalize.zero q.zero = q.sum / q.load := by
    rw [htarget, offset_add_ofInt] <;> rw [offset_self] <;> omega
  refine ⟨hshift, ?_⟩
  rw [Int.emod_def, mul_comm, ← hshift, htarget, RunQueue.normalize, if_neg hload]
  simp [avgVruntime, hload, relative]

lemma normalize_spec (hcounted : Counted q)
    (hpos : ∀ e ∈ q.entities, 0 < e.weight) (hgathered : Gathered q.zero q.entities) :
    Counted q.normalize ∧ Based q.normalize := by
  by_cases hempty : q.entities = []
  · have hload : q.load = 0 := by
      rw [hcounted.load, hempty]
      rfl
    have hzero : q.normalize.sum = 0 := by
      rw [RunQueue.normalize, if_pos hload]
    refine ⟨⟨?_, ?_⟩, ?_, ?_, ?_, ?_⟩
    · rw [normalize_load, normalize_entities, hcounted.load]
    · rw [hzero, normalize_entities, hempty]
      rfl
    all_goals simp [hzero, hempty]
  · have htotal := totalWeight_pos hempty hpos
    have hload : q.load ≠ 0 := by
      rw [hcounted.load]
      omega
    have hloadPos : (0 : Int) < q.load := by
      exact_mod_cast Nat.pos_of_ne_zero hload
    have hmean := mean_bounds hcounted hloadPos
    have hrange := hmean (-2 ^ 63) (2 ^ 63 - 1) (fun e _ => le_offset _ _)
      (fun e _ => by have := offset_lt e.vruntime q.zero; omega)
    obtain ⟨hshift, hmod⟩ := normalize_base hload hrange.1 (by omega)
    have hnear : ∀ e ∈ q.entities, offset e.vruntime q.normalize.zero =
          offset e.vruntime q.zero - q.sum / q.load ∧
        Near e.vruntime q.normalize.zero := by
      intro e he
      have haround := hmean (offset e.vruntime q.zero - 2 ^ 62) (offset e.vruntime q.zero + 2 ^ 62)
        (fun other hother => by have := hgathered e he other hother; omega)
        (fun other hother => by have := hgathered other hother e he; omega)
      have hoffset := offset_eq_sub (a := e.vruntime) (b := q.normalize.zero)
        (c := q.zero) (by rw [hshift]; omega) (by rw [hshift]; omega)
      rw [hshift] at hoffset
      exact ⟨hoffset, by constructor <;> omega⟩
    refine ⟨⟨?_, ?_⟩, ?_, ?_, ?_, ?_⟩
    · rw [normalize_load, normalize_entities, hcounted.load]
    · rw [normalize_entities, weightedSum_shift (fun e he => (hnear e he).1),
        hmod, Int.emod_def, mul_comm, ← hcounted.sum, ← hcounted.load]
    · intro h
      exact absurd h (by simpa using hempty)
    · intro _
      rw [hmod]
      exact Int.emod_nonneg _ hloadPos.ne'
    · intro _
      rw [hmod, normalize_load]
      exact Int.emod_lt_of_pos _ hloadPos
    · intro e he
      rw [normalize_entities] at he
      exact (hnear e he).2

end

structure Filed (tree : DeadlineTree.Tree T) : Prop where
  wellFormed : WellFormed tree.root
  inOrder : InOrder tree.root
  len : tree.len = tree.toList.length

lemma filed_new : Filed (DeadlineTree.Tree.new : DeadlineTree.Tree T) :=
  ⟨trivial, by simp [InOrder, DeadlineTree.Tree.new], rfl⟩

lemma toList_insert (tree : DeadlineTree.Tree T) (e : Entity T) :
    (tree.insert e).toList.Perm (e :: tree.toList) :=
  perm_insert tree.root e

lemma consistent_keys {entities : List (Entity T)}
    (hnear : ∀ a ∈ entities, ∀ b ∈ entities, Near a.deadline b.deadline) :
    Consistent (entities.map Entity.key) := by
  refine consistent_of_near ?_
  intro a ha b hb
  obtain ⟨f, hf, rfl⟩ := mem_map.mp ha
  obtain ⟨second, hsecond, rfl⟩ := mem_map.mp hb
  exact hnear f hf second hsecond

lemma Filed.insert (h : Filed tree)
    (hnear : ∀ a ∈ e :: tree.toList, ∀ b ∈ e :: tree.toList, Near a.deadline b.deadline)
    (hn : ∀ other ∈ tree.toList, other.id ≠ e.id) : Filed (tree.insert e) := by
  refine ⟨(insert_wellFormed e h.wellFormed).1, ?_, ?_⟩
  · refine inOrder_insert (consistent_keys hnear) ?_ h.inOrder
    · intro hm
      obtain ⟨other, ho, hk⟩ := mem_map.mp hm
      exact hn other ho (congrArg Key.id hk)
  · rw [(toList_insert tree e).length_eq, length_cons, ← h.len]
    rfl

lemma Filed.remove (h : Filed tree)
    (hnear : ∀ a ∈ tree.toList, ∀ b ∈ tree.toList, Near a.deadline b.deadline)
    (hm : e ∈ tree.toList) :
    (tree.remove e.key).2 = some e ∧ Filed (tree.remove e.key).1 ∧
      tree.toList.Perm (e :: (tree.remove e.key).1.toList) := by
  have hkeys := consistent_keys hnear
  obtain ⟨hfound, front, back, hsplit, hr⟩ := remove_spec hkeys h.inOrder hm
  have hperm : tree.toList.Perm (e :: (tree.remove e.key).1.toList) := by
    change tree.toList.Perm (e :: (tree.root.remove e.key).1.toList)
    rw [hr, DeadlineTree.Tree.toList, hsplit]
    exact perm_middle
  refine ⟨hfound, ⟨(remove_wellFormed e.key h.wellFormed).1,
    inOrder_remove hkeys h.inOrder hm, ?_⟩, hperm⟩
  have hlen := hperm.length_eq
  have hn : (tree.remove e.key).1.len = tree.len - 1 := by
    simp [DeadlineTree.Tree.remove, hfound]
  rw [length_cons, ← h.len] at hlen
  omega

def times (queue : RunQueue T) : List (BitVec 64) :=
  queue.entities.map Entity.vruntime ++ queue.entities.map Entity.deadline

/-- All virtual runtimes and deadlines on the queue are within a quarter of the
clock of each other. -/
def Spread (queue : RunQueue T) : Prop :=
  ∀ a ∈ times queue, ∀ b ∈ times queue, Near a b

variable {q : RunQueue T}

lemma Spread.vruntimes (h : Spread q) :
    ∀ a ∈ q.entities, ∀ b ∈ q.entities, Near a.vruntime b.vruntime := by
  intro a ha b hb
  exact h _ (mem_append_left _ (mem_map_of_mem ha)) _ (mem_append_left _ (mem_map_of_mem hb))

lemma Spread.deadlines (h : Spread q) :
    ∀ a ∈ q.entities, ∀ b ∈ q.entities, Near a.deadline b.deadline := by
  intro a ha b hb
  exact h _ (mem_append_right _ (mem_map_of_mem ha)) _ (mem_append_right _ (mem_map_of_mem hb))

structure Sound (queue : RunQueue T) : Prop where
  filed : Filed queue.tree
  names : (queue.entities.map Entity.id).Nodup
  payloads : ∀ entity ∈ queue.entities, entity.payload.isSome = true
  weights : ∀ entity ∈ queue.entities, 0 < entity.weight
  counted : Counted queue
  based : Based queue

lemma mem_entities_of_tree (h : e ∈ q.tree.toList) : e ∈ q.entities :=
  mem_append_right _ h

lemma Sound.gathered (hs : Sound q) (hspread : Spread q) : Gathered q.zero q.entities := by
  intro a ha b hb
  have hab := hspread.vruntimes a ha b hb
  have := offset_eq_sub_of_all_near hab (hs.based.near a ha) (hs.based.near b hb)
  have := hab.2
  omega

lemma Sound.avgVruntime (hs : Sound q) : q.avgVruntime = q.zero := by
  rw [RunQueue.avgVruntime]
  split
  · rfl
  · rename_i hload
    have hne : q.entities ≠ [] := by
      intro he
      apply hload
      rw [hs.counted.load, he]
      rfl
    rw [Int.ediv_eq_zero_of_lt (hs.based.sum_nonneg hne) (hs.based.sum_lt hne)]
    simp

/-- What the sums of a queue say of `entities`, before `normalize` moves its zero. -/
structure Ledger (queue : RunQueue T) (entities : List (Entity T)) : Prop where
  names : (entities.map Entity.id).Nodup
  payloads : ∀ entity ∈ entities, entity.payload.isSome = true
  weights : ∀ entity ∈ entities, 0 < entity.weight
  load : queue.load = totalWeight entities
  sum : queue.sum = weightedSum queue.zero entities
  gathered : Gathered queue.zero entities

lemma sound_normalize {entities : List (Entity T)} (hperm : q.entities.Perm entities)
    (hfiled : Filed q.tree) (h : Ledger q entities) : Sound q.normalize := by
  have hweights : ∀ e ∈ q.entities, 0 < e.weight :=
    fun e he => h.weights e (hperm.mem_iff.mp he)
  obtain ⟨hcounted, hbased⟩ := normalize_spec
    ⟨h.load.trans (totalWeight_perm hperm.symm), h.sum.trans (weightedSum_perm hperm.symm)⟩
    hweights (fun a ha b hb => h.gathered a (hperm.mem_iff.mp ha) b (hperm.mem_iff.mp hb))
  refine ⟨by simpa using hfiled, ?_, ?_, by simpa using hweights, hcounted, hbased⟩
  · rw [normalize_entities]
    exact (hperm.map Entity.id).nodup_iff.mpr h.names
  · intro e he
    rw [normalize_entities] at he
    exact h.payloads e (hperm.mem_iff.mp he)

lemma sound_of_perm {q' : RunQueue T} (hs : Sound q) (hperm : q'.entities.Perm q.entities)
    (hfiled : Filed q'.tree) (hzero : q'.zero = q.zero) (hsum : q'.sum = q.sum)
    (hload : q'.load = q.load) : Sound q' := by
  have hempty : q'.entities = [] ↔ q.entities = [] := by
    rw [← length_eq_zero_iff, hperm.length_eq, length_eq_zero_iff]
  refine ⟨hfiled, (hperm.map Entity.id).nodup_iff.mpr hs.names, ?_, ?_, ⟨?_, ?_⟩, ?_, ?_, ?_, ?_⟩
  · exact fun e he => hs.payloads e (hperm.mem_iff.mp he)
  · exact fun e he => hs.weights e (hperm.mem_iff.mp he)
  · rw [hload, hs.counted.load, totalWeight_perm hperm]
  · rw [hsum, hzero, hs.counted.sum, weightedSum_perm hperm]
  · exact fun h => hsum.trans (hs.based.empty (hempty.mp h))
  · exact fun h => hsum ▸ hs.based.sum_nonneg (mt hempty.mpr h)
  · exact fun h => by
      rw [hsum, hload]
      exact hs.based.sum_lt (mt hempty.mpr h)
  · exact fun e he => hzero ▸ hs.based.near e (hperm.mem_iff.mp he)

lemma not_contains {id : Nat} (h : ¬ q.contains id = true) : ∀ e ∈ q.entities, e.id ≠ id := by
  rw [RunQueue.contains, Bool.or_eq_true, not_or, Option.not_isSome_iff_eq_none] at h
  obtain ⟨hcurr, hfind⟩ := h
  intro e he
  rcases mem_append.mp he with he | he
  · rw [Option.mem_toList] at he
    rw [he] at hcurr
    simpa using hcurr
  · exact (find_eq_none_iff _ _).mp hfind e he

lemma sound_new {config : Config} (hnew : RunQueue.new config = .ok q) : Sound q := by
  rw [new] at hnew
  split at hnew
  · simp at hnew
  · rw [Except.ok.injEq] at hnew
    subst hnew
    refine ⟨filed_new, ?_, ?_, ?_, ⟨rfl, rfl⟩, ?_, ?_, ?_, ?_⟩ <;>
      simp [entities, DeadlineTree.Tree.new, DeadlineTree.Tree.toList]

lemma entities_insert (q : RunQueue T) (e : Entity T) :
    (entities { q with tree := q.tree.insert e }).Perm (e :: q.entities) :=
  ((toList_insert q.tree e).append_left _).trans perm_middle

lemma filed_insert (hfiled : Filed q.tree)
    (hnear : ∀ a ∈ e :: q.entities, ∀ b ∈ e :: q.entities, Near a.deadline b.deadline)
    (hn : ∀ other ∈ q.entities, other.id ≠ e.id) :
    Filed (q.tree.insert e) := by
  have hsub : ∀ a ∈ e :: q.tree.toList, a ∈ e :: q.entities :=
    forall_mem_cons.mpr ⟨mem_cons_self, fun a ha => mem_cons_of_mem _ (mem_entities_of_tree ha)⟩
  exact hfiled.insert (fun a ha b hb => hnear a (hsub a ha) b (hsub b hb))
    (fun other ho => hn other (mem_entities_of_tree ho))

lemma sound_insert (hfiled : Filed q.tree)
    (hspread' : Spread { q with tree := q.tree.insert e }) (h : Ledger q (e :: q.entities)) :
    Sound (normalize { q with tree := q.tree.insert e }) := by
  have hperm := entities_insert q e
  refine sound_normalize hperm ?_ { h with }
  refine filed_insert hfiled ?_ ?_
  · intro a ha b hb
    exact hspread'.deadlines a (hperm.mem_iff.mpr ha) b (hperm.mem_iff.mpr hb)
  · intro o ho heq
    exact (nodup_cons.mp h.names).1 (heq ▸ mem_map_of_mem ho)

lemma spread_normalize : Spread q.normalize ↔ Spread q := by
  simp only [Spread, times, normalize_entities]

end Ferrix.Sched.Bookkeeping

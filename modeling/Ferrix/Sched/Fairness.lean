import Ferrix.Foundations.FairShare
import Ferrix.Sched.Picking

/-!
How far an entity's service strays from its share, over rounds of picking an entity and charging
it for its request and the lateness of the timer.
-/

namespace Ferrix.Sched.Fairness

open Foundations WrappingClock FairShare DeadlineTree TreeOrder Eevdf Bookkeeping
open QueueCalls Picking List RunQueue Fairness System

variable {T : Type}

def enrol (queue : RunQueue T) (id : Nat) : List (Nat × T) → RunQueue T
  | [] => queue
  | (weight, payload) :: rest =>
    enrol (queue.enqueue id payload (.new weight)).2 (id + 1) rest

structure History (T : Type) where
  queue : RunQueue T
  overrun : Nat → Nat

/-- One round: pick, and charge the request and the lateness. -/
def round (s : History T) (late : Nat) : History T :=
  let picked := s.queue.pickNext.2
  ⟨(picked.updateCurr (picked.remainingNs.getD 0 + late)).2,
    fun id => if picked.curr.any fun curr => curr.id == id then late else s.overrun id⟩

def rounds (s : History T) (lates : List Nat) : History T := lates.foldl round s

def totalService (queue : RunQueue T) : Nat := (queue.entities.map Entity.sumExec).sum

/-- Everyone's service differs from their share of all service by at most
`bound`. -/
def FairWithin (bound : ℚ) (queue : RunQueue T) : Prop :=
  ∀ entity ∈ queue.entities,
    |(entity.sumExec : ℚ) - entity.weight / totalWeight queue.entities * totalService queue| ≤
      bound

/-- Five entities of weight 1024 and one of 2048, on a fresh queue with a slice
of 2048, and rounds that are late by as much, but for the first. -/
def lateRounds : RunQueue Unit :=
  (rounds ⟨enrol ⟨⟨2048⟩, DeadlineTree.Tree.new, none, 0#64, 0, 0⟩ 0
      [(1024, ()), (1024, ()), (1024, ()), (1024, ()), (1024, ()), (2048, ())], fun _ => 0⟩
    [0, 2048, 2048, 2048, 2048, 2048]).queue

/-- The heaviest entity runs first and on time, then every other one runs a
slice too long: it is short by more than a slice and the largest lateness. -/
theorem lateRounds_exceeds_bound : ¬ FairWithin (2048 + 2048) lateRounds := by
  intro h
  have hentity : ⟨5, 2048, 1024#64, 2048#64, 2048, some ()⟩ ∈ lateRounds.entities := by
    decide +kernel
  have hweight : totalWeight lateRounds.entities = 7168 := by decide +kernel
  have hservice : totalService lateRounds = 22528 := by decide +kernel
  have hbound := (abs_le.mp (h _ hentity)).1
  rw [hweight, hservice] at hbound
  norm_num at hbound

/-- The lateness of the last rounds of everyone but `ids`. -/
def latenessBut (s : History T) (ids : List Nat) : Nat :=
  (s.queue.entities.map fun entity => if entity.id ∈ ids then 0 else s.overrun entity.id).sum

/-- A round may be late by `late`: the picked entity's charge is exact and no
count saturates, and whichever entity runs, the others' latenesses come to no more
than `most` of any entity's share. -/
structure Admits (most : Nat) (s : History T) (late : Nat) : Prop where
  late_le : late ≤ most
  shared : ∀ entity ∈ s.queue.entities, ∀ other ∈ s.queue.entities, other.id ≠ entity.id →
    entity.weight * (late + latenessBut s [entity.id, other.id]) ≤
      most * totalWeight s.queue.entities
  exact : ∀ curr ∈ s.queue.pickNext.2.curr, curr.weight ∣ nice0Weight * late
  service : totalService s.queue + (s.queue.config.sliceNs + late) < 2 ^ 64

def Admitted (most : Nat) (s : History T) : List Nat → Prop
  | [] => True
  | late :: lates => Admits most s late ∧ Admitted most (round s late) lates

/-- Weights and a slice whose conversions to virtual time are exact, and a
largest lateness, small enough for the clock. -/
structure Setting (T : Type) where
  sliceNs : Nat
  most : Nat
  members : List (Nat × T)
  slice_pos : 0 < sliceNs
  weight_pos : ∀ member ∈ members, 0 < member.1
  exact : ∀ member ∈ members, member.1 ∣ nice0Weight * sliceNs
  range : nice0Weight * (3 * sliceNs + (members.length + 1) * most) ≤ 2 ^ 62

namespace Setting

variable (c : Setting T)

abbrev Member : Type := Fin c.members.length

def weight (i : c.Member) : Nat := (c.members.get i).1

lemma weight_pos_at (i : c.Member) : 0 < c.weight i :=
  c.weight_pos _ (get_mem c.members i)

lemma weight_dvd (i : c.Member) : c.weight i ∣ nice0Weight * c.sliceNs :=
  c.exact _ (get_mem c.members i)

def system : System c.Member := ⟨c.weight, c.weight_pos_at, c.sliceNs⟩

def time (service : c.Member → Nat) (i : c.Member) : Nat :=
  nice0Weight * service i / c.weight i

def span (i : c.Member) : Nat := nice0Weight * c.sliceNs / c.weight i

def entity (service : c.Member → Nat) (i : c.Member) : Entity T :=
  ⟨i, c.weight i, BitVec.ofNat 64 (c.time service i),
    BitVec.ofNat 64 (c.time service i + c.span i), service i, some (c.members.get i).2⟩

def entities (service : c.Member → Nat) : List (Entity T) :=
  (List.finRange c.members.length).map (c.entity service)

variable {c} {service : c.Member → Nat} {i : c.Member}

lemma time_mul_weight (h : c.weight i ∣ nice0Weight * service i) :
    c.time service i * c.weight i = nice0Weight * service i :=
  Nat.div_mul_cancel h

lemma span_mul_weight (i : c.Member) : c.span i * c.weight i = nice0Weight * c.sliceNs :=
  Nat.div_mul_cancel (c.weight_dvd i)

lemma span_le (i : c.Member) : c.span i ≤ nice0Weight * c.sliceNs :=
  Nat.div_le_self _ _

lemma span_pos (i : c.Member) : 0 < c.span i := by
  have hpos : 0 < nice0Weight * c.sliceNs := Nat.mul_pos (by decide) c.slice_pos
  rw [← span_mul_weight i] at hpos
  exact Nat.pos_of_mul_pos_right hpos

lemma time_cast (h : c.weight i ∣ nice0Weight * service i) :
    (c.time service i : ℚ) = nice0Weight * (service i / c.weight i) := by
  have hw : (c.weight i : ℚ) ≠ 0 := by exact_mod_cast (c.weight_pos_at i).ne'
  rw [time, Nat.cast_div h hw]
  push_cast
  ring

structure Ideal (c : Setting T) (st : State c.Member) : Prop where
  reached : c.system.Reached st
  overrun_le : ∀ i, st.overrun i ≤ c.most
  exact : ∀ i, c.weight i ∣ nice0Weight * st.service i

variable {st : State c.Member}

lemma Ideal.time_le (h : Ideal c st) (i j : c.Member) :
    c.time st.service i ≤ c.time st.service j +
      nice0Weight * (2 * c.sliceNs + (c.members.length + 1) * c.most) := by
  have hspread := h.reached.spread_le h.overrun_le i j
  rw [Fintype.card_fin] at hspread
  have hscaled : (c.time st.service i : ℚ) ≤ c.time st.service j +
      nice0Weight * (2 * c.sliceNs + (c.members.length + 1) * c.most) := by
    rw [time_cast (h.exact i), time_cast (h.exact j)]
    have hnice : (0 : ℚ) ≤ nice0Weight := by positivity
    calc (nice0Weight : ℚ) * (st.service i / c.weight i)
        ≤ nice0Weight * (st.service j / c.weight j +
            (2 * c.sliceNs + (c.members.length + 1) * c.most)) :=
          mul_le_mul_of_nonneg_left hspread hnice
      _ = _ := by ring
  exact_mod_cast hscaled

lemma Ideal.time_add_le (h : Ideal c st) (i j : c.Member) :
    c.time st.service i + nice0Weight * c.sliceNs ≤ c.time st.service j + 2 ^ 62 := by
  have hr := c.range
  have hij := h.time_le i j
  have hsum : nice0Weight * (3 * c.sliceNs + (c.members.length + 1) * c.most) =
      nice0Weight * c.sliceNs +
        nice0Weight * (2 * c.sliceNs + (c.members.length + 1) * c.most) := by ring
  omega

variable {q : RunQueue T} {late : Nat} {service' : c.Member → Nat} {j : c.Member}

lemma Ideal.spread (h : Ideal c st)
    (hentities : ∀ entity ∈ q.entities, entity ∈ c.entities st.service) : Spread q := by
  have hform : ∀ a ∈ times q, ∃ i, ∃ extra ≤ nice0Weight * c.sliceNs,
      a = BitVec.ofNat 64 (c.time st.service i + extra) := by
    intro a ha
    rcases mem_append.mp ha with ha | ha
    · obtain ⟨entity, he, rfl⟩ := mem_map.mp ha
      obtain ⟨i, -, rfl⟩ := mem_map.mp (hentities entity he)
      exact ⟨i, 0, Nat.zero_le _, rfl⟩
    · obtain ⟨entity, he, rfl⟩ := mem_map.mp ha
      obtain ⟨i, -, rfl⟩ := mem_map.mp (hentities entity he)
      exact ⟨i, c.span i, span_le i, rfl⟩
  intro a ha b hb
  obtain ⟨i, f, hf, rfl⟩ := hform a ha
  obtain ⟨j, second, hsecond, rfl⟩ := hform b hb
  have hij := h.time_add_le i j
  have hji := h.time_add_le j i
  rw [Near, offset_ofNat (by omega) (by omega)]
  omega

lemma sum_entities {β : Type} [AddCommMonoid β] (service : c.Member → Nat) (f : Entity T → β) :
    ((c.entities service).map f).sum = ∑ i, f (c.entity service i) := by
  rw [entities, map_map, Fin.sum_univ_def]
  rfl

lemma totalWeight_entities (service : c.Member → Nat) :
    totalWeight (c.entities service) = c.system.totalWeight :=
  sum_entities service Entity.weight

lemma Ideal.offset_sub (h : Ideal c st) (hs : Sound q)
    (hentities : q.entities.Perm (c.entities st.service)) (i k : c.Member) :
    offset (c.entity st.service i).vruntime q.zero -
        offset (c.entity st.service k).vruntime q.zero =
      (c.time st.service i : Int) - c.time st.service k := by
  have hm : ∀ i, c.entity st.service i ∈ q.entities :=
    fun i => hentities.mem_iff.mpr (mem_map_of_mem (mem_finRange i))
  have hspread := h.spread fun _ => hentities.mem_iff.mp
  rw [← offset_eq_sub_of_all_near (hspread.vruntimes _ (hm i) _ (hm k))
    (hs.based.near _ (hm i)) (hs.based.near _ (hm k))]
  have hik := h.time_add_le i k
  have hki := h.time_add_le k i
  exact offset_ofNat (by omega) (by omega)

lemma Ideal.weighted_time (h : Ideal c st) :
    ∑ i, (c.weight i : Int) * c.time st.service i = nice0Weight * (st.total : Int) := by
  rw [State.total]
  push_cast
  rw [Finset.mul_sum]
  refine Finset.sum_congr rfl fun i _ => ?_
  have := time_mul_weight (h.exact i)
  rw [mul_comm]
  exact_mod_cast this

lemma Ideal.isEligible_iff (h : Ideal c st) (hs : Sound q)
    (hentities : q.entities.Perm (c.entities st.service)) (k : c.Member) :
    q.isEligible (c.entity st.service k).vruntime = true ↔ c.system.Eligible st k := by
  have hloadNat : q.load = c.system.totalWeight := by
    rw [hs.counted.load, totalWeight_perm hentities, totalWeight_entities]
  have hload : (q.load : Int) = ∑ i, (c.weight i : Int) := by
    rw [hloadNat]
    exact Nat.cast_sum _ _
  have hsum : q.sum = offset (c.entity st.service k).vruntime q.zero * q.load +
      (nice0Weight * (st.total : Int) - c.time st.service k * q.load) := by
    rw [hs.counted.sum, weightedSum_perm hentities, weightedSum, sum_entities, hload,
      ← h.weighted_time, Finset.mul_sum, Finset.mul_sum, ← Finset.sum_sub_distrib,
      ← Finset.sum_add_distrib]
    refine Finset.sum_congr rfl fun i _ => ?_
    have := h.offset_sub hs hentities i k
    have hoffset : offset (c.entity st.service i).vruntime q.zero =
        offset (c.entity st.service k).vruntime q.zero +
          ((c.time st.service i : Int) - c.time st.service k) := by omega
    rw [hoffset]
    change (c.weight i : Int) * _ = _
    ring
  rw [isEligible, decide_eq_true_eq, relative, hsum, System.Eligible, hloadNat]
  change _ ↔ st.service k * c.system.totalWeight ≤ c.weight k * st.total
  -- Scaled by the member's weight, its virtual time is its service.
  have hscaled : c.time st.service k * c.system.totalWeight ≤ nice0Weight * st.total ↔
      st.service k * c.system.totalWeight ≤ c.weight k * st.total := by
    rw [← Nat.mul_le_mul_right_iff (c.weight_pos_at k), Nat.mul_right_comm,
      time_mul_weight (h.exact k), Nat.mul_assoc, Nat.mul_assoc, Nat.mul_comm st.total,
      Nat.mul_le_mul_left_iff (by decide)]
  rw [← hscaled, ← Int.ofNat_le]
  push_cast
  constructor
  · intro hle
    linarith
  · intro hle
    linarith

lemma Ideal.deadline_le (h : Ideal c st)
    (hbefore : before (c.entity st.service i).deadline (c.entity st.service j).deadline = false) :
    c.system.deadline st j ≤ c.system.deadline st i := by
  have hij := h.time_add_le i j
  have hji := h.time_add_le j i
  have hspan := span_le (c := c) i
  have hspan' := span_le (c := c) j
  have hoffset : offset (c.entity st.service i).deadline (c.entity st.service j).deadline =
      ((c.time st.service i + c.span i : Nat) : Int) - (c.time st.service j + c.span j : Nat) :=
    offset_ofNat (by omega) (by omega)
  rw [before, decide_eq_false_iff_not, hoffset] at hbefore
  have hle : c.time st.service j + c.span j ≤ c.time st.service i + c.span i := by omega
  have hcast : ∀ l, ((c.time st.service l + c.span l : Nat) : ℚ) =
      nice0Weight * c.system.deadline st l := by
    intro l
    have hw : (c.weight l : ℚ) ≠ 0 := by exact_mod_cast (c.weight_pos_at l).ne'
    rw [Nat.cast_add, time_cast (h.exact l), span, Nat.cast_div (c.weight_dvd l) hw]
    change _ = (nice0Weight : ℚ) * ((st.service l + c.sliceNs) / c.weight l)
    push_cast
    ring
  have hle' : ((c.time st.service j + c.span j : Nat) : ℚ) ≤
      (c.time st.service i + c.span i : Nat) := by exact_mod_cast hle
  rw [hcast, hcast] at hle'
  exact le_of_mul_le_mul_left hle' (by norm_num [nice0Weight])

/-- The queue follows a state of the ideal sharing. -/
structure Follows (c : Setting T) (s : History T) (st : State c.Member) : Prop where
  ideal : Ideal c st
  sound : Sound s.queue
  slice : s.queue.config.sliceNs = c.sliceNs
  entities : s.queue.entities.Perm (c.entities st.service)
  overrun : ∀ i : c.Member, s.overrun i = st.overrun i

lemma toVirtual_exact {realNs : Nat} (hsmall : nice0Weight * realNs < 2 ^ 64) :
    toVirtual realNs (c.weight i) = nice0Weight * realNs / c.weight i := by
  have hw := c.weight_pos_at i
  rw [toVirtual, Nat.max_eq_left hw, Nat.mul_comm realNs, u64Max]
  have := Nat.div_le_self (nice0Weight * realNs) (c.weight i)
  omega

lemma slice_small (c : Setting T) : nice0Weight * c.sliceNs ≤ 2 ^ 62 := by
  refine Nat.le_trans (Nat.mul_le_mul_left _ ?_) c.range
  omega

lemma service_small (c : Setting T) (i : c.Member) (hlate : late ≤ c.most) :
    nice0Weight * (c.sliceNs + late) < 2 ^ 62 := by
  have hlen : 1 ≤ c.members.length := i.pos
  have hmost : c.most ≤ (c.members.length + 1) * c.most :=
    Nat.le_mul_of_pos_left _ (by omega)
  have hpos := c.slice_pos
  have hr := c.range
  have : nice0Weight * (c.sliceNs + late) <
      nice0Weight * (3 * c.sliceNs + (c.members.length + 1) * c.most) :=
    Nat.mul_lt_mul_of_pos_left (by omega) (by decide)
  omega

lemma charge_entity (hexact : c.weight i ∣ nice0Weight * service i)
    (hlate : late ≤ c.most) (hservice : service i + (c.sliceNs + late) < 2 ^ 64)
    (hservice' : service' i = service i + (c.sliceNs + late)) :
    (charge c.sliceNs (c.sliceNs + late) (c.entity service i)).1 = c.entity service' i := by
  have hsmall := service_small c i hlate
  have hslice := slice_small c
  have hdelta : toVirtual (c.sliceNs + late) (c.weight i) =
      c.span i + nice0Weight * late / c.weight i := by
    rw [toVirtual_exact (by omega), Nat.mul_add, Nat.add_div_of_dvd_right (c.weight_dvd i)]
    rfl
  have htime : c.time service' i =
      c.time service i + (c.span i + nice0Weight * late / c.weight i) := by
    rw [time, hservice', Nat.mul_add, Nat.mul_add, Nat.add_div_of_dvd_right hexact,
      Nat.add_div_of_dvd_right (c.weight_dvd i)]
    rfl
  have hspan : toVirtual c.sliceNs (c.weight i) = c.span i := toVirtual_exact (by omega)
  have hlater := Nat.div_le_self (nice0Weight * late) (c.weight i)
  have hvruntime : (c.entity service i).vruntime +
      BitVec.ofNat 64 (toVirtual (c.sliceNs + late) (c.weight i)) =
      BitVec.ofNat 64 (c.time service' i) := by
    rw [hdelta, htime]
    change BitVec.ofNat 64 (c.time service i) + BitVec.ofNat 64 _ = _
    rw [← BitVec.ofNat_add]
  have hexhausted : before (BitVec.ofNat 64 (c.time service' i))
      (c.entity service i).deadline = false := by
    have hle : nice0Weight * late ≤ nice0Weight * (c.sliceNs + late) :=
      Nat.mul_le_mul_left _ (by omega)
    rw [before, decide_eq_false_iff_not, htime]
    change ¬ offset _ (BitVec.ofNat 64 (c.time service i + c.span i)) < 0
    generalize nice0Weight * late / c.weight i = extra at hlater
    rw [offset_ofNat (by omega) (by omega)]
    omega
  rw [charge]
  dsimp only
  rw [show (c.entity service i).weight = c.weight i from rfl, hvruntime, hexhausted, hspan]
  simp only [Bool.not_false, if_true]
  rw [← BitVec.ofNat_add]
  have hsum : min ((c.entity service i).sumExec + (c.sliceNs + late)) u64Max = service' i := by
    rw [hservice', u64Max]
    change min (service i + (c.sliceNs + late)) _ = _
    omega
  rw [hsum]
  rfl

lemma remaining_entity (hcurr : q.curr = some (c.entity service i)) :
    q.remainingNs = some c.sliceNs := by
  have hslice := slice_small c
  have hspan := span_le (c := c) i
  have hpos := span_pos (c := c) i
  have hoffset : offset (c.entity service i).deadline (c.entity service i).vruntime =
      (c.span i : Int) := by
    change offset (BitVec.ofNat 64 (c.time service i + c.span i))
      (BitVec.ofNat 64 (c.time service i)) = _
    rw [offset_ofNat (by omega) (by omega)]
    omega
  rw [remainingNs, hcurr, Option.map_some]
  rw [hoffset, if_neg (by omega), Int.toNat_natCast]
  change some (toReal (c.span i) (c.weight i)) = _
  rw [toReal, span_mul_weight, Nat.mul_div_cancel_left _ (show 0 < nice0Weight by decide), u64Max]
  have : c.sliceNs ≤ nice0Weight * c.sliceNs := Nat.le_mul_of_pos_left _ (by decide)
  congr 1
  omega

lemma entities_serve (hsame : ∀ i, i ≠ j → service' i = service i) {rest : List (Entity T)}
    (hperm : (c.entity service j :: rest).Perm (c.entities service)) :
    (c.entity service' j :: rest).Perm (c.entities service') := by
  have herase := perm_cons_erase (mem_finRange j)
  have hr : rest.Perm (((List.finRange c.members.length).erase j).map (c.entity service)) :=
    (hperm.trans (herase.map (c.entity service))).cons_inv
  have hmap : ((List.finRange c.members.length).erase j).map (c.entity service) =
      ((List.finRange c.members.length).erase j).map (c.entity service') := by
    refine map_congr_left fun i hi => ?_
    have hij : i ≠ j := ((nodup_finRange _).mem_erase_iff.mp hi).1
    rw [entity, entity, time, time, hsame i hij]
  rw [hmap] at hr
  exact (hr.cons _).trans (herase.map (c.entity service')).symm

variable {s : History T} {n : Nat}

lemma Follows.totalService (h : Follows c s st) : totalService s.queue = st.total := by
  rw [Fairness.totalService, (h.entities.map Entity.sumExec).sum_eq, sum_entities]
  rfl

lemma pickNext_empty (h : q.pickNext.2.entities = []) : q.pickNext.2.curr = none := by
  rw [RunQueue.entities, append_eq_nil_iff] at h
  exact Option.toList_eq_nil_iff.mp h.1

/-- A round of the queue serves an earliest member of the ideal sharing. -/
theorem Follows.round {st : State c.Member} (h : Follows c s st)
    (hlate : late ≤ c.most) (hservice : Fairness.totalService s.queue + (c.sliceNs + late) < 2 ^ 64)
    (hexact : ∀ curr ∈ s.queue.pickNext.2.curr, curr.weight ∣ nice0Weight * late) :
    ∃ st', Follows c (round s late) st' ∧ (st' = st ∨ ∃ j, st' = c.system.serve st j late) := by
  have hspread := h.ideal.spread fun _ => h.entities.mem_iff.mp
  obtain ⟨hpicked, hperm, hconfig⟩ := pickNext_sound h.sound hspread
  rw [Fairness.round]
  by_cases he : s.queue.entities = []
  · have hnone : s.queue.pickNext.2.curr = none := by
      refine pickNext_empty ?_
      rw [he] at hperm
      exact perm_nil.mp hperm
    have hsame : ∀ deltaNs, (s.queue.pickNext.2.updateCurr deltaNs).2 = s.queue.pickNext.2 := by
      intro deltaNs
      rw [updateCurr, hnone]
    refine ⟨st, ⟨h.ideal, ?_, ?_, ?_, ?_⟩, .inl rfl⟩
    · simpa only [hsame] using hpicked
    · simpa only [hsame, hconfig] using h.slice
    · simpa only [hsame] using hperm.trans h.entities
    · simpa only [hnone, Option.any_none, Bool.false_eq_true, if_false] using h.overrun
  · obtain ⟨entity, -, hcurr, -, heligible, hleast⟩ := pickNext_spec h.sound hspread he
    have hsplit := entities_of_curr hcurr
    have hm : entity ∈ s.queue.entities := hperm.mem_iff.mp (by simp [hsplit])
    obtain ⟨j, -, rfl⟩ := mem_map.mp (h.entities.mem_iff.mp hm)
    -- The queue compares wrapped deadlines, which agree with the ideal ones within the spread.
    have hearliest : c.system.Earliest st j := by
      refine ⟨(h.ideal.isEligible_iff h.sound h.entities j).mp heligible, ?_⟩
      intro i hi
      have hmemi : c.entity st.service i ∈ s.queue.entities :=
        h.entities.mem_iff.mpr (mem_map_of_mem (mem_finRange i))
      apply h.ideal.deadline_le
      by_cases hsame : c.entity st.service i = c.entity st.service j
      · rw [hsame]
        simp [before, offset_self]
      · have horder := hleast _ hmemi ((h.ideal.isEligible_iff h.sound h.entities i).mpr hi) hsame
        exact not_before_of_order (a := (c.entity st.service j).key)
          (b := (c.entity st.service i).key) (hspread.deadlines _ hm _ hmemi) horder
    have hdvd : c.weight j ∣ nice0Weight * late := hexact _ hcurr
    have hideal : Ideal c (c.system.serve st j late) := by
      refine ⟨.serve late h.ideal.reached hearliest, ?_, ?_⟩
      · intro i
        by_cases hij : i = j
        · rw [hij, overrun_serve_self]
          exact hlate
        · rw [overrun_serve_of_ne _ _ hij]
          exact h.ideal.overrun_le i
      · intro i
        by_cases hij : i = j
        · rw [hij, service_serve_self, Nat.mul_add, Nat.mul_add]
          exact Nat.dvd_add (h.ideal.exact j) (Nat.dvd_add (c.weight_dvd j) hdvd)
        · rw [service_serve_of_ne _ _ hij]
          exact h.ideal.exact i
    have hb : st.service j + (c.sliceNs + late) < 2 ^ 64 := by
      have : st.service j ≤ st.total :=
        Finset.single_le_sum (fun _ _ => Nat.zero_le _) (Finset.mem_univ j)
      rw [h.totalService] at hservice
      omega
    have hcharged := charge_entity (h.ideal.exact j) hlate hb
      (service_serve_self c.system st j late)
    have hdelta : s.queue.pickNext.2.remainingNs.getD 0 + late = c.sliceNs + late := by
      rw [remaining_entity hcurr]
      rfl
    rw [hdelta]
    have hentities : ((s.queue.pickNext.2.updateCurr (c.sliceNs + late)).2.entities).Perm
        (c.entities (c.system.serve st j late).service) := by
      rw [updateCurr, hcurr]
      dsimp only
      rw [normalize_entities, RunQueue.entities, hconfig, h.slice, hcharged]
      refine entities_serve (fun i hij => service_serve_of_ne _ _ hij late) ?_
      rw [hsplit] at hperm
      exact hperm.trans h.entities
    refine ⟨c.system.serve st j late, ⟨hideal, ?_, ?_, hentities, ?_⟩, .inr ⟨j, rfl⟩⟩
    · refine updateCurr_sound hpicked (spread_of_perm hspread hperm) _ ?_
        (hideal.spread fun _ => hentities.mem_iff.mp)
      intro curr hcurr'
      rw [hcurr] at hcurr'
      cases hcurr'
      change toVirtual (c.sliceNs + late) (c.weight j) < 2 ^ 62
      have hsmall := service_small c j hlate
      rw [toVirtual_exact (by omega)]
      exact Nat.lt_of_le_of_lt (Nat.div_le_self _ _) hsmall
    · rw [updateCurr, hcurr]
      dsimp only
      rw [normalize_config, hconfig, h.slice]
    · intro i
      dsimp only
      rw [hcurr, Option.any_some]
      by_cases hij : i = j
      · subst hij
        rw [overrun_serve_self]
        simp [entity]
      · rw [overrun_serve_of_ne _ _ hij, ← h.overrun i]
        have : j.val ≠ i.val := fun heq => hij (Fin.ext heq.symm)
        simp [entity, this]

lemma ideal_start (c : Setting T) : Ideal c .start :=
  ⟨.start, fun _ => Nat.zero_le _, fun _ => dvd_zero _⟩

structure Enrolled (c : Setting T) (queue : RunQueue T) (count : Nat) : Prop where
  sound : Sound queue
  slice : queue.config.sliceNs = c.sliceNs
  zero : queue.zero = 0#64
  sum : queue.sum = 0
  entities : queue.entities.Perm
    (((List.finRange c.members.length).take count).map (c.entity fun _ => 0))

lemma spread_enrolled (hentities : q.entities.Perm
      (((List.finRange c.members.length).take n).map (c.entity fun _ => 0))) : Spread q := by
  refine (ideal_start c).spread fun entity he => ?_
  obtain ⟨i, -, rfl⟩ := mem_map.mp (hentities.mem_iff.mp he)
  exact mem_map_of_mem (mem_finRange i)

lemma Enrolled.id_lt (h : Enrolled c q n) : ∀ entity ∈ q.entities, entity.id < n := by
  intro entity he
  obtain ⟨i, hi, rfl⟩ := mem_map.mp (h.entities.mem_iff.mp he)
  obtain ⟨p, hp, rfl⟩ := mem_take_iff_getElem.mp hi
  rw [getElem_finRange]
  change p < n
  omega

lemma lagLimit_nonneg (q : RunQueue T) (weight : Nat) : 0 ≤ q.lagLimit weight := by
  rw [lagLimit]
  split
  · exact Int.natCast_nonneg _
  · decide

lemma placementLag_new (q : RunQueue T) (weight : Nat) : q.placementLag (.new weight) = 0 := by
  have hL := lagLimit_nonneg q weight
  have hlag : max (-q.lagLimit weight) (min 0 (q.lagLimit weight)) = 0 := by omega
  rw [placementLag]
  simp only [EntityState.new, hlag]
  split
  · rfl
  · rw [zero_mul, Int.zero_tdiv]
    rfl

lemma Enrolled.placed (h : Enrolled c q n) (i : c.Member) :
    q.placed i (c.members.get i).2 (.new (c.members.get i).1) = c.entity (fun _ => 0) i := by
  have hslice := slice_small c
  have hspan : q.vslice (c.weight i) = c.span i := by
    rw [RunQueue.vslice, h.slice, toVirtual_exact (by omega)]
    rfl
  have htime : c.time (fun _ => 0) i = 0 := by simp [time]
  rw [RunQueue.placed]
  simp only [placementLag_new, h.sound.avgVruntime, h.zero]
  rw [entity, htime, ← hspan]
  simp [EntityState.new, weight]

lemma contains_eq_false {id : Nat} (h : ∀ entity ∈ q.entities, entity.id ≠ id) :
    q.contains id = false := by
  rw [RunQueue.contains, Bool.or_eq_false_iff]
  constructor
  · rw [Option.any_eq_false]
    intro curr hcurr
    have := h curr (mem_append_left _ (Option.mem_toList.mpr hcurr))
    simpa using this
  · rw [Option.isSome_eq_false_iff, Option.isNone_iff_eq_none]
    exact (find_eq_none_iff _ _).mpr fun entity he => h entity (mem_entities_of_tree he)

lemma normalize_of_sum_zero (h : q.sum = 0) :
    q.normalize.zero = q.zero ∧ q.normalize.sum = 0 := by
  rw [RunQueue.normalize]
  split
  · exact ⟨rfl, rfl⟩
  · rename_i hload
    have havg : q.avgVruntime = q.zero := by
      rw [avgVruntime, if_neg hload, h, Int.zero_ediv]
      simp
    simp only [havg, relative, offset_self, h, zero_mul, sub_zero]
    exact ⟨trivial, trivial⟩

lemma Enrolled.enqueue (i : c.Member) (h : Enrolled c q i) :
    Enrolled c (q.enqueue i (c.members.get i).2 (.new (c.members.get i).1)).2 (i + 1) := by
  have hweight : (EntityState.new (c.members.get i).1).weight ≠ 0 := (c.weight_pos_at i).ne'
  have hfresh : ¬ q.contains i = true := by
    rw [contains_eq_false fun entity he => (h.id_lt entity he).ne]
    exact Bool.false_ne_true
  have hafter : (q.enqueue i (c.members.get i).2 (.new (c.members.get i).1)).2 =
      RunQueue.normalize { q.addLoad (c.entity (fun _ => 0) i).vruntime (c.weight i) with
        tree := q.tree.insert (c.entity (fun _ => 0) i) } := by
    rw [RunQueue.enqueue, if_neg hweight, if_neg hfresh]
    simp only [h.placed]
    rfl
  have hzero : (c.entity (fun _ => 0) i).vruntime = 0#64 := by
    change BitVec.ofNat 64 (c.time _ i) = _
    simp [time]
  have hsum : (q.addLoad (c.entity (fun _ => 0) i).vruntime (c.weight i)).sum = 0 := by
    rw [addLoad]
    rw [h.sum, relative, h.zero, hzero, offset_self, mul_zero, add_zero]
  have hentities : (q.enqueue i (c.members.get i).2 (.new (c.members.get i).1)).2.entities.Perm
      (((List.finRange c.members.length).take (i + 1)).map (c.entity fun _ => 0)) := by
    rw [hafter, normalize_entities, take_succ_eq_append_getElem (by simp), map_append]
    refine (List.Perm.append_left _ (toList_insert q.tree _)).trans ?_
    refine perm_middle.trans ?_
    refine (h.entities.cons _).trans ?_
    simpa using (perm_append_singleton _ _).symm
  have hsound := enqueue_sound h.sound (spread_enrolled h.entities) _ _ _
    (spread_enrolled hentities)
  refine ⟨hsound, ?_, ?_, ?_, hentities⟩
  · rw [hafter, normalize_config]
    exact h.slice
  · rw [hafter]
    refine ((normalize_of_sum_zero ?_).1).trans h.zero
    exact hsum
  · rw [hafter]
    refine (normalize_of_sum_zero ?_).2
    exact hsum

lemma Enrolled.enrol (h : Enrolled c q n) (hn : n ≤ c.members.length) :
    Enrolled c (enrol q n (c.members.drop n)) c.members.length := by
  induction hr : c.members.drop n generalizing q n with
  | nil =>
    have : c.members.length ≤ n := drop_eq_nil_iff.mp hr
    rw [enrol, Nat.le_antisymm this hn]
    exact h
  | cons m r ih =>
    have hlt : n < c.members.length := by
      by_contra hge
      rw [drop_eq_nil_of_le (by omega)] at hr
      exact List.noConfusion rfl (heq_of_eq hr)
    rw [drop_eq_getElem_cons hlt, List.cons.injEq] at hr
    obtain ⟨rfl, hr⟩ := hr
    have hs := Enrolled.enqueue (⟨n, hlt⟩ : c.Member) h
    rw [← hr]
    exact hr ▸ ih hs hlt hr

lemma follows_enrol (hnew : RunQueue.new ⟨c.sliceNs⟩ = .ok q) :
    Follows c ⟨enrol q 0 c.members, fun _ => 0⟩ .start := by
  have h := sound_new hnew
  rw [new, if_neg c.slice_pos.ne', Except.ok.injEq] at hnew
  have he : Enrolled c q 0 := by
    subst hnew
    exact ⟨h, rfl, rfl, rfl, List.Perm.refl _⟩
  have hall := he.enrol (Nat.zero_le _)
  have hentities := hall.entities
  rw [take_of_length_le (by simp)] at hentities
  exact ⟨ideal_start c, hall.sound, hall.slice, hentities, fun _ => rfl⟩

/-- The queue follows the ideal sharing, and the others' latenesses come to no
more than the largest of anyone's share. -/
def Keeps (c : Setting T) (s : History T) : Prop :=
  ∃ st : State c.Member, Follows c s st ∧
    ∀ k, c.weight k * ∑ i ∈ Finset.univ.erase k, st.overrun i ≤ c.most * c.system.totalWeight

lemma Follows.latenessBut (h : Follows c s st) {k : c.Member} :
    latenessBut s [k.val, j.val] = ∑ i ∈ (Finset.univ.erase k).erase j, st.overrun i := by
  rw [Fairness.latenessBut, (h.entities.map _).sum_eq, sum_entities, Finset.erase_right_comm,
    ← Finset.filter_ne', ← Finset.filter_ne', Finset.filter_filter, Finset.sum_filter]
  refine Finset.sum_congr rfl fun i _ => ?_
  have hid : (c.entity st.service i).id = i.val := rfl
  simp only [hid, h.overrun, mem_cons, not_mem_nil, or_false, Fin.val_inj]
  by_cases hk : i = k <;> by_cases hj : i = j <;> simp [hk, hj]

lemma Keeps.round (h : Keeps c s) (hadmits : Admits c.most s late) : Keeps c (round s late) := by
  obtain ⟨st, hfollows, hshared⟩ := h
  have hservice := hadmits.service
  rw [hfollows.slice] at hservice
  obtain ⟨st', hfollows', rfl | ⟨j, rfl⟩⟩ :=
    hfollows.round hadmits.late_le hservice hadmits.exact
  · exact ⟨st', hfollows', hshared⟩
  refine ⟨_, hfollows', ?_⟩
  intro k
  have hm : ∀ i, c.entity st.service i ∈ s.queue.entities :=
    fun i => hfollows.entities.mem_iff.mpr (mem_map_of_mem (mem_finRange i))
  by_cases hkj : k = j
  · subst hkj
    have hsame : ∑ i ∈ Finset.univ.erase k, (c.system.serve st k late).overrun i =
        ∑ i ∈ Finset.univ.erase k, st.overrun i :=
      Finset.sum_congr rfl fun i hi =>
        overrun_serve_of_ne _ _ (Finset.ne_of_mem_erase hi) late
    rw [hsame]
    exact hshared k
  · have hjk : j ≠ k := Ne.symm hkj
    have hsum : ∑ i ∈ Finset.univ.erase k, (c.system.serve st j late).overrun i =
        late + ∑ i ∈ (Finset.univ.erase k).erase j, st.overrun i := by
      rw [← Finset.add_sum_erase _ _ (Finset.mem_erase.mpr ⟨hjk, Finset.mem_univ j⟩),
        overrun_serve_self]
      congr 1
      exact Finset.sum_congr rfl fun i hi =>
        overrun_serve_of_ne _ _ (Finset.ne_of_mem_erase hi) late
    have := hadmits.shared _ (hm k) _ (hm j) (fun heq => hjk (Fin.ext heq))
    rw [totalWeight_perm hfollows.entities, totalWeight_entities] at this
    rw [hsum, ← hfollows.latenessBut]
    exact this

lemma Keeps.rounds (h : Keeps c s) {lates : List Nat} (hadmitted : Admitted c.most s lates) :
    Keeps c (rounds s lates) := by
  induction lates generalizing s with
  | nil => exact h
  | cons late lates ih => exact ih (h.round hadmitted.1) hadmitted.2

lemma Keeps.fair (h : Keeps c s) : FairWithin (c.sliceNs + c.most) s.queue := by
  obtain ⟨st, hfollows, hshared⟩ := h
  intro entity he
  obtain ⟨k, -, rfl⟩ := mem_map.mp (hfollows.entities.mem_iff.mp he)
  have hweight : (0 : ℚ) < c.system.totalWeight := by
    exact_mod_cast c.system.totalWeight_pos k
  have hsurplus : (st.service k : ℚ) * c.system.totalWeight ≤
      c.weight k * st.total + (c.sliceNs + st.overrun k) * c.system.totalWeight := by
    exact_mod_cast hfollows.ideal.reached.surplus_le k
  have hshortfall : (c.weight k : ℚ) * st.total ≤
      (st.service k + c.sliceNs) * c.system.totalWeight +
        c.weight k * ∑ i ∈ Finset.univ.erase k, (st.overrun i : ℚ) :=
    hfollows.ideal.reached.shortfall_le k
  have hothers : (c.weight k : ℚ) * ∑ i ∈ Finset.univ.erase k, (st.overrun i : ℚ) ≤
      c.most * c.system.totalWeight := by
    exact_mod_cast hshared k
  have hoverrun : (st.overrun k : ℚ) * c.system.totalWeight ≤ c.most * c.system.totalWeight := by
    refine mul_le_mul_of_nonneg_right ?_ hweight.le
    exact_mod_cast hfollows.ideal.overrun_le k
  rw [hfollows.totalService, totalWeight_perm hfollows.entities, totalWeight_entities]
  change |(st.service k : ℚ) - c.weight k / c.system.totalWeight * st.total| ≤ _
  have hshare : (st.service k : ℚ) - c.weight k / c.system.totalWeight * st.total =
      (st.service k * c.system.totalWeight - c.weight k * st.total) / c.system.totalWeight := by
    field_simp
  rw [hshare, abs_le, le_div_iff₀ hweight, div_le_iff₀ hweight]
  constructor <;> linarith

end Setting

/-- However late the rounds are, within what `Admits` allows, everyone's service
stays within a slice and the largest lateness of their share. -/
theorem fair_of_admitted (c : Setting T) {queue : RunQueue T}
    (hnew : RunQueue.new ⟨c.sliceNs⟩ = .ok queue) (lates : List Nat)
    (hadmitted : Admitted c.most ⟨enrol queue 0 c.members, fun _ => 0⟩ lates) :
    FairWithin (c.sliceNs + c.most) (rounds ⟨enrol queue 0 c.members, fun _ => 0⟩ lates).queue := by
  refine (Setting.Keeps.rounds ⟨.start, Setting.follows_enrol hnew, ?_⟩ hadmitted).fair
  intro k
  simp [State.start]

def threeSetting : Setting Unit where
  sliceNs := 2048
  most := 1024
  members := [(1024, ()), (2048, ()), (1024, ())]
  slice_pos := by decide
  weight_pos := by decide
  exact := by decide
  range := by decide

theorem fair_of_admitted_three :
    FairWithin (2048 + 1024) (rounds ⟨enrol ⟨⟨2048⟩, DeadlineTree.Tree.new, none, 0#64, 0, 0⟩ 0
      threeSetting.members, fun _ => 0⟩ [1024, 0, 1024, 1024]).queue :=
  fair_of_admitted threeSetting rfl [1024, 0, 1024, 1024]
    ⟨⟨by decide +kernel, by decide +kernel, by decide +kernel, by decide +kernel⟩,
      ⟨by decide +kernel, by decide +kernel, by decide +kernel, by decide +kernel⟩,
      ⟨by decide +kernel, by decide +kernel, by decide +kernel, by decide +kernel⟩,
      ⟨by decide +kernel, by decide +kernel, by decide +kernel, by decide +kernel⟩, trivial⟩

end Ferrix.Sched.Fairness

import Mathlib.Algebra.Order.BigOperators.Group.Finset
import Mathlib.Data.Rat.Defs
import Mathlib.Tactic

/-!
Proportional sharing by earliest eligible virtual deadline, in exact arithmetic.  A client may be
served more than it asked for; the overrun is not charged to its next request.
-/

namespace Ferrix.Foundations.FairShare

open Finset

variable {ι : Type}

structure System (ι : Type) where
  weight : ι → ℕ
  weight_pos : ∀ i, 0 < weight i
  request : ℕ

/-- What each client has been served, and how far its last service overran. -/
structure State (ι : Type) where
  service : ι → ℕ
  overrun : ι → ℕ

def State.start : State ι := ⟨fun _ => 0, fun _ => 0⟩

def State.total [Fintype ι] (s : State ι) : ℕ := ∑ i, s.service i

namespace System

variable {p : System ι} {s : State ι} {j : ι}

def totalWeight [Fintype ι] (p : System ι) : ℕ := ∑ i, p.weight i

def Eligible [Fintype ι] (p : System ι) (s : State ι) (i : ι) : Prop :=
  s.service i * p.totalWeight ≤ p.weight i * s.total

/-- Where a client's request ends, in service per weight. -/
def deadline (p : System ι) (s : State ι) (i : ι) : ℚ :=
  (s.service i + p.request) / p.weight i

/-- Eligible, with no eligible client's deadline before its own. -/
def Earliest [Fintype ι] (p : System ι) (s : State ι) (j : ι) : Prop :=
  p.Eligible s j ∧ ∀ i, p.Eligible s i → p.deadline s j ≤ p.deadline s i

lemma weight_pos_rat (p : System ι) (i : ι) : (0 : ℚ) < p.weight i := by
  exact_mod_cast p.weight_pos i

lemma totalWeight_pos [Fintype ι] (p : System ι) (i : ι) : 0 < p.totalWeight :=
  sum_pos' (fun _ _ => Nat.zero_le _) ⟨i, mem_univ i, p.weight_pos i⟩

section

variable [DecidableEq ι] {i : ι}

def serve (p : System ι) (s : State ι) (j : ι) (late : ℕ) : State ι :=
  ⟨fun i => s.service i + if i = j then p.request + late else 0,
    fun i => if i = j then late else s.overrun i⟩

@[simp]
lemma service_serve_self (p : System ι) (s : State ι) (j : ι) (late : ℕ) :
    (p.serve s j late).service j = s.service j + (p.request + late) := by
  simp [serve]

lemma service_serve_of_ne (p : System ι) (s : State ι) (hij : i ≠ j) (late : ℕ) :
    (p.serve s j late).service i = s.service i := by
  simp [serve, hij]

@[simp]
lemma overrun_serve_self (p : System ι) (s : State ι) (j : ι) (late : ℕ) :
    (p.serve s j late).overrun j = late := by
  simp [serve]

lemma overrun_serve_of_ne (p : System ι) (s : State ι) (hij : i ≠ j) (late : ℕ) :
    (p.serve s j late).overrun i = s.overrun i := by
  simp [serve, hij]

lemma deadline_serve_of_ne (hij : i ≠ j) (late : ℕ) :
    p.deadline (p.serve s j late) i = p.deadline s i := by
  rw [deadline, deadline, service_serve_of_ne p s hij]

lemma total_serve [Fintype ι] (p : System ι) (s : State ι) (j : ι) (late : ℕ) :
    (p.serve s j late).total = s.total + (p.request + late) := by
  simp [State.total, serve, sum_add_distrib]

end

variable [Fintype ι]

/-- What clients with a deadline up to `limit` have been served since the last
time one with a later deadline was: they all stood past `base` then, the
`caught` ones have passed the limit since, and `latest` is who was served
then. -/
structure Window (p : System ι) (s : State ι) (limit base : ℚ) (caught latest : Finset ι) :
    Prop where
  past : ∀ i, p.deadline s i ≤ limit → p.weight i * base ≤ s.service i
  caught_late : ∀ i ∈ caught, limit < p.deadline s i
  latest_late : ∀ i ∈ latest, limit < p.deadline s i
  disjoint : Disjoint caught latest
  card : latest.card ≤ 1
  total : (s.total : ℚ) ≤ p.totalWeight * base +
    ∑ i with p.deadline s i ≤ limit, (s.service i - p.weight i * base) +
    ∑ i ∈ caught, (p.weight i * (limit - base) + s.overrun i) +
    ∑ i ∈ latest, ((p.request : ℚ) + s.overrun i)

lemma window_start (p : System ι) (limit : ℚ) : Window p .start limit 0 ∅ ∅ := by
  refine ⟨?_, by simp, by simp, by simp, by simp, ?_⟩
  · intro i _
    simp [State.start]
  · simp [State.start, State.total]

variable [DecidableEq ι]

inductive Reached (p : System ι) : State ι → Prop
  | start : Reached p .start
  | serve {s : State ι} {j : ι} (late : ℕ) (hreached : Reached p s)
      (hearliest : p.Earliest s j) : Reached p (p.serve s j late)

/-- No client has had more than its share, one request and its last overrun. -/
theorem Reached.surplus_le (h : Reached p s) (i : ι) : s.service i * p.totalWeight ≤
      p.weight i * s.total + (p.request + s.overrun i) * p.totalWeight := by
  induction h with
  | start => simp [State.start]
  | serve late _ hearliest ih =>
    rename_i s j _
    rw [total_serve]
    by_cases hij : i = j
    · subst hij
      have := hearliest.1
      rw [Eligible] at this
      rw [service_serve_self, overrun_serve_self]
      nlinarith
    · rw [service_serve_of_ne p s hij, overrun_serve_of_ne p s hij]
      nlinarith

lemma window_serve_late {limit : ℚ} (hearliest : p.Earliest s j)
    (hlate : limit < p.deadline s j) (late : ℕ) :
    Window p (p.serve s j late) limit (s.total / p.totalWeight) ∅ {j} := by
  have hweight : (0 : ℚ) < p.totalWeight := by exact_mod_cast p.totalWeight_pos j
  have hlate' : limit < p.deadline (p.serve s j late) j := by
    refine hlate.trans_le ?_
    rw [deadline, deadline]
    gcongr
    simp
  have hpast : ∀ i, p.deadline (p.serve s j late) i ≤ limit →
      p.weight i * (s.total / p.totalWeight : ℚ) ≤ (p.serve s j late).service i := by
    intro i hi
    have hij : i ≠ j := by
      rintro rfl
      exact absurd hi (not_le.mpr hlate')
    rw [deadline_serve_of_ne hij] at hi
    have hnot : ¬ p.Eligible s i := by
      intro heligible
      exact absurd (hlate.trans_le (hearliest.2 i heligible)) (not_lt.mpr hi)
    rw [Eligible, not_le] at hnot
    have hlt : (p.weight i : ℚ) * s.total < s.service i * p.totalWeight := by exact_mod_cast hnot
    rw [service_serve_of_ne p s hij, ← mul_div_assoc, div_le_iff₀ hweight]
    exact hlt.le
  refine ⟨hpast, by simp, ?_, by simp, by simp, ?_⟩
  · intro i hi
    rw [mem_singleton.mp hi]
    exact hlate'
  · have hnonneg : 0 ≤ ∑ i with p.deadline (p.serve s j late) i ≤ limit,
        (((p.serve s j late).service i : ℚ) - p.weight i * (s.total / p.totalWeight : ℚ)) := by
      apply sum_nonneg
      intro i hi
      have := hpast i (mem_filter.mp hi).2
      linarith
    rw [total_serve, sum_empty, sum_singleton, mul_div_cancel₀ _ hweight.ne', overrun_serve_self]
    push_cast
    linarith

lemma Window.serve {limit base : ℚ} {caught latest : Finset ι}
    (h : Window p s limit base caught latest) (hin : p.deadline s j ≤ limit) (late : ℕ) :
    ∃ caught', Window p (p.serve s j late) limit base caught' latest := by
  have hw := p.weight_pos_rat j
  have hne : ∀ {i}, limit < p.deadline s i → i ≠ j := by
    rintro i hi rfl
    exact absurd hi (not_lt.mpr hin)
  have hcaught : ∀ i ∈ caught, i ≠ j := fun i hi => hne (h.caught_late i hi)
  have hlatest : ∀ i ∈ latest, i ≠ j := fun i hi => hne (h.latest_late i hi)
  have hcaughtSum : ∑ i ∈ caught,
      (p.weight i * (limit - base) + ((p.serve s j late).overrun i : ℚ)) =
      ∑ i ∈ caught, (p.weight i * (limit - base) + (s.overrun i : ℚ)) :=
    sum_congr rfl fun i hi => by rw [overrun_serve_of_ne p s (hcaught i hi)]
  have hlatestSum : ∑ i ∈ latest, ((p.request : ℚ) + (p.serve s j late).overrun i) =
      ∑ i ∈ latest, ((p.request : ℚ) + s.overrun i) :=
    sum_congr rfl fun i hi => by rw [overrun_serve_of_ne p s (hlatest i hi)]
  have hstays : ∀ {i}, limit < p.deadline s i → limit < p.deadline (p.serve s j late) i := by
    intro i hi
    rwa [deadline_serve_of_ne (hne hi)]
  have hcaughtLate := fun i hi => hstays (h.caught_late i hi)
  have hlatestLate := fun i hi => hstays (h.latest_late i hi)
  have hpast : ∀ i, p.deadline (p.serve s j late) i ≤ limit →
      p.weight i * base ≤ (p.serve s j late).service i := by
    intro i hi
    by_cases hij : i = j
    · subst hij
      refine (h.past i hin).trans ?_
      rw [service_serve_self]
      push_cast
      have : (0 : ℚ) ≤ p.request + late := by positivity
      linarith
    · rw [deadline_serve_of_ne hij] at hi
      rw [service_serve_of_ne p s hij]
      exact h.past i hi
  have htotal := h.total
  have hjmem : j ∈ Finset.univ.filter fun i => p.deadline s i ≤ limit := by simp [hin]
  have hr : ∑ i ∈ (Finset.univ.filter fun i => p.deadline s i ≤ limit).erase j,
      (((p.serve s j late).service i : ℚ) - p.weight i * base) =
      ∑ i ∈ (Finset.univ.filter fun i => p.deadline s i ≤ limit).erase j,
        ((s.service i : ℚ) - p.weight i * base) := by
    refine sum_congr rfl fun i hi => ?_
    rw [service_serve_of_ne p s (mem_erase.mp hi).1]
  rw [← add_sum_erase _ _ hjmem] at htotal
  -- A client served past `limit` leaves the window, and its whole share is counted as caught up.
  by_cases hout : p.deadline (p.serve s j late) j ≤ limit
  · refine ⟨caught, hpast, hcaughtLate, hlatestLate, h.disjoint, h.card, ?_⟩
    have hfilter : (Finset.univ.filter fun i => p.deadline (p.serve s j late) i ≤ limit) =
        Finset.univ.filter fun i => p.deadline s i ≤ limit := by
      ext i
      by_cases hij : i = j
      · subst hij
        simp [hout, hin]
      · simp [deadline_serve_of_ne hij]
    rw [hcaughtSum, hlatestSum, total_serve, hfilter, ← add_sum_erase _ _ hjmem, hr,
      service_serve_self]
    push_cast
    linarith
  · have hjcaught : j ∉ caught := fun hm => hcaught j hm rfl
    refine ⟨insert j caught, hpast, ?_, hlatestLate, ?_, h.card, ?_⟩
    · intro i hi
      rcases mem_insert.mp hi with rfl | hi
      · exact not_le.mp hout
      · exact hcaughtLate i hi
    · rw [disjoint_insert_left]
      exact ⟨fun hm => hlatest j hm rfl, h.disjoint⟩
    · have hfilter : (Finset.univ.filter fun i => p.deadline (p.serve s j late) i ≤ limit) =
          (Finset.univ.filter fun i => p.deadline s i ≤ limit).erase j := by
        ext i
        by_cases hij : i = j
        · subst hij
          simp [hout]
        · simp [deadline_serve_of_ne hij, hij]
      have hroom : (s.service j : ℚ) + p.request ≤ p.weight j * limit := by
        rw [deadline, div_le_iff₀ hw] at hin
        linarith
      rw [sum_insert hjcaught, hcaughtSum, hlatestSum, total_serve, hfilter, hr, overrun_serve_self]
      push_cast
      linarith

lemma Reached.exists_window (h : Reached p s) (limit : ℚ) :
    ∃ base caught latest, Window p s limit base caught latest := by
  induction h with
  | start => exact ⟨0, ∅, ∅, window_start p limit⟩
  | serve late _ hearliest ih =>
    rename_i s j _
    rcases lt_or_ge limit (p.deadline s j) with hlate | hin
    · exact ⟨_, _, _, window_serve_late hearliest hlate late⟩
    · obtain ⟨base, caught, latest, hwindow⟩ := ih
      obtain ⟨caught', hserve⟩ := hwindow.serve hin late
      exact ⟨base, caught', latest, hserve⟩

/-- No client is short of its share by more than one request and its share of
the others' last overruns. -/
theorem Reached.shortfall_le (h : Reached p s) (k : ι) :
    (p.weight k : ℚ) * s.total ≤ (s.service k + p.request) * p.totalWeight +
      p.weight k * ∑ i ∈ Finset.univ.erase k, (s.overrun i : ℚ) := by
  obtain ⟨base, caught, latest, hwindow⟩ := h.exists_window (p.deadline s k)
  have hw := p.weight_pos_rat k
  have hpast := hwindow.past k le_rfl
  generalize hL : p.deadline s k = L at hwindow hpast
  have hreach : (p.weight k : ℚ) * L = s.service k + p.request := by
    rw [← hL, deadline, mul_div_cancel₀ _ hw.ne']
  set early := Finset.univ.filter fun i => p.deadline s i ≤ L with hearly
  have hk : k ∈ early := by simp [hearly, hL]
  have hbehind : ∀ i ∈ early.erase k,
      (s.service i - p.weight i * base : ℚ) ≤ p.weight i * (L - base) + s.overrun i := by
    intro i hi
    have hin := (mem_filter.mp (mem_erase.mp hi).2).2
    rw [deadline, div_le_iff₀ (p.weight_pos_rat i)] at hin
    have : (0 : ℚ) ≤ s.overrun i := by positivity
    linarith
  have hapart : ∀ {others : Finset ι}, (∀ i ∈ others, L < p.deadline s i) →
      Disjoint (early.erase k) others := by
    intro others hothers
    rw [disjoint_left]
    intro i hi hm
    have hin := (mem_filter.mp (mem_erase.mp hi).2).2
    exact absurd (hothers i hm) (not_lt.mpr hin)
  have hcaught := hapart hwindow.caught_late
  have hlatest : Disjoint (early.erase k ∪ caught) latest :=
    disjoint_union_left.mpr ⟨hapart hwindow.latest_late, hwindow.disjoint⟩
  -- The three groups are apart and leave `k` out, so together they weigh no more than the rest.
  have hsub : early.erase k ∪ caught ∪ latest ⊆ Finset.univ.erase k := by
    intro i hi
    rw [mem_erase]
    refine ⟨?_, mem_univ i⟩
    rintro rfl
    rcases mem_union.mp hi with hi | hi
    · rcases mem_union.mp hi with hi | hi
      · exact absurd rfl (mem_erase.mp hi).1
      · exact absurd hL (hwindow.caught_late _ hi).ne'
    · exact absurd hL (hwindow.latest_late _ hi).ne'
  have hweights : ∑ i ∈ early.erase k ∪ caught, (p.weight i : ℚ) +
      ∑ i ∈ latest, (p.weight i : ℚ) + p.weight k ≤ p.totalWeight := by
    rw [← sum_union hlatest, totalWeight]
    push_cast
    rw [← sum_erase_add _ _ (mem_univ k)]
    gcongr
  have hoverruns : ∑ i ∈ early.erase k ∪ caught, (s.overrun i : ℚ) +
      ∑ i ∈ latest, (s.overrun i : ℚ) ≤ ∑ i ∈ Finset.univ.erase k, (s.overrun i : ℚ) := by
    rw [← sum_union hlatest]
    gcongr
  have htotal := hwindow.total
  have hsum := sum_le_sum hbehind
  rw [← add_sum_erase _ _ hk] at htotal
  have hgroup : ∑ i ∈ early.erase k, (p.weight i * (L - base) + (s.overrun i : ℚ)) +
      ∑ i ∈ caught, (p.weight i * (L - base) + (s.overrun i : ℚ)) =
      (∑ i ∈ early.erase k ∪ caught, (p.weight i : ℚ)) * (L - base) +
        ∑ i ∈ early.erase k ∪ caught, (s.overrun i : ℚ) := by
    rw [← sum_union hcaught, sum_add_distrib, sum_mul]
  have hone : ∑ i ∈ latest, ((p.request : ℚ) + s.overrun i) ≤
      p.request + ∑ i ∈ latest, (s.overrun i : ℚ) := by
    rw [sum_add_distrib, sum_const, nsmul_eq_mul]
    have hcard : (latest.card : ℚ) ≤ 1 := by exact_mod_cast hwindow.card
    have : (0 : ℚ) ≤ p.request := by positivity
    nlinarith
  have hlatestWeights : (0 : ℚ) ≤ ∑ i ∈ latest, (p.weight i : ℚ) := by positivity
  have hrequest : (0 : ℚ) ≤ p.request := by positivity
  set group := ∑ i ∈ early.erase k ∪ caught, (p.weight i : ℚ)
  have hdistance : (p.weight k : ℚ) * (L - base) = s.service k - p.weight k * base + p.request := by
    rw [mul_sub, hreach]
    ring
  have hb : (s.total : ℚ) ≤ p.totalWeight * base + (s.service k - p.weight k * base) +
      group * (L - base) + p.request + ∑ i ∈ Finset.univ.erase k, (s.overrun i : ℚ) := by
    linarith
  calc (p.weight k : ℚ) * s.total
      ≤ p.weight k * (p.totalWeight * base + (s.service k - p.weight k * base) +
          group * (L - base) + p.request +
          ∑ i ∈ Finset.univ.erase k, (s.overrun i : ℚ)) := by gcongr
    _ = p.totalWeight * (p.weight k * base) +
          p.weight k * (s.service k - p.weight k * base + p.request) +
          group * (s.service k - p.weight k * base + p.request) +
          p.weight k * ∑ i ∈ Finset.univ.erase k, (s.overrun i : ℚ) := by
        linear_combination group * hdistance
    _ ≤ p.totalWeight * (p.weight k * base) +
          p.totalWeight * (s.service k - p.weight k * base + p.request) +
          p.weight k * ∑ i ∈ Finset.univ.erase k, (s.overrun i : ℚ) := by
        have hfar : (0 : ℚ) ≤ s.service k - p.weight k * base + p.request := by linarith
        have := mul_le_mul_of_nonneg_right
          (show group + p.weight k ≤ (p.totalWeight : ℚ) by linarith) hfar
        linarith
    _ = (s.service k + p.request) * p.totalWeight +
          p.weight k * ∑ i ∈ Finset.univ.erase k, (s.overrun i : ℚ) := by ring

/-- Clients whose overruns are bounded stay together. -/
theorem Reached.spread_le (h : Reached p s) {most : ℕ} (hmost : ∀ i, s.overrun i ≤ most) (i j : ι) :
    (s.service i / p.weight i : ℚ) ≤ s.service j / p.weight j +
      (2 * p.request + (Fintype.card ι + 1) * most) := by
  have hwi := p.weight_pos_rat i
  have hwj := p.weight_pos_rat j
  have hW : (1 : ℚ) ≤ p.totalWeight := by exact_mod_cast p.totalWeight_pos i
  have hi : (1 : ℚ) ≤ p.weight i := by exact_mod_cast p.weight_pos i
  have hj : (1 : ℚ) ≤ p.weight j := by exact_mod_cast p.weight_pos j
  have hahead : (s.service i : ℚ) * p.totalWeight ≤
      p.weight i * s.total + (p.request + s.overrun i) * p.totalWeight := by
    exact_mod_cast h.surplus_le i
  have hbehind := h.shortfall_le j
  have hoverrun : (s.overrun i : ℚ) ≤ most := by exact_mod_cast hmost i
  have hothers : ∑ l ∈ Finset.univ.erase j, (s.overrun l : ℚ) ≤ Fintype.card ι * most := by
    calc ∑ l ∈ Finset.univ.erase j, (s.overrun l : ℚ) ≤ ∑ l ∈ Finset.univ.erase j, (most : ℚ) := by
          refine sum_le_sum fun l _ => ?_
          exact_mod_cast hmost l
      _ ≤ Fintype.card ι * most := by
          rw [sum_const, nsmul_eq_mul]
          gcongr
          exact card_le_univ _
  set mean : ℚ := s.total / p.totalWeight with hmean
  have hWpos : (0 : ℚ) < p.totalWeight := by linarith
  have htotal : (s.total : ℚ) = mean * p.totalWeight := by
    rw [hmean, div_mul_cancel₀ _ hWpos.ne']
  have hf : (s.service i / p.weight i : ℚ) ≤ mean + (p.request + most) := by
    rw [div_le_iff₀ hwi]
    rw [htotal] at hahead
    have hscaled : (s.service i : ℚ) ≤ p.weight i * mean + (p.request + s.overrun i) := by
      refine le_of_mul_le_mul_right ?_ hWpos
      linarith
    have : (p.request + s.overrun i : ℚ) ≤ (p.request + most) * p.weight i := by
      have : (0 : ℚ) ≤ p.request + most := by positivity
      nlinarith
    linarith
  have hsecond : mean ≤ s.service j / p.weight j + (p.request + Fintype.card ι * most) := by
    rw [← sub_le_iff_le_add, le_div_iff₀ hwj]
    rw [htotal] at hbehind
    have hscaled : (p.weight j : ℚ) * mean ≤ s.service j + p.request +
        p.weight j * (Fintype.card ι * most) := by
      refine le_of_mul_le_mul_right ?_ hWpos
      have hb : (p.weight j : ℚ) * ∑ l ∈ Finset.univ.erase j, (s.overrun l : ℚ) ≤
          p.weight j * (Fintype.card ι * most) * p.totalWeight := by
        have hnonneg : (0 : ℚ) ≤ p.weight j * (Fintype.card ι * most) := by positivity
        calc (p.weight j : ℚ) * ∑ l ∈ Finset.univ.erase j, (s.overrun l : ℚ)
            ≤ p.weight j * (Fintype.card ι * most) := by gcongr
          _ ≤ p.weight j * (Fintype.card ι * most) * p.totalWeight := by nlinarith
      linarith
    have : (p.request : ℚ) ≤ p.request * p.weight j := by
      have : (0 : ℚ) ≤ p.request := by positivity
      nlinarith
    linarith
  linarith

end System

end Ferrix.Foundations.FairShare

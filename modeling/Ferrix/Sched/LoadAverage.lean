import Ferrix.Sched.Eevdf

/-!
The decaying average of a processor's load: demand is summed over the period in progress, and whole
periods are folded into the average as they complete.
-/

namespace Ferrix.Sched.LoadAverage

open Eevdf

def loadPeriodNs : Nat := 2 ^ 20

def decayNum : Nat := 4008

def decayDen : Nat := 4096

def precision : Nat := 10

def maxDecayPeriods : Nat := 512

structure Load where
  scaled : Nat
  elapsedNs : Nat
  weightedNs : Nat
  deriving DecidableEq

/-- The average after one more period with demand at `share`; products and shifts keep 64 bits. -/
def decayed (share scaled : Nat) : Nat :=
  let contribution := share * 2 ^ precision % 2 ^ 64
  scaled * decayNum % 2 ^ 64 / decayDen +
    contribution * (decayDen - decayNum) % 2 ^ 64 / decayDen

namespace Load

def new : Load := ⟨0, 0, 0⟩

def average (load : Load) : Nat := load.scaled / 2 ^ precision

def closePeriods : Nat → Load → Load
  | 0, load => load
  | count + 1, load =>
    let share := load.weightedNs / load.elapsedNs
    closePeriods count ⟨decayed share load.scaled, load.elapsedNs - loadPeriodNs,
      load.weightedNs - share * loadPeriodNs⟩

def accumulate (load : Load) (elapsedNs level : Nat) : Load :=
  let totalNs := min (load.elapsedNs + elapsedNs) u64Max
  if totalNs / loadPeriodNs > maxDecayPeriods then
    let partialNs := totalNs % loadPeriodNs
    ⟨min (level * 2 ^ precision) u64Max, partialNs, min (level * partialNs) u64Max⟩
  else
    closePeriods (totalNs / loadPeriodNs) ⟨load.scaled, totalNs,
      min (load.weightedNs + min (level * elapsedNs) u64Max) u64Max⟩

/-- The shares of the next `count` periods, out of the time and the demand accumulated. -/
def shares : Nat → Nat → Nat → List Nat
  | 0, _, _ => []
  | count + 1, elapsedNs, weightedNs =>
    let share := weightedNs / elapsedNs
    share :: shares count (elapsedNs - loadPeriodNs) (weightedNs - share * loadPeriodNs)

/-- Demand held at one level throughout: every period's share is that level. -/
theorem shares_held (level : Nat) {count elapsedNs : Nat}
    (hwhole : count * loadPeriodNs ≤ elapsedNs) :
    shares count elapsedNs (level * elapsedNs) = List.replicate count level := by
  induction count generalizing elapsedNs with
  | zero => rfl
  | succ count ih =>
    rw [Nat.succ_mul] at hwhole
    have hpos : 0 < elapsedNs :=
      (Nat.two_pow_pos 20).trans_le ((Nat.le_add_left ..).trans hwhole)
    rw [shares, Nat.mul_div_cancel _ hpos, ← Nat.mul_sub, ih (Nat.le_sub_of_add_le hwhole)]
    rfl

lemma sum_shares_le {count elapsedNs : Nat} (weightedNs : Nat)
    (hwhole : count * loadPeriodNs ≤ elapsedNs) :
    (shares count elapsedNs weightedNs).sum * loadPeriodNs ≤ weightedNs := by
  induction count generalizing elapsedNs weightedNs with
  | zero => exact (Nat.zero_mul _).trans_le (Nat.zero_le _)
  | succ count ih =>
    rw [Nat.succ_mul] at hwhole
    have hshare : weightedNs / elapsedNs * loadPeriodNs ≤ weightedNs :=
      (Nat.mul_le_mul_left _ ((Nat.le_add_left ..).trans hwhole)).trans (Nat.div_mul_le_self ..)
    have hrest := ih (weightedNs - weightedNs / elapsedNs * loadPeriodNs)
      (Nat.le_sub_of_add_le hwhole)
    rw [shares, List.sum_cons, Nat.add_mul]
    omega

/-- The average after the periods depends on their shares only. -/
theorem closePeriods_eq (count : Nat) (load : Load) : closePeriods count load =
    ⟨(shares count load.elapsedNs load.weightedNs).foldl (fun scaled share => decayed share scaled)
        load.scaled,
      load.elapsedNs - count * loadPeriodNs,
      load.weightedNs - (shares count load.elapsedNs load.weightedNs).sum * loadPeriodNs⟩ := by
  induction count generalizing load with
  | zero => rw [closePeriods, Nat.zero_mul, shares, List.sum_nil, Nat.zero_mul, List.foldl_nil,
      Nat.sub_zero, Nat.sub_zero]
  | succ count ih =>
    rw [closePeriods, ih, shares]
    dsimp only
    rw [List.foldl_cons, List.sum_cons, Nat.add_mul (_ / _), Nat.sub_sub, Nat.sub_sub,
      Nat.succ_mul, Nat.add_comm loadPeriodNs]

lemma closePeriods_add (first second : Nat) (load : Load) :
    closePeriods (first + second) load = closePeriods second (closePeriods first load) := by
  induction first generalizing load with
  | zero => rw [Nat.zero_add, closePeriods]
  | succ first ih => rw [Nat.succ_add, closePeriods, ih, closePeriods]

variable {load : Load} {level a b : Nat}

lemma accumulate_eq (hperiods : load.elapsedNs + a ≤ maxDecayPeriods * loadPeriodNs)
    (hfits : load.weightedNs + level * a ≤ u64Max) : load.accumulate a level =
      closePeriods ((load.elapsedNs + a) / loadPeriodNs)
        ⟨load.scaled, load.elapsedNs + a, load.weightedNs + level * a⟩ := by
  have htotal : min (load.elapsedNs + a) u64Max = load.elapsedNs + a := by
    refine Nat.min_eq_left (hperiods.trans ?_)
    decide
  have hshort : ¬ (load.elapsedNs + a) / loadPeriodNs > maxDecayPeriods :=
    not_lt.mpr (Nat.div_le_of_le_mul (Nat.mul_comm .. ▸ hperiods))
  rw [accumulate, htotal]
  dsimp only
  rw [if_neg hshort, Nat.min_eq_left (a := level * a) (by omega), Nat.min_eq_left hfits]

-- A second part that completes no period is no help when its time lowers the share of the first.
example : let idle := new.accumulate (2 ^ 19) 0
    (idle.accumulate (2 ^ 19 + (2 ^ 20 - 1)) 16384).average = 263 ∧
      ((idle.accumulate (2 ^ 19) 16384).accumulate (2 ^ 20 - 1) 16384).average = 176 := by
  decide +kernel

-- Shares a few units apart can round to one average.
example : let idle := new.accumulate (2 ^ 19) 0
    shares 1 (2 ^ 20 + 1000) (16384 * (2 ^ 19 + 1000)) = [8199] ∧
      shares 1 (2 ^ 20) (16384 * 2 ^ 19) = [8192] ∧
      (idle.accumulate (2 ^ 19 + 1000) 16384).average = 176 ∧
      ((idle.accumulate (2 ^ 19) 16384).accumulate 1000 16384).average = 176 := by
  decide +kernel

end Load

end Ferrix.Sched.LoadAverage

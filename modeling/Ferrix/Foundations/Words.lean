import Mathlib.Tactic

/-!
Unsigned words of `w` bits as natural numbers below `2 ^ w`: the additions that answer an overflow,
and the ones that go round.
-/

namespace Ferrix.Foundations.Words

def checkedAdd (w a b : Nat) : Option Nat := if a + b < 2 ^ w then some (a + b) else none

def saturatingAdd (w a b : Nat) : Nat := min (a + b) (2 ^ w - 1)

def wrappingAdd (w a b : Nat) : Nat := (a + b) % 2 ^ w

lemma checkedAdd_eq_some {w a b c : Nat} :
    checkedAdd w a b = some c ↔ a + b < 2 ^ w ∧ a + b = c := by
  rw [checkedAdd]
  split_ifs with h
  · simp [h]
  · simp [h]

lemma saturatingAdd_of_lt {w a b : Nat} (h : a + b < 2 ^ w) : saturatingAdd w a b = a + b :=
  min_eq_left (by omega)

lemma wrappingAdd_mod (w a b : Nat) : wrappingAdd w (a % 2 ^ w) b = (a + b) % 2 ^ w :=
  Nat.mod_add_mod a (2 ^ w) b

end Ferrix.Foundations.Words

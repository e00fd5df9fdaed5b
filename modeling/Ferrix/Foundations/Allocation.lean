import Mathlib.Tactic

/-!
Growable buffers, seen through length and capacity alone, over an allocator that may refuse.
-/

namespace Ferrix.Foundations.Allocation

/-- How an allocator answers when a buffer has to reach a capacity: `none`
when it refuses, otherwise the capacity it would like to hand out. -/
structure Allocator where
  grant : Nat → Option Nat

def Allocator.exact : Allocator := ⟨some⟩

/-- The capacity of a buffer of `len` elements after room for `additional`
more has been reserved, or `none` when there is no memory for it. -/
def tryReserve (memory : Allocator) (len capacity additional : Nat) : Option Nat :=
  if additional ≤ capacity - len then some capacity
  else (memory.grant (len + additional)).map (max (len + additional))

lemma tryReserve_of_le (m : Allocator) {len n additional : Nat} (hroom : additional ≤ n - len) :
    tryReserve m len n additional = some n := by
  rw [tryReserve, if_pos hroom]

/-- Whatever the allocator answers, a reservation that succeeds leaves the
room that was asked for. -/
theorem le_of_tryReserve {m : Allocator} {len n additional got : Nat}
    (hlen : len ≤ n) (hgot : tryReserve m len n additional = some got) :
    len + additional ≤ got ∧ n ≤ got := by
  rw [tryReserve] at hgot
  split at hgot
  · rename_i hroom
    have : n = got := by simpa using hgot
    omega
  · obtain ⟨granted, -, hmax⟩ := Option.map_eq_some_iff.mp hgot
    omega

end Ferrix.Foundations.Allocation

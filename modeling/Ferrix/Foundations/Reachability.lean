import Mathlib.Tactic

/-!
A relation read as the edges of a graph.  Edges out of one node close a cycle exactly when that
node can already be reached from where they lead.
-/

namespace Ferrix.Foundations.Reachability

open Relation

variable {N : Type*} {r s : N → N → Prop} {source : N} {targets : Set N}

def Acyclic (r : N → N → Prop) : Prop := ∀ n, ¬ TransGen r n n

lemma Acyclic.mono (hacyclic : Acyclic r) (hsub : ∀ a b, s a b → r a b) : Acyclic s :=
  fun n hcycle => hacyclic n (hcycle.lift id hsub)

def addEdges (r : N → N → Prop) (source : N) (targets : Set N) : N → N → Prop :=
  fun a b => r a b ∨ a = source ∧ b ∈ targets

/-- A path that uses added edges first meets `source` and ends with a path from one of
`targets`. -/
theorem transGen_addEdges {a b : N} (hpath : TransGen (addEdges r source targets) a b) :
    TransGen r a b ∨ ReflTransGen r a source ∧ ∃ t ∈ targets, ReflTransGen r t b := by
  induction hpath with
  | single hedge =>
    rcases hedge with hedge | ⟨rfl, htarget⟩
    · exact .inl (.single hedge)
    · exact .inr ⟨.refl, _, htarget, .refl⟩
  | tail _ hedge ih =>
    rcases ih with hold | ⟨hsource, t, ht, hr⟩ <;>
      rcases hedge with hedge | ⟨rfl, htarget⟩
    · exact .inl (hold.tail hedge)
    · exact .inr ⟨hold.to_reflTransGen, _, htarget, .refl⟩
    · exact .inr ⟨hsource, t, ht, hr.tail hedge⟩
    · exact .inr ⟨hsource, _, htarget, .refl⟩

lemma Acyclic.addEdges (hacyclic : Acyclic r)
    (hclear : ∀ t ∈ targets, ¬ ReflTransGen r t source) : Acyclic (addEdges r source targets) := by
  intro n hcycle
  rcases transGen_addEdges hcycle with hold | ⟨hsource, t, ht, hr⟩
  · exact hacyclic n hold
  · exact hclear t ht (hr.trans hsource)

/-- The nodes reachable from some of `start` in the graph that lists each node's children. -/
def Reachable (graph : N → List N) (start : List N) (n : N) : Prop :=
  ∃ s ∈ start, ReflTransGen (fun a b => b ∈ graph a) s n

variable {graph : N → List N} {start : List N} {n : N}

lemma Reachable.of_mem (hm : n ∈ start) : Reachable graph start n := ⟨n, hm, .refl⟩

lemma Reachable.child {c : N} (hreachable : Reachable graph start n)
    (hc : c ∈ graph n) : Reachable graph start c := by
  obtain ⟨s, hs, hpath⟩ := hreachable
  exact ⟨s, hs, hpath.tail hc⟩

lemma Reachable.mem_of_closed {visited : Set N} (hstart : ∀ s ∈ start, s ∈ visited)
    (hclosed : ∀ a ∈ visited, ∀ b ∈ graph a, b ∈ visited)
    (hreachable : Reachable graph start n) : n ∈ visited := by
  obtain ⟨s, hs, hpath⟩ := hreachable
  induction hpath with
  | refl => exact hstart s hs
  | tail _ hedge ih => exact hclosed _ ih _ hedge

end Ferrix.Foundations.Reachability

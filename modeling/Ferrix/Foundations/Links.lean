import Mathlib.Tactic

/-!
Nodes kept in an array or in memory form a list by their links.  Every edit is described by what
it does to the links of the nodes on the list, so that a store may do as it likes with all others.
-/

namespace Ferrix.Foundations.Links

open List

variable {N : Type*} {next next' previous previous' : N → N} {stop before cursor node : N}
  {l front back : List N}

/-- Following `next` from the first argument visits the list and then meets `stop`. -/
def Chain (next : N → N) (stop : N) : N → List N → Prop
  | cursor, [] => cursor = stop
  | cursor, node :: l => cursor = node ∧ node ≠ stop ∧ Chain next stop (next node) l

/-- Every node's `previous` is the node before it, the first one's the argument `before`. -/
def Backed (previous : N → N) : N → List N → Prop
  | _, [] => True
  | before, node :: l => previous node = before ∧ Backed previous node l

lemma Chain.congr (hnext : ∀ n ∈ l, next' n = next n) (hchain : Chain next stop cursor l) :
    Chain next' stop cursor l := by
  induction l generalizing cursor with
  | nil => exact hchain
  | cons node l ih =>
    obtain ⟨hcursor, hnode, hr⟩ := hchain
    refine ⟨hcursor, hnode, ?_⟩
    rw [hnext node (.head _)]
    exact ih (fun n hn => hnext n (.tail _ hn)) hr

lemma Backed.congr (hprevious : ∀ n ∈ l, previous' n = previous n)
    (hbacked : Backed previous before l) : Backed previous' before l := by
  induction l generalizing before with
  | nil => trivial
  | cons node l ih =>
    obtain ⟨hnode, hr⟩ := hbacked
    refine ⟨(hprevious node (.head _)).trans hnode, ?_⟩
    exact ih (fun n hn => hprevious n (.tail _ hn)) hr

lemma Chain.ne_stop (hchain : Chain next stop cursor l) : ∀ n ∈ l, n ≠ stop := by
  induction l generalizing cursor with
  | nil => exact forall_mem_nil _
  | cons node l ih =>
    obtain ⟨-, hnode, hr⟩ := hchain
    exact forall_mem_cons.mpr ⟨hnode, ih hr⟩

lemma getD_mem {link : Option N} (hne : link.getD stop ≠ stop) : link.getD stop ∈ link := by
  cases link with
  | none => exact absurd rfl hne
  | some node => rfl

lemma Chain.cursor_eq (hchain : Chain next stop cursor l) : cursor = l.head?.getD stop := by
  cases l with
  | nil => exact hchain
  | cons node l => exact hchain.1

lemma Chain.next_eq (hchain : Chain next stop cursor (front ++ node :: back)) :
    next node = back.head?.getD stop := by
  induction front generalizing cursor with
  | nil => exact hchain.2.2.cursor_eq
  | cons f front ih => exact ih hchain.2.2

lemma Backed.previous_eq (hbacked : Backed previous before (front ++ node :: back)) :
    previous node = front.getLast?.getD before := by
  induction front generalizing before with
  | nil => exact hbacked.1
  | cons f front ih =>
    rw [ih hbacked.2, List.getLast?_cons]
    rfl

lemma Chain.push (hnode : node ≠ stop) (hlink : next' node = cursor)
    (hsame : ∀ n ∈ l, next' n = next n) (hchain : Chain next stop cursor l) :
    Chain next' stop node (node :: l) := by
  refine ⟨rfl, hnode, ?_⟩
  rw [hlink]
  exact hchain.congr hsame

lemma Backed.push (hnode : previous' node = before) (hf : ∀ n ∈ l.head?, previous' n = node)
    (hsame : ∀ n ∈ l.tail, previous' n = previous n) (hbacked : Backed previous before l) :
    Backed previous' before (node :: l) := by
  refine ⟨hnode, ?_⟩
  cases l with
  | nil => trivial
  | cons f l => exact ⟨hf f rfl, hbacked.2.congr hsame⟩

lemma Chain.remove (hnodup : front.Nodup) (hapart : ∀ n ∈ back, n ∉ front)
    (hsame : ∀ n ∈ front ++ back, n ∉ front.getLast? → next' n = next n)
    (hl : ∀ n ∈ front.getLast?, next' n = next node)
    (hchain : Chain next stop cursor (front ++ node :: back)) :
    Chain next' stop (if front = [] then next node else cursor) (front ++ back) := by
  have hback : ∀ n ∈ back, next' n = next n := fun n hn =>
    hsame n (mem_append_right _ hn) fun hl => hapart n hn (mem_of_getLast? hl)
  induction front generalizing cursor with
  | nil => exact hchain.2.2.congr hback
  | cons f front ih =>
    obtain ⟨hcursor, hf, hr⟩ := hchain
    refine ⟨hcursor, hf, ?_⟩
    cases front with
    | nil =>
      rw [hl f rfl]
      exact hr.2.2.congr hback
    | cons second front =>
      obtain ⟨hnotin, hnodup⟩ := nodup_cons.mp hnodup
      simp only [List.getLast?_cons_cons] at hsame hl
      rw [hsame f (.head _) fun hm => hnotin (mem_of_getLast? hm)]
      refine ih hnodup (fun n hn hm => hapart n hn (.tail _ hm)) (fun n hn => ?_) hl hr
      exact hsame n (.tail _ hn)

lemma Backed.remove (hnodup : back.Nodup) (hapart : ∀ n ∈ front, n ∉ back)
    (hsame : ∀ n ∈ front ++ back, n ∉ back.head? → previous' n = previous n)
    (hf : ∀ n ∈ back.head?, previous' n = previous node)
    (hbacked : Backed previous before (front ++ node :: back)) :
    Backed previous' before (front ++ back) := by
  induction front generalizing before with
  | nil =>
    cases back with
    | nil => trivial
    | cons f back =>
      refine ⟨(hf f rfl).trans hbacked.1, hbacked.2.2.congr fun n hn => ?_⟩
      refine hsame n (.tail _ hn) ?_
      rintro ⟨⟩
      exact (nodup_cons.mp hnodup).1 hn
  | cons f front ih =>
    have hout : f ∉ back.head? := fun hm =>
      hapart f (.head _) (mem_of_mem_head? hm)
    refine ⟨(hsame f (.head _) hout).trans hbacked.1, ?_⟩
    exact ih (fun n hn => hapart n (.tail _ hn)) (fun n hn => hsame n (.tail _ hn)) hbacked.2

end Ferrix.Foundations.Links

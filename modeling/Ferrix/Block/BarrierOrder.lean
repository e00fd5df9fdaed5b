import Ferrix.Block.Wraparound

/-!
A barrier leaves once everything submitted before it is answered, and nothing submitted after it
leaves before it is answered.  Only abutting writes with `fua` share a command.
-/

namespace Ferrix.Block.BarrierOrder

open Relation Requests RequestQueue Custody QueueRuns List

def Shares (dispatch : Dispatch) (i : Nat) : Prop :=
  dispatch.op = .write ∧ dispatch.fua = true ∧ i ∈ dispatch.parts.map Part.seq

/-- A request is out of a command's way: answered, or a `fua` write in the same command. -/
def Settles (world : World) (dispatch : Dispatch) (i : Nat) : Prop :=
  i ∈ world.answered.map Part.seq ∨ Shares dispatch i

structure InOrder (world : World) (dispatch : Dispatch) : Prop where
  named : ∀ part ∈ dispatch.parts, ∃ request, world.accepted[part.seq]? = some request ∧
    request.id = part.id
  abutting : Tiles dispatch.parts dispatch.sector (dispatch.sector + dispatch.count)
  waits : ∀ part ∈ dispatch.parts, ∀ request, world.accepted[part.seq]? = some request →
    request.isBarrier = true → ∀ i < part.seq, Settles world dispatch i
  heldBack : ∀ part ∈ dispatch.parts, ∀ i < part.seq, ∀ request,
    world.accepted[i]? = some request → request.isBarrier = true → Settles world dispatch i
  between : ∀ first ∈ dispatch.parts, ∀ last ∈ dispatch.parts, ∀ i, first.seq < i → i < last.seq →
    ∀ request, world.accepted[i]? = some request → request.isBarrier = true → Shares dispatch i

section

variable {R : Type} {limits : Limits} {config : Config} {w : World} {now : Nat}
  {dispatch : Dispatch} {queue : Queue}

lemma shares_of_barrier {accepted : List Request} {returned : List Part} {u : IoUnit}
    (hgood : Good limits accepted returned u) (hbarrier : u.isBarrier = true) {p other : Part}
    (hpart : p ∈ u.parts) (ho : other ∈ u.parts) (hlt : other.seq < p.seq) (t : Nat) :
    Shares ⟨t, u.op, u.sector, u.count, u.fua, u.parts⟩ other.seq := by
  simp only [IoUnit.isBarrier, Bool.or_eq_true, Bool.and_eq_true, decide_eq_true_eq] at hbarrier
  rcases hbarrier with hflush | ⟨hop, hfua⟩
  · obtain ⟨only, honly⟩ := length_eq_one_iff.mp (hgood.shaped.flush hflush).2.2
    rw [honly, mem_singleton] at hpart ho
    rw [hpart, ho] at hlt
    exact absurd hlt (lt_irrefl _)
  · exact ⟨hop, hfua, mem_map_of_mem ho⟩

lemma sound_inOrder (hs : Sound limits config w) (hsettled : Settled w)
    (hdispatch : w.queue.dispatch now = (some dispatch, queue)) : InOrder w dispatch := by
  obtain ⟨u, hgood, rfl, hline, hleast⟩ := dispatch_least hs hdispatch
  have hh : ∀ p ∈ u.parts, ∀ i < p.seq, ∀ r, w.accepted[i]? = some r →
      r.isBarrier = true → Settles w
        ⟨w.queue.nextToken, u.op, u.sector, u.count, u.fua, u.parts⟩ i := by
    intro p hpart i hi r hrequest hbarrier
    rcases live_or_answered hs (List.getElem?_eq_some_iff.mp hrequest).1 with
      h | ⟨o, ho, rfl⟩
    · exact .inl h
    · rcases hleast p hpart o ho with h | ⟨hkind, h⟩ | ⟨-, found, hfound, h⟩
      · omega
      · exact .inr (shares_of_barrier hgood hkind hpart h hi _)
      · rw [hrequest] at hfound
        cases hfound
        rw [hbarrier] at h
        cases h
  constructor
  · intro p hpart
    obtain ⟨r, hg, hid, -⟩ := carries_request hgood hpart
    exact ⟨r, hg, hid⟩
  · exact hgood.shaped.tiled
  · intro p hpart r hrequest hbarrier i hi
    obtain ⟨found, hfound, -, -, -, hsame⟩ := carries_request hgood hpart
    obtain rfl : r = found := Option.mem_unique hrequest hfound
    rcases live_or_answered hs (hi.trans (List.getElem?_eq_some_iff.mp hrequest).1) with
      h | ⟨o, ho, rfl⟩
    · exact .inl h
    · rcases hleast p hpart o ho with h | ⟨hkind, h⟩ | ⟨hkind, -⟩
      · omega
      · exact .inr (shares_of_barrier hgood hkind hpart h hi _)
      · rw [← hsame, hbarrier] at hkind
        cases hkind
  · exact hh
  · intro f hf l hl i hlow hhigh r hrequest hbarrier
    rcases hh l hl i hhigh r hrequest hbarrier with h | h
    · exact absurd (hsettled.barriers i h r hrequest hbarrier _ hlow) (not_answered hs (hline f hf))
    · exact h

/-- Every command of every run keeps barrier order, as long as the numbers fit a word. -/
theorem dispatch_inOrder (hrun : ReflTransGen (Step R) (World.new limits config) world)
    (hbound : Bounded world) (hdispatch : world.queue.dispatch now = (some dispatch, queue)) :
    InOrder world dispatch :=
  sound_inOrder (run_sound hrun hbound) (run_settled hrun hbound) hdispatch

end

theorem dispatch_inOrder_pair : ∃ world : World,
    (∃ dispatch, (world.queue.dispatch 0).1 = some dispatch ∧ dispatch.parts.length = 2) ∧
      ∀ dispatch queue, world.queue.dispatch 0 = (some dispatch, queue) →
        InOrder world dispatch := by
  have hfirst : ReflTransGen (Step Unit)
      (World.new Wraparound.limits Wraparound.config) _ :=
    .single (.submit 0 (Request.write 0 0 1).fua rfl)
  have hpair := hfirst.tail (.submit 0 (Request.write 1 1 1).fua rfl)
  exact ⟨_, ⟨_, rfl, rfl⟩, fun dispatch queue hdispatch =>
    dispatch_inOrder hpair (by simp [Bounded, World.new]) hdispatch⟩

/-- Past `2 ^ 64` submissions a flush leaves while a write from before it is not answered. -/
theorem flush_passes_write : ∃ (world : World) (dispatch : Dispatch),
    ReflTransGen (Step Unit) (World.new Wraparound.limits Wraparound.config) world ∧
      (world.queue.dispatch 0).1 = some dispatch ∧ dispatch.op = .flush ∧
      dispatch.parts.map Part.id = [2] ∧ world.accepted.head? = some (.write 0 0 1) ∧
      world.accepted.getLast? = some (.flush 2) ∧ ∀ part ∈ world.answered, part.id ≠ 0 := by
  obtain ⟨accepted, answered, returned, tokens, hdiscard, haccepted, hanswered⟩ :=
    Wraparound.discarded
  have hdispatch := hdiscard.tail (.dispatch 0 rfl)
  have hcomplete := hdispatch.tail (.complete (2 ^ 64 - 3) () rfl)
  have hflush := hcomplete.tail (.submit 0 (.flush 2) rfl)
  refine ⟨_, _, hflush, rfl, rfl, rfl, ?_, ?_, ?_⟩
  · change (accepted ++ [_] ++ [_]).head? = _
    rw [List.head?_append, List.head?_append, haccepted]
    rfl
  · change (accepted ++ [_] ++ [_]).getLast? = _
    rw [List.getLast?_concat]
  · exact forall_mem_append.mpr ⟨hanswered, forall_mem_singleton.mpr Nat.one_ne_zero⟩

end Ferrix.Block.BarrierOrder

import Ferrix.Foundations.Reachability
import Ferrix.Foundations.SortedSearch

/-!
`reaches` asks whether a node can be reached from others, stopping after a bounded number of
distinct nodes.
-/

namespace Ferrix.Objects.CycleWalk

open Foundations Reachability SortedSearch List Function

inductive Reach where
  | found
  | clear
  | tooFar
  | noMemory
deriving DecidableEq

/-- The kernel's allocator as a walk sees it: the answer to each request for memory. -/
structure Memory where
  answer : Nat → Bool
  asked : Nat

def Memory.ask (memory : Memory) : Bool × Memory :=
  (memory.answer memory.asked, { memory with asked := memory.asked + 1 })

/-- The lists of a walk: the identities admitted, sorted, the nodes to expand, the last of the
vector first, and the nodes expanded, which the walk holds until it returns. -/
structure Walk (N : Type) where
  seen : List Nat
  pending : List N
  held : List N

section

variable {N : Type} (identity : N → Nat) (target limit : Nat)

def admitNode (node : N) (walk : Walk N) (memory : Memory) : Option Reach × Walk N × Memory :=
  if identity node = target then (some .found, walk, memory)
  else
    match binarySearch walk.seen (identity node) with
    | .ok _ => (none, walk, memory)
    | .error index =>
      if walk.seen.length ≥ limit then (some .tooFar, walk, memory)
      else
        match memory.ask with
        | (false, memory) => (some .noMemory, walk, memory)
        | (true, memory) =>
          let inserted := { walk with seen := walk.seen.insertIdx index (identity node) }
          match memory.ask with
          | (false, memory) => (some .noMemory, inserted, memory)
          | (true, memory) => (none, { inserted with pending := node :: walk.pending }, memory)

def admitAll : List N → Walk N → Memory → Option Reach × Walk N × Memory
  | [], walk, memory => (none, walk, memory)
  | node :: nodes, walk, memory =>
    match admitNode identity target limit node walk memory with
    | (some answer, walk, memory) => (some answer, walk, memory)
    | (none, walk, memory) => admitAll nodes walk memory

variable (children : N → Memory → Option (List N) × Memory)

/-- The loop of `reaches` over the pending nodes; every round expands a node admitted once, so
that `limit` rounds are enough. -/
def explore : Nat → Walk N → Memory → Reach × Walk N × Memory
  | rounds, walk, memory =>
    match walk.pending with
    | [] => (.clear, walk, memory)
    | node :: pending =>
      match rounds with
      | 0 => (.tooFar, walk, memory)
      | rounds + 1 =>
        match children node memory with
        | (none, memory) => (.noMemory, { walk with pending }, memory)
        | (some next, memory) =>
          match admitAll identity target limit next { walk with pending } memory with
          | (some answer, walk, memory) => (answer, walk, memory)
          | (none, walk, memory) =>
            match memory.ask with
            | (false, memory) => (.noMemory, walk, memory)
            | (true, memory) =>
              explore rounds { walk with held := node :: walk.held } memory

/-- `reaches`, with the lists it drops when it returns. -/
def reachesWalk (start : List N) (memory : Memory) : Reach × Walk N × Memory :=
  match admitAll identity target limit start ⟨[], [], []⟩ memory with
  | (some answer, walk, memory) => (answer, walk, memory)
  | (none, walk, memory) => explore identity target limit children limit walk memory

def reaches (start : List N) (memory : Memory) : Reach :=
  (reachesWalk identity target limit children start memory).1

end

variable {N : Type} {identity : N → Nat} {target limit : Nat} {graph : N → List N}
  {start : List N} {children : N → Memory → Option (List N) × Memory}

/-- A way to list a node's children: it lists children only, and all of them unless there are
more than the walk may admit. -/
def Lists (graph : N → List N) (limit : Nat)
    (children : N → Memory → Option (List N) × Memory) : Prop :=
  ∀ node memory next memory', children node memory = (some next, memory') →
    next ⊆ graph node ∧ (graph node ⊆ next ∨ next.Nodup ∧ limit < next.length)

/-- What each answer says of the graph. -/
def Right (identity : N → Nat) (target limit : Nat) (graph : N → List N) (start : List N) :
    Reach → Prop
  | .found => ∃ node, Reachable graph start node ∧ identity node = target
  | .clear => ∀ node, Reachable graph start node → identity node ≠ target
  | .tooFar => ∃ nodes : List N, nodes.Nodup ∧ limit < nodes.length ∧
      ∀ node ∈ nodes, Reachable graph start node
  | .noMemory => True

/-- What holds of the nodes a walk has admitted, `busy` being the one it expands. -/
structure Admitted (identity : N → Nat) (target limit : Nat) (graph : N → List N)
    (start : List N) (walk : Walk N) (busy : List N) : Prop where
  sorted : walk.seen.Pairwise (· < ·)
  length_le : walk.seen.length ≤ limit
  nodes : walk.seen.Perm ((walk.pending ++ busy ++ walk.held).map identity)
  reachable : ∀ node ∈ walk.pending ++ busy ++ walk.held, Reachable graph start node
  target : target ∉ walk.seen

structure Bounded (limit : Nat) (walk : Walk N) : Prop where
  sorted : walk.seen.Pairwise (· < ·)
  length_le : walk.seen.length ≤ limit

variable {walk : Walk N} {busy : List N} {node : N}

/-- What a step of the walk leaves: an answer that is right, or a walk that has seen what it
was to admit. -/
def Admits (identity : N → Nat) (target limit : Nat) (graph : N → List N) (start : List N)
    (walk : Walk N) (busy nodes : List N) (result : Option Reach × Walk N × Memory) : Prop :=
  match result.1 with
  | some answer => Right identity target limit graph start answer ∧ answer ≠ .clear ∧
      Bounded limit result.2.1
  | none => Admitted identity target limit graph start result.2.1 busy ∧
      result.2.1.held = walk.held ∧ walk.seen ⊆ result.2.1.seen ∧
      ∀ node ∈ nodes, identity node ∈ result.2.1.seen

lemma admitNode_spec (hadmitted : Admitted identity target limit graph start walk busy)
    (hnode : Reachable graph start node) (m : Memory) :
    Admits identity target limit graph start walk busy [node]
      (admitNode identity target limit node walk m) := by
  have hbounded : Bounded limit walk := ⟨hadmitted.sorted, hadmitted.length_le⟩
  rw [admitNode]
  split
  · rename_i htarget
    exact ⟨⟨node, hnode, htarget⟩, nofun, hbounded⟩
  rename_i htarget
  split
  · rename_i i hfound
    have hm := mem_of_getElem? (mem_of_binarySearch_ok hfound)
    exact ⟨hadmitted, rfl, List.Subset.refl _, by simpa using hm⟩
  · rename_i i hmissing
    obtain ⟨hnot, hperm, hsorted⟩ := of_binarySearch_error hadmitted.sorted hmissing
    split_ifs with hfull
    · refine ⟨⟨node :: (walk.pending ++ busy ++ walk.held), ?_, ?_, ?_⟩, nofun, hbounded⟩
      · have hnodup := hadmitted.sorted.imp fun hlt => ne_of_lt hlt
        have hmap : ((node :: (walk.pending ++ busy ++ walk.held)).map identity).Nodup := by
          rw [map_cons, ((hadmitted.nodes.symm).cons _).nodup_iff]
          exact nodup_cons.mpr ⟨hnot, hnodup⟩
        exact hmap.of_map _
      · have hlen := hadmitted.nodes.length_eq
        rw [length_map] at hlen
        rw [length_cons]
        omega
      · exact forall_mem_cons.mpr ⟨hnode, hadmitted.reachable⟩
    · have hlen : (walk.seen.insertIdx i (identity node)).length ≤ limit := by
        rw [hperm.length_eq, length_cons]
        omega
      have hseen : walk.seen ⊆ walk.seen.insertIdx i (identity node) :=
        fun id hid => hperm.mem_iff.mpr (.tail _ hid)
      split
      · exact ⟨trivial, nofun, hbounded⟩
      · dsimp only
        split
        · exact ⟨trivial, nofun, hsorted, hlen⟩
        · refine ⟨⟨hsorted, hlen, hperm.trans (hadmitted.nodes.cons _), ?_, ?_⟩, rfl, hseen, ?_⟩
          · exact forall_mem_cons.mpr ⟨hnode, hadmitted.reachable⟩
          · rw [hperm.mem_iff, mem_cons, not_or]
            exact ⟨Ne.symm htarget, hadmitted.target⟩
          · simpa using hperm.mem_iff.mpr mem_cons_self

lemma admitAll_spec {nodes : List N}
    (hadmitted : Admitted identity target limit graph start walk busy)
    (hnodes : ∀ node ∈ nodes, Reachable graph start node) (m : Memory) :
    Admits identity target limit graph start walk busy nodes
      (admitAll identity target limit nodes walk m) := by
  induction nodes generalizing walk m with
  | nil => exact ⟨hadmitted, rfl, List.Subset.refl _, by simp⟩
  | cons node nodes ih =>
    rw [admitAll]
    have hf := admitNode_spec hadmitted (hnodes node (.head _)) m
    split
    · rename_i b walk' m' heq
      rw [heq] at hf
      exact hf
    · rename_i walk' m' heq
      rw [heq] at hf
      obtain ⟨hadmitted', hh, hseen, hnode⟩ := hf
      have hr := ih hadmitted' (fun n hn => hnodes n (.tail _ hn)) m'
      revert hr
      rcases admitAll identity target limit nodes walk' m' with
        ⟨b | b, walk'', m''⟩
      · rintro ⟨hadmitted'', hh', hseen', hnodes'⟩
        refine ⟨hadmitted'', hh'.trans hh, List.Subset.trans hseen hseen',
          forall_mem_cons.mpr ⟨hseen' ?_, hnodes'⟩⟩
        exact hnode node (.head _)
      · exact id

structure Explored (identity : N → Nat) (target limit : Nat) (graph : N → List N)
    (start : List N) (walk : Walk N) : Prop where
  admitted : Admitted identity target limit graph start walk []
  start : ∀ node ∈ start, identity node ∈ walk.seen
  closed : ∀ node ∈ walk.held, ∀ child ∈ graph node, identity child ∈ walk.seen

variable (hidentity : Injective identity)
include hidentity

lemma Explored.clear
    (hexplored : Explored identity target limit graph start walk) (hpending : walk.pending = []) :
    Right identity target limit graph start .clear := by
  intro node hreachable
  have hvisited : node ∈ {n | identity n ∈ walk.seen} := by
    refine hreachable.mem_of_closed hexplored.start fun a ha b hb => ?_
    have hm := hexplored.admitted.nodes.mem_iff.mp ha
    rw [hpending, nil_append, nil_append] at hm
    obtain ⟨a', ha', heq⟩ := mem_map.mp hm
    obtain rfl := hidentity heq
    exact hexplored.closed a' ha' b hb
  intro heq
  rw [Set.mem_ofPred_eq, heq] at hvisited
  exact hexplored.admitted.target hvisited

lemma not_all_admitted {n : List N}
    (hadmitted : Admitted identity target limit graph start walk busy) (hnodup : n.Nodup)
    (hlong : limit < n.length) : ¬ ∀ c ∈ n, identity c ∈ walk.seen := by
  intro hall
  have hsubset : n.map identity ⊆ walk.seen := by
    intro id hid
    obtain ⟨c, hc, rfl⟩ := mem_map.mp hid
    exact hall c hc
  have hle := (subperm_of_subset (hnodup.map hidentity) hsubset).length_le
  rw [length_map] at hle
  have hlen := hadmitted.length_le
  omega

lemma explore_spec {rounds : Nat} (hlists : Lists graph limit children)
    (hexplored : Explored identity target limit graph start walk)
    (hrounds : limit ≤ walk.held.length + rounds) (m : Memory) :
    Right identity target limit graph start
        (explore identity target limit children rounds walk m).1 ∧
      Bounded limit (explore identity target limit children rounds walk m).2.1 := by
  -- Every round holds one more node of at most `limit`, so the rounds never run out first.
  induction rounds generalizing walk m with
  | zero =>
    rw [explore]
    split
    · rename_i hpending
      exact ⟨hexplored.clear hidentity hpending, hexplored.admitted.sorted,
        hexplored.admitted.length_le⟩
    · rename_i node pending hpending
      have hlen := hexplored.admitted.nodes.length_eq
      have hle := hexplored.admitted.length_le
      rw [hpending] at hlen
      simp only [length_map, length_append, length_cons, length_nil] at hlen
      omega
  | succ rounds ih =>
    rw [explore]
    split
    · rename_i hpending
      exact ⟨hexplored.clear hidentity hpending, hexplored.admitted.sorted,
        hexplored.admitted.length_le⟩
    rename_i node pending hpending
    have hnodes := hexplored.admitted.nodes
    have hreachable := hexplored.admitted.reachable
    rw [hpending] at hnodes hreachable
    have hbusy : Admitted identity target limit graph start { walk with pending } [node] := by
      refine ⟨hexplored.admitted.sorted, hexplored.admitted.length_le, hnodes.trans ?_, ?_,
        hexplored.admitted.target⟩
      · refine List.Perm.map _ ?_
        simpa using perm_middle.symm
      · intro n hn
        refine hreachable n ?_
        simp only [mem_append, mem_cons, not_mem_nil, or_false] at hn ⊢
        tauto
    have hnode : Reachable graph start node := hreachable node (by simp)
    dsimp only
    split
    · exact ⟨trivial, hexplored.admitted.sorted, hexplored.admitted.length_le⟩
    rename_i next m' hnext
    obtain ⟨hsub, hall⟩ := hlists node m next m' hnext
    have hadmits := admitAll_spec hbusy (fun c hc => hnode.child (hsub hc)) m'
    split
    · rename_i b walk' m'' heq
      rw [heq] at hadmits
      exact ⟨hadmits.1, hadmits.2.2⟩
    rename_i walk' m'' heq
    rw [heq] at hadmits
    obtain ⟨hadmitted, hh, hseen, hchildren⟩ := hadmits
    split
    · exact ⟨trivial, hadmitted.sorted, hadmitted.length_le⟩
    · rename_i m''' _
      dsimp only at hh
      have hexplored' : Explored identity target limit graph start
          { walk' with held := node :: walk'.held } := by
        refine ⟨⟨hadmitted.sorted, hadmitted.length_le, ?_, ?_, hadmitted.target⟩,
          fun n hn => hseen (hexplored.start n hn),
          forall_mem_cons.mpr ⟨fun c hc => ?_, fun n hn c hc => ?_⟩⟩
        · simpa using hadmitted.nodes
        · simpa using hadmitted.reachable
        -- Listed in part only, the children were too many for all of them to be admitted.
        · rcases hall with hcomplete | ⟨hnodup, hlong⟩
          · exact hchildren c (hcomplete hc)
          · exact absurd hchildren (not_all_admitted hidentity hadmitted hnodup hlong)
        · rw [hh] at hn
          exact hseen (hexplored.closed n hn c hc)
      refine ih hexplored' ?_ m'''
      dsimp only
      rw [length_cons, hh]
      omega

/-- A walk's answer is right, and it has admitted no more nodes than it may. -/
theorem reachesWalk_spec
    (hlists : Lists graph limit children) (target : Nat) (start : List N) (m : Memory) :
    Right identity target limit graph start (reachesWalk identity target limit children start m).1 ∧
      Bounded limit (reachesWalk identity target limit children start m).2.1 := by
  have hnew : Admitted identity target limit graph start ⟨[], [], []⟩ [] :=
    ⟨.nil, Nat.zero_le _, .refl _, by simp, by simp⟩
  have hadmits := admitAll_spec hnew (fun node hnode => .of_mem hnode) m
  rw [reachesWalk]
  split
  · rename_i b walk m' heq
    rw [heq] at hadmits
    exact ⟨hadmits.1, hadmits.2.2⟩
  · rename_i walk m' heq
    rw [heq] at hadmits
    obtain ⟨hadmitted, hh, -, hstart⟩ := hadmits
    refine explore_spec hidentity hlists ⟨hadmitted, hstart, ?_⟩ (Nat.le_add_left _ _) m'
    dsimp only at hh
    simp [hh]

end Ferrix.Objects.CycleWalk

import Ferrix.Block.Custody

namespace Ferrix.Block.QueueSteps

open Foundations Words SortedMaps SortedMap
open Foundations.OrderedBlocks Requests Epochs Epochs.Epoch RequestQueue Custody List

section

variable {queue : Queue} {init : List Epoch} {last : Epoch}

lemma onLast_concat (f : Epoch → Epoch) (init : List Epoch) (last : Epoch) :
    onLast f (init ++ [last]) = init ++ [f last] := by
  induction init with
  | nil => rfl
  | cons first init ih =>
    cases init with
    | nil => rfl
    | cons second init => exact congrArg (first :: ·) ih

lemma blocks_of_bare (hbare : last.barriers = []) : blocks last = [last.loose] := by
  rw [blocks, held, hbare]
  rfl

lemma flatMap_blocks_concat (hbare : last.barriers = []) :
    (init ++ [last]).flatMap blocks = init.flatMap blocks ++ [last.loose] := by
  rw [flatMap_append, flatMap_singleton, blocks_of_bare hbare]

lemma loose_of_not_hasUnits {e : Epoch} (h : e.units.entries = []) : e.loose = [] := by
  rw [Epoch.loose, h]
  rfl

lemma modify_append_cons (f : Epoch → Epoch) (init : List Epoch) (e : Epoch) (rest : List Epoch) :
    (init ++ e :: rest).modify init.length f = init ++ f e :: rest := by
  induction init with
  | nil => rfl
  | cons first init ih => exact congrArg (first :: ·) ih

lemma flatten_append_nil (l : List (List Part)) : (l ++ [[]]).flatten = l.flatten := by
  rw [flatten_append, flatten_singleton, append_nil]

lemma flying_true_of_single (hrow : Row queue) (hlen : queue.epochs.length = 1) :
    flying queue.inFlight true = [] := by
  rw [eq_nil_iff_forall_not_mem]
  intro p hpart
  obtain ⟨t, f, hf, hbarrier, -⟩ := mem_flying.mp hpart
  have := (hrow.alone t f hf hbarrier).2.1
  omega

end

variable {epochs : List Epoch} {unit : IoUnit} {queue : Queue}

abbrev Housed (limits : Limits) (accepted : List Request) (returned : List Part) (keys : Nat)
    (epoch : Epoch) : Prop :=
  epoch.Stocked (Fit limits accepted returned false) keys ∧
    ∀ unit ∈ epoch.barriers, Fit limits accepted returned true unit

variable {limits : Limits} {config : Config} {w : World} {request : Request} {p : Part}

def counted (queue : Queue) (request : Request) : Queue :=
  { queue with
    nextSeq := wrappingAdd 64 queue.nextSeq 1
    outstanding := insert request.id queue.outstanding
    queued := saturatingAdd 64 queue.queued 1 }

def placed (world : World) (request : Request) (epochs : List Epoch) (nextKey : Nat) : World :=
  { world with
    queue := { counted world.queue request with epochs, nextKey }
    accepted := world.accepted ++ [request] }

lemma accept_stores {nextKey keys keys' : Nat} (hstores : Stores w limits) (request : Request)
    (hloose : ∀ e ∈ w.queue.epochs, e.Stocked (Fit limits w.accepted w.returned
      false) keys) (hle : keys ≤ keys')
    (hkeys : keys' ≤ w.accepted.length + 1 + w.returned.length)
    (hnextKey : nextKey = keys' % 2 ^ 64) (hnew : (∀ e ∈ w.queue.epochs,
        Housed limits (w.accepted ++ [request]) w.returned keys' e) →
      ∀ e ∈ epochs, Housed limits (w.accepted ++ [request]) w.returned keys' e) :
    Stores (placed w request epochs nextKey) limits := by
  have hgood := hnew fun e hepoch =>
    ⟨(hloose e hepoch).mono (fun unit hu => ⟨hu.1.accept request, hu.2⟩) hle,
      fun unit hu => (hstores.barriers e hepoch unit hu).imp_left (·.accept request)⟩
  refine ⟨⟨keys', ?_, hnextKey, fun e hepoch => (hgood e hepoch).1⟩,
    fun e hepoch => (hgood e hepoch).2, fun t f hf => ?_⟩
  · simpa [placed] using hkeys
  · obtain ⟨hgood, hkind, htoken⟩ := hstores.flights t f hf
    exact ⟨hgood.accept request, hkind, htoken⟩

lemma pushBarrier_held {e : Epoch} {accepted : List Request} {returned : List Part}
    (hu : Good limits accepted returned unit) (hkind : unit.isBarrier = true)
    (hparts : unit.parts = [p])
    (hold : ∀ other ∈ e.barriers, Fit limits accepted returned true other)
    (hbefore : Before Part.seq (held e).flatten [p]) :
    ∃ barriers, e.pushBarrier unit limits = { e with barriers } ∧
      (barriers.map IoUnit.parts).flatten.Perm (p :: (held e).flatten) ∧
      (∀ other ∈ barriers, Fit limits accepted returned true other) ∧
      (Ascend Part.seq (held e) → Ascend Part.seq (barriers.map IoUnit.parts)) := by
  rcases pushBarrier_spec e unit limits with hpush | ⟨front, back, joined, hsplit, hjoin, hpush⟩
  · refine ⟨_, hpush, ?_, ?_, fun hascend => ?_⟩
    · rw [map_append, flatten_append, map_singleton, flatten_singleton, hparts]
      exact perm_append_singleton _ _
    · exact forall_mem_append.mpr ⟨hold, forall_mem_singleton.mpr ⟨hu, hkind⟩⟩
    · rw [map_append, ascend_append, map_singleton, flatten_singleton, hparts]
      exact ⟨hascend, by simp [ascend_cons], hbefore⟩
  · have hh : held e = front.map IoUnit.parts ++ [back.parts] := by
      rw [held, hsplit, map_append, map_singleton]
    rw [hh] at hbefore ⊢
    rw [flatten_append, flatten_singleton, before_append_left] at hbefore
    obtain ⟨hfront, hback⟩ := hbefore
    have hbackGood := hold back (by simp [hsplit])
    have hne : ∀ other ∈ back.parts, other.seq ≠ p.seq := fun other ho =>
      (hback other ho p (by simp)).ne
    have hjoinedParts : joined.parts.Perm (p :: back.parts) := by
      rcases hjoin with ⟨-, rfl⟩ | ⟨-, rfl⟩
      · refine (join_parts_perm _ _).trans ?_
        rw [hparts]
        exact perm_append_singleton _ _
      · refine (join_parts_perm _ _).trans ?_
        rw [hparts]
        rfl
    have hjoined : Fit limits accepted returned true joined := by
      rcases hjoin with ⟨hcan, rfl⟩ | ⟨hcan, rfl⟩
      · refine ⟨hbackGood.1.join hu hcan fun a ha b hb => ?_, hbackGood.2⟩
        rw [hparts, mem_singleton] at hb
        exact hb ▸ hne a ha
      · refine ⟨hu.join hbackGood.1 hcan fun a ha b hb => ?_, hkind⟩
        rw [hparts, mem_singleton] at ha
        exact ha ▸ (hne b hb).symm
    refine ⟨_, hpush, ?_, ?_, fun hascend => ?_⟩
    · rw [map_append, flatten_append, flatten_append, map_singleton,
        flatten_singleton, flatten_singleton]
      exact (hjoinedParts.append_left _).trans perm_middle
    · rw [hsplit, forall_mem_append] at hold
      exact forall_mem_append.mpr ⟨hold.1, forall_mem_singleton.mpr hjoined⟩
    · rw [ascend_append, flatten_singleton] at hascend
      rw [map_append, ascend_append, map_singleton, flatten_singleton]
      refine ⟨hascend.1, by simp [ascend_cons], fun x hx y hy => ?_⟩
      rcases mem_cons.mp (hjoinedParts.mem_iff.mp hy) with rfl | hy
      · exact hfront x hx y (by simp)
      · exact hascend.2.2 x hx y hy

/-- Where a new unit goes: the row with it, and the next key. -/
inductive Enters (queue : Queue) (unit : IoUnit) : List Epoch → Nat → Prop
  | unit {init : List Epoch} {last : Epoch} (hkind : unit.isBarrier = false)
      (hepochs : queue.epochs = init ++ [last]) (hbare : last.barriers = []) :
      Enters queue unit (init ++ [last.add queue.nextKey unit queue.limits])
        (wrappingAdd 64 queue.nextKey 1)
  | behind {init : List Epoch} {epoch last : Epoch} (hkind : unit.isBarrier = true)
      (hepochs : queue.epochs = init ++ [epoch, last]) (hbare : last.barriers = [])
      (hidle : last.loose = []) :
      Enters queue unit (init ++ [epoch.pushBarrier unit queue.limits, last]) queue.nextKey
  | ends {init : List Epoch} {last : Epoch} (hkind : unit.isBarrier = true)
      (hepochs : queue.epochs = init ++ [last]) (hbare : last.barriers = []) :
      Enters queue unit (init ++ [last.pushBarrier unit queue.limits, default]) queue.nextKey

lemma submit_spec {now : Nat} (hrow : Row w.queue)
    (hsubmit : w.queue.submit now request = (.ok (), queue)) :
    Admitted w.queue request ∧ ∃ epochs nextKey,
      Enters w.queue (.single request.op (w.queue.partOf now request) false) epochs nextKey ∧
        queue = (placed w request epochs nextKey).queue := by
  rw [Queue.submit] at hsubmit
  split at hsubmit
  · cases hsubmit
  · rename_i hcheck
    obtain ⟨init, last, hepochs, hbare⟩ := hrow.bare
    refine ⟨check_ok hcheck, ?_⟩
    obtain ⟨-, rfl⟩ := Prod.mk.inj hsubmit
    cases hkind : request.isBarrier with
    | false =>
      refine ⟨_, _, .unit hkind hepochs hbare, ?_⟩
      have hnonempty : w.queue.epochs.isEmpty = false := by simp [hepochs]
      rw [if_neg (by simp), Queue.pushUnit, hnonempty, if_neg (by simp), hepochs, onLast_concat]
      rfl
    | true =>
      rw [if_pos rfl, Queue.pushBarrier]
      split
      · rename_i hclosed
        rw [hepochs, List.getLast?_concat, Option.all_some, Bool.and_eq_true,
          decide_eq_true_eq] at hclosed
        rcases eq_nil_or_concat init with rfl | ⟨front, e, rfl⟩
        · simp at hclosed
        · have hsplit : w.queue.epochs = front ++ [e, last] := by simp [hepochs]
          have hidle : last.loose = [] := loose_of_not_hasUnits (by
            simpa [Epoch.isIdle] using (Bool.and_eq_true_iff.mp hclosed.1).1)
          have hi : w.queue.epochs.length - 2 = front.length := by simp [hsplit]
          refine ⟨_, _, .behind hkind hsplit hbare hidle, ?_⟩
          rw [← modify_append_cons (fun e => e.pushBarrier _ w.queue.limits), ← hi, ← hsplit]
          rfl
      · refine ⟨_, _, .ends hkind hepochs hbare, ?_⟩
        rw [hepochs, onLast_concat, append_assoc]
        rfl

section

variable (hs : Sound limits config w)
include hs

lemma partOf_seq (now : Nat) (request : Request) (hb : w.accepted.length < 2 ^ 64) :
    (w.queue.partOf now request).seq = w.accepted.length := by
  rw [Queue.partOf, hs.books.nextSeq]
  exact Nat.mod_eq_of_lt hb

lemma good_single (now : Nat) (hadmitted : Admitted w.queue request)
    (hb : w.accepted.length < 2 ^ 64) :
    Good limits (w.accepted ++ [request]) w.returned
      (.single request.op (w.queue.partOf now request) false) := by
  have hseq := partOf_seq hs now request hb
  have hlimits := hs.sameLimits
  refine ⟨shaped_single false hadmitted.flush (fun h => ?_) ?_, ?_, ?_⟩
  · exact hlimits ▸ (hadmitted.range h).1
  · rcases eq_or_ne request.op .flush with h | h
    · exact (hadmitted.flush h).2.trans_le (Nat.zero_le _)
    · exact hlimits ▸ (hadmitted.range h).2
  · intro o ho
    rw [IoUnit.single, mem_singleton] at ho
    subst ho
    refine ⟨request, ?_, rfl, rfl, rfl, rfl, rfl⟩
    rw [hseq, List.getElem?_concat_length]
  · intro o ho hm
    rw [IoUnit.single, mem_singleton] at ho
    subst ho
    obtain ⟨back, hback, heq⟩ := mem_map.mp hm
    have := hs.books.returned back hback
    omega

lemma books_board {l : List (List Part)}
    (hleft : l ≠ []) (hblocks : w.queue.epochs.flatMap blocks = l) :
    Books w (flying w.queue.inFlight false ++ flying w.queue.inFlight true ++ l.flatten) := by
  subst hblocks
  exact hs.books.perm (board_flatten_perm hleft).symm

lemma row_placed {nextKey : Nat} (zeros : List Nat)
    (hbare : ∃ init last, epochs = init ++ [last] ∧ last.barriers = [])
    (hcounts : epochs.map Epoch.inFlight = w.queue.epochs.map Epoch.inFlight ++ zeros)
    (hzeros : ∀ n ∈ zeros, n = 0)
    (hfront : 2 ≤ w.queue.epochs.length → 2 ≤ epochs.length ∧ ∀ front ∈ epochs.head?,
      ∃ other ∈ w.queue.epochs.head?, front.units = other.units) :
    Row (placed w request epochs nextKey).queue := by
  obtain ⟨rest, hold, hzero⟩ := hs.row.counted
  refine ⟨hbare, hs.row.oldest, ⟨rest ++ zeros, ?_, ?_⟩, fun t f hf hb => ?_⟩
  · change epochs.map Epoch.inFlight = w.queue.inFlight.size :: (rest ++ zeros)
    rw [hcounts, hold, cons_append]
  · exact fun n hn => (mem_append.mp hn).elim (hzero n) (hzeros n)
  · obtain ⟨hsize, hlen, hunits⟩ := hs.row.alone t f hf hb
    obtain ⟨hlong, hsame⟩ := hfront hlen
    refine ⟨hsize, hlong, fun front h => ?_⟩
    obtain ⟨other, hold, heq⟩ := hsame front h
    rw [heq]
    exact hunits other hold

variable (hadmitted : Admitted w.queue request) (hseq : p.seq = w.accepted.length)
  (hid : p.id = request.id)

include hadmitted hseq hid

lemma place_sound {nextKey : Nat} (hrow : Row (placed w request epochs nextKey).queue)
    (hascend : Ascend Part.seq (line (placed w request epochs nextKey).queue))
    (hparts : (epochs.flatMap blocks).flatten.Perm (p :: (w.queue.epochs.flatMap blocks).flatten))
    (hstores : Stores (placed w request epochs nextKey) limits) :
    Sound limits config (placed w request epochs nextKey) := by
  have hne := hs.row.blocks_ne_nil
  have hflatten : (line (placed w request epochs nextKey).queue).flatten.Perm
      (p :: (line w.queue).flatten) := by
    refine (board_flatten_perm hrow.blocks_ne_nil).trans ?_
    refine (hparts.append_left _).trans (perm_middle.trans (List.Perm.cons _ ?_))
    exact (board_flatten_perm hne).symm
  have hqueued : w.queue.queued + 1 < 2 ^ 64 := by
    have hcard := hs.books.card
    have hlen : (line w.queue).flatten.length = _ := (board_flatten_perm hne).length_eq
    have hmax := w.queue.config.maxRequests_lt
    have hroom := hadmitted.room
    rw [length_append, ← hs.queued] at hlen
    omega
  have hbooks : Books (placed w request epochs nextKey) (p :: (line w.queue).flatten) :=
    hs.books.accept hseq hid hadmitted.fresh hadmitted.room rfl rfl rfl
  refine { hs with
    row := hrow, ascending := hascend, stores := hstores, books := hbooks.perm hflatten,
    queued := ?_ }
  change saturatingAdd 64 w.queue.queued 1 = _
  rw [saturatingAdd_of_lt hqueued, hs.queued]
  exact hparts.length_eq.symm

variable (hgood : Good limits (w.accepted ++ [request]) w.returned
  (.single request.op p false)) {init : List Epoch} {last : Epoch} (hbare : last.barriers = [])

include hgood hbare

lemma pushUnit_sound (hkind : (IoUnit.single request.op p false).isBarrier = false)
    (hepochs : w.queue.epochs = init ++ [last])
    (hb : w.accepted.length + 1 + w.returned.length ≤ 2 ^ 64) :
    Sound limits config (placed w request (init ++ [last.add w.queue.nextKey
      (.single request.op p false) limits]) (wrappingAdd 64 w.queue.nextKey 1)) := by
  obtain ⟨keys, hkeys, hnextKey, hloose⟩ := hs.stores.loose
  have hk : w.queue.nextKey = keys := hnextKey.trans (Nat.mod_eq_of_lt (by omega))
  have hblocks : w.queue.epochs.flatMap blocks = init.flatMap blocks ++ [last.loose] := by
    rw [hepochs, flatMap_blocks_concat hbare]
  have hbooks := books_board hs (by simp) hblocks
  rw [flatten_append, flatten_singleton, ← append_assoc] at hbooks
  have hl : last ∈ w.queue.epochs := by simp [hepochs]
  have hstocked : last.Stocked (Fit limits (w.accepted ++ [request]) w.returned false) keys :=
    (hloose last hl).mono (fun unit hu => ⟨hu.1.accept request, hu.2⟩) le_rfl
  have hnodup : ((p :: last.loose).map Part.seq).Nodup := by
    rw [map_cons, nodup_cons]
    constructor
    · intro hm
      obtain ⟨o, ho, heq⟩ := mem_map.mp hm
      have := hbooks.seq_lt (mem_append_right _ ho)
      omega
    · have h := hbooks.nodup
      rw [map_append] at h
      exact (nodup_append'.mp h).2.1
  obtain ⟨hstocked', hparts, hf, hbarriers⟩ :=
    add_spec good_joinable (hstocked.hold ⟨hgood, hkind⟩) hnodup
  rw [hbare] at hbarriers
  rw [hk]
  generalize hadded : last.add keys (.single request.op p false) limits = added at *
  refine place_sound hs hadmitted hseq hid ?_ ?_ ?_ ?_
  · refine row_placed hs [] ⟨init, added, rfl, hbarriers⟩ (by simp [hepochs, hf]) (by simp)
      fun hlen => ?_
    rw [hepochs] at hlen ⊢
    cases init with
    | nil => simp at hlen
    | cons f init => exact ⟨by simp, by simp⟩
  · have hascend := hs.ascending
    rw [line, hblocks] at hascend
    change Ascend _ (board (flying w.queue.inFlight false) (flying w.queue.inFlight true)
      ((init ++ [added]).flatMap blocks))
    rw [flatMap_blocks_concat hbarriers]
    rcases eq_or_ne init [] with rfl | hinit
    · rw [flying_true_of_single hs.row (by simp [hepochs])]
      simp [board, ascend_cons]
    · rw [board_append (flatMap_blocks_ne_nil hinit)] at hascend ⊢
      rw [ascend_append] at hascend ⊢
      refine ⟨hascend.1, by simp [ascend_cons], ?_⟩
      rw [flatten_singleton]
      intro x hx y hy
      rcases mem_cons.mp (hparts.mem_iff.mp hy) with rfl | hy
      · rw [hseq]
        refine hbooks.seq_lt (mem_append_left _ ?_)
        exact (board_flatten_perm (flatMap_blocks_ne_nil hinit)).mem_iff.mp hx
      · exact hascend.2.2 x hx y (by simpa using hy)
  · rw [flatMap_blocks_concat hbarriers, hblocks, flatten_append, flatten_append,
      flatten_singleton, flatten_singleton]
    exact (hparts.append_left _).trans perm_middle
  · refine accept_stores hs.stores request hloose (Nat.le_succ keys) (by omega)
      (by rfl) fun hkept e hepoch => ?_
    rcases mem_append.mp hepoch with hinit | hl
    · exact hkept e (by simp [hepochs, hinit])
    · rw [mem_singleton.mp hl]
      refine ⟨hstocked', fun unit hu => ?_⟩
      rw [hbarriers] at hu
      cases hu

variable (hkind : (IoUnit.single request.op p false).isBarrier = true)

include hkind

/-- A barrier goes behind those of an epoch that only an idle one follows, old or new. -/
theorem pushBarrier_sound {e : Epoch} {tail : List Epoch} (zeros : List Nat)
    (hepochs : w.queue.epochs = init ++ e :: tail) (htail : (tail.flatMap blocks).flatten = [])
    (hidle : last.loose = []) (hlast : last ∈ tail ∨ last = default)
    (hcounts : [last.inFlight] = tail.map Epoch.inFlight ++ zeros) (hzeros : ∀ n ∈ zeros, n = 0) :
    Sound limits config (placed w request (init ++ [e.pushBarrier
      (.single request.op p false) limits, last]) w.queue.nextKey) := by
  obtain ⟨keys, hkeys, hnextKey, hloose⟩ := hs.stores.loose
  have hblocks : w.queue.epochs.flatMap blocks =
      (init.flatMap blocks ++ [e.loose]) ++ (held e ++ tail.flatMap blocks) := by
    rw [hepochs, flatMap_append]
    simp [blocks, held]
  have hflat : (held e ++ tail.flatMap blocks).flatten = (held e).flatten := by
    rw [flatten_append, htail, append_nil]
  have hbooks := books_board hs (by simp) hblocks
  rw [flatten_append, ← append_assoc, hflat] at hbooks
  have hmember : e ∈ w.queue.epochs := by simp [hepochs]
  obtain ⟨barriers, hpush, hparts, hbarriers, hascendHeld⟩ :=
    pushBarrier_held hgood hkind rfl (fun o ho =>
        ⟨(hs.stores.barriers e hmember o ho).1.accept request,
          (hs.stores.barriers e hmember o ho).2⟩)
      (fun x hx y hy => by
        rw [mem_singleton.mp hy, hseq]
        exact hbooks.seq_lt (mem_append_right _ hx))
  rw [hpush]
  have hblocks' : (init ++ [{ e with barriers }, last]).flatMap blocks =
      (init.flatMap blocks ++ [e.loose]) ++ (barriers.map IoUnit.parts ++ [[]]) := by
    have hsame : Epoch.loose { e with barriers } = e.loose := rfl
    rw [flatMap_append]
    simp [blocks, held, hbare, hidle, hsame]
  refine place_sound hs hadmitted hseq hid ?_ ?_ ?_ ?_
  · refine row_placed hs zeros ⟨init ++ [{ e with barriers }], last, by simp, hbare⟩
      ?_ hzeros fun _ => ⟨by simp, ?_⟩
    · rw [hepochs, map_append, map_append, append_assoc]
      exact congrArg (_ ++ e.inFlight :: ·) hcounts
    · rw [hepochs]
      cases init <;> simp
  · have hascend := hs.ascending
    rw [line, hblocks, board_append (by simp), ascend_append, ascend_append] at hascend
    change Ascend _ (board (flying w.queue.inFlight false) (flying w.queue.inFlight true)
      ((init ++ [{ e with barriers }, last]).flatMap blocks))
    rw [hblocks', board_append (by simp), ascend_append, ascend_append]
    refine ⟨hascend.1, ⟨hascendHeld hascend.2.1.1, by simp [ascend_cons], by simp⟩, ?_⟩
    rw [flatten_append_nil]
    intro x hx y hy
    rcases mem_cons.mp (hparts.mem_iff.mp hy) with rfl | hy
    · rw [hseq]
      exact hbooks.seq_lt (mem_append_left _ ((board_flatten_perm (by simp)).mem_iff.mp hx))
    · exact hascend.2.2 x hx y (by rwa [hflat])
  · rw [hblocks', hblocks, flatten_append, flatten_append_nil, @flatten_append _ (_ ++ _), hflat]
    exact (hparts.append_left _).trans perm_middle
  · refine accept_stores hs.stores request hloose le_rfl (by omega) hnextKey fun hkept o ho => ?_
    simp only [mem_append, mem_cons, not_mem_nil, or_false] at ho
    rcases ho with ho | rfl | rfl
    · exact hkept o (by simp [hepochs, ho])
    · exact ⟨(hkept e hmember).1.relabel _ _, hbarriers⟩
    · rcases hlast with hlast | rfl
      · exact hkept _ (by simp [hepochs, hlast])
      · exact ⟨stocked_default, fun unit hu => by cases hu⟩

end

lemma submit_sound {now : Nat} (hs : Sound limits config w)
    (hb : w.accepted.length + 1 + w.returned.length ≤ 2 ^ 64)
    (hsubmit : w.queue.submit now request = (.ok (), queue)) :
    Sound limits config { w with queue, accepted := w.accepted ++ [request] } := by
  obtain ⟨hadmitted, epochs, nextKey, henters, rfl⟩ := submit_spec hs.row hsubmit
  have hgood := good_single hs now hadmitted (by omega)
  have hseq := partOf_seq hs now request (by omega)
  obtain rfl := hs.sameLimits
  cases henters with
  | unit hkind hepochs hbare =>
    exact pushUnit_sound hs hadmitted hseq rfl hgood hbare hkind hepochs hb
  | behind hkind hepochs hbare hidle =>
    exact pushBarrier_sound hs hadmitted hseq rfl hgood hbare hkind [] hepochs
      (by simp [blocks, held, hbare, hidle]) hidle (.inl mem_cons_self) rfl nofun
  | ends hkind hepochs hbare =>
    exact pushBarrier_sound hs hadmitted hseq rfl hgood rfl hkind [0] hepochs rfl rfl (.inr rfl)
      rfl (by simp)

variable {now : Nat}

lemma ascend_front {a a' b b' : List Part} {rest : List (List Part)}
    (hascend : Ascend Part.seq (a :: b :: rest)) (ha : a'.Perm a) (hb : b'.Perm b) :
    Ascend Part.seq (a' :: b' :: rest) := by
  simp only [ascend_cons, flatten_cons, before_append_right] at hascend ⊢
  exact ⟨⟨hascend.1.1, hascend.1.2.mono hb.subset (List.Subset.refl _)⟩,
    hascend.2.1.mono ha.subset hb.subset, hascend.2.2.mono ha.subset (List.Subset.refl _)⟩

lemma size_insert {flights : SortedMap Nat InFlight} {t : Nat} (flight : InFlight)
    (hfresh : flights.get? t = none) : (flights.insert t flight).size = flights.size + 1 :=
  (insert_perm hfresh).length_eq

def launched (queue : Queue) (epochs : List Epoch) (unit : IoUnit) (barrier : Bool) : Queue :=
  ({ queue with epochs } : Queue).launch queue.nextToken unit barrier

/-- What the next unit is, where it comes from, and the row it leaves. -/
inductive Leaves (queue : Queue) (now : Nat) : IoUnit → Bool → List Epoch → Prop
  | unit {front : Epoch} {rest : List Epoch} {key : Nat} {unit : IoUnit}
      (hepochs : queue.epochs = front :: rest) (hpick : front.pick queue.head now = some key)
      (hunit : front.units.get? key = some unit) : Leaves queue now unit false
        ({ front.without key unit with inFlight := queue.inFlight.size + 1 } :: rest)
  | barrier {front : Epoch} {rest : List Epoch} {unit : IoUnit} {barriers : List IoUnit}
      (hepochs : queue.epochs = front :: rest) (hunits : front.units.entries = [])
      (hsize : queue.inFlight.size = 0) (hbarriers : front.barriers = unit :: barriers) :
      Leaves queue now unit true ({ front with barriers, inFlight := 1 } :: rest)

/-- A plug, a full device or the end of the tokens holds every command back. -/
abbrev Gated (queue : Queue) : Prop :=
  queue.plugged = true ∧ queue.queued < queue.config.plugThreshold ∨
    queue.limits.queueDepth ≤ queue.inFlight.size ∨ 2 ^ 64 ≤ queue.nextToken + 1

/-- Nothing of the oldest epoch may leave, for want of a unit or of a barrier whose turn it is. -/
def Waits (queue : Queue) : Prop :=
  ∀ front ∈ queue.epochs.head?, front.units.entries = [] ∧
    (front.barriers = [] ∨ queue.inFlight.size ≠ 0)

section

variable (hs : Sound limits config w)
include hs

lemma takeNext_spec (now : Nat) : Waits w.queue ∧ w.queue.takeNext now = (none, w.queue) ∨
    ∃ unit barrier epochs, Leaves w.queue now unit barrier epochs ∧
      w.queue.takeNext now = (some (unit, barrier), { w.queue with epochs }) := by
  obtain ⟨keys, -, -, hloose⟩ := hs.stores.loose
  obtain ⟨counts, hcounts, -⟩ := hs.row.counted
  have hdepth := hs.depth
  have hL := limits.queueDepth_lt
  rw [Queue.takeNext, Waits]
  cases hepochs : w.queue.epochs with
  | nil => exact .inl ⟨by simp, rfl⟩
  | cons front rest =>
    rw [hepochs, map_cons, List.cons.injEq] at hcounts
    have hsat : saturatingAdd 64 front.inFlight 1 = w.queue.inFlight.size + 1 := by
      rw [saturatingAdd_of_lt (by omega), hcounts.1]
    dsimp only
    cases hunits : front.hasUnits with
    | true =>
      obtain ⟨k, unit, hpick, hu⟩ := pick_spec (hloose front (by simp [hepochs])).indexed
        hunits w.queue.head now
      rw [if_pos rfl, hpick]
      dsimp only
      rw [remove_of_get hu]
      refine .inr ⟨unit, false, _, .unit hepochs hpick hu, ?_⟩
      change (some (unit, false), _) = _
      rw [show (front.without k unit).inFlight = front.inFlight from rfl, hsat]
    | false =>
      have hnone : front.units.entries = [] := by simpa [Epoch.hasUnits] using hunits
      rw [if_neg (by simp), hcounts.1]
      split
      · rename_i hsize
        cases hbarriers : front.barriers with
        | nil => exact .inl ⟨by simp [hnone, hbarriers], rfl⟩
        | cons unit barriers =>
          refine .inr ⟨unit, true, _, .barrier hepochs hnone hsize hbarriers, ?_⟩
          rw [hsize]
          rfl
      · rename_i hbusy
        exact .inl ⟨by simp [hnone, hbusy], rfl⟩

lemma dispatch_cases (now : Nat) : (Gated w.queue ∨ Waits w.queue) ∧
      w.queue.dispatch now = (none, w.queue) ∨
    w.queue.inFlight.size < w.queue.limits.queueDepth ∧
    ∃ unit barrier epochs, Leaves w.queue now unit barrier epochs ∧ w.queue.dispatch now =
      (some ⟨w.queue.nextToken, unit.op, unit.sector, unit.count, unit.fua, unit.parts⟩,
        launched w.queue epochs unit barrier) := by
  rw [Queue.dispatch]
  split_ifs with hplug hdepth
  · exact .inl ⟨.inl (.inl (by simpa using hplug)), rfl⟩
  · exact .inl ⟨.inl (.inr (.inl hdepth)), rfl⟩
  · split
    · rename_i hnone
      refine .inl ⟨.inl (.inr (.inr (not_lt.mp fun hlt => ?_))), rfl⟩
      rw [checkedAdd_eq_some.mpr ⟨hlt, rfl⟩] at hnone
      cases hnone
    · rcases takeNext_spec hs now with ⟨hwaits, h⟩ | ⟨unit, barrier, epochs, hleaves, h⟩ <;>
        rw [h]
      · exact .inl ⟨.inr hwaits, rfl⟩
      · exact .inr ⟨not_le.mp hdepth, unit, barrier, epochs, hleaves, rfl⟩

lemma dispatch_none (hdispatch : w.queue.dispatch now = (none, queue)) : queue = w.queue := by
  rcases dispatch_cases hs now with ⟨-, h⟩ | ⟨-, _, _, _, -, h⟩ <;> rw [h] at hdispatch <;>
    cases hdispatch
  rfl

lemma get?_fresh : w.queue.inFlight.get? w.queue.nextToken = none := by
  cases hg : w.queue.inFlight.get? w.queue.nextToken with
  | none => rfl
  | some f =>
    have htoken := (hs.stores.flights _ _ hg).2.2
    exact absurd (hs.issued.2 _ htoken) (lt_irrefl _)

variable {front l : Epoch} {rest : List Epoch} {barrier : Bool}
  (hepochs : w.queue.epochs = front :: rest)

include hepochs

lemma row_launch (hbare : rest = [] → l.barriers = [])
    (hn : l.inFlight = w.queue.inFlight.size + 1)
    (halone : ∀ t f, (launched w.queue (l :: rest) unit barrier).inFlight.get? t
      = some f → f.barrier = true → w.queue.inFlight.size = 0 ∧ rest ≠ [] ∧
      l.units.entries = []) : Row (launched w.queue (l :: rest) unit barrier) := by
  have hsize : (launched w.queue (l :: rest) unit barrier).inFlight.size = _ :=
    size_insert ⟨w.queue.firstEpoch, barrier, unit⟩ (get?_fresh hs)
  refine hs.row.renew hepochs rfl (hn.trans hsize.symm) hbare ?_ ?_
  · intro t f hf
    rcases of_get?_insert hf with ⟨-, rfl⟩ | hf
    · rfl
    · exact hs.row.oldest t f hf
  · intro t f hf hkind
    obtain ⟨hzero, halone⟩ := halone t f hf hkind
    exact ⟨by rw [hsize, hzero], halone⟩

variable (hdepth : w.queue.inFlight.size < limits.queueDepth)

include hdepth

lemma launch_sound (hrow : Row (launched w.queue (l :: rest) unit barrier))
    (hascend : Ascend Part.seq (line (launched w.queue (l :: rest) unit barrier)))
    (hblocks : (blocks front).flatten.Perm (unit.parts ++ (blocks l).flatten))
    (hu : Fit limits w.accepted w.returned barrier unit)
    (hhoused : ∀ keys, Housed limits w.accepted w.returned keys front →
      Housed limits w.accepted w.returned keys l) : Sound limits config { w with
      queue := launched w.queue (l :: rest) unit barrier
      tokens := w.tokens ++ [w.queue.nextToken] } := by
  have hfresh := get?_fresh hs
  have hparts : (w.queue.epochs.flatMap blocks).flatten.Perm
      (unit.parts ++ ((l :: rest).flatMap blocks).flatten) := by
    rw [hepochs, flatMap_cons, flatMap_cons, flatten_append, flatten_append, ← append_assoc]
    exact hblocks.append_right _
  have hflatten : (line (launched w.queue (l :: rest) unit barrier)).flatten.Perm
      (line w.queue).flatten := by
    refine (board_flatten_perm hrow.blocks_ne_nil).trans
      (List.Perm.trans ?_ (board_flatten_perm hs.row.blocks_ne_nil).symm)
    refine List.Perm.trans ?_ (hparts.symm.append_left _)
    have hflying := ((flying_length ((w.queue.inFlight.insert w.queue.nextToken
      ⟨w.queue.firstEpoch, barrier, unit⟩))).trans ((insert_perm hfresh).flatMap_right _)).trans
        ((flying_length w.queue.inFlight).symm.append_left unit.parts)
    refine (hflying.append_right _).trans ((perm_append_comm.append_right _).trans ?_)
    rw [append_assoc]
    exact List.Perm.refl _
  have hbooks : Books { w with
      queue := launched w.queue (l :: rest) unit barrier
      tokens := w.tokens ++ [w.queue.nextToken] } (line w.queue).flatten :=
    hs.books.keep rfl rfl rfl hs.books.returned
  refine { hs with
    row := hrow, ascending := hascend, stores := ?_, books := hbooks.perm hflatten, queued := ?_
    depth := ?_, issued := ?_ }
  · obtain ⟨keys, hkeys, hnextKey, hstocked⟩ := hs.stores.loose
    have hold : ∀ e ∈ front :: rest, Housed limits w.accepted w.returned keys e :=
      fun e hepoch => ⟨hstocked e (hepochs ▸ hepoch), hs.stores.barriers e (hepochs ▸ hepoch)⟩
    rw [forall_mem_cons] at hold
    have hnew := forall_mem_cons.mpr ⟨hhoused keys hold.1, hold.2⟩
    refine ⟨⟨keys, hkeys, hnextKey, fun e hepoch => (hnew e hepoch).1⟩,
      fun e hepoch => (hnew e hepoch).2, fun t f hf => ?_⟩
    rcases of_get?_insert hf with ⟨rfl, rfl⟩ | hf
    · exact ⟨hu.1, hu.2, by simp⟩
    · obtain ⟨hgood, hkind, hissued⟩ := hs.stores.flights t f hf
      exact ⟨hgood, hkind, mem_append_left _ hissued⟩
  · change w.queue.queued - unit.parts.length = ((l :: rest).flatMap blocks).flatten.length
    have hlen := hparts.length_eq
    rw [length_append] at hlen
    rw [hs.queued]
    omega
  · change (w.queue.inFlight.insert _ _).size ≤ _
    rw [size_insert _ hfresh]
    omega
  · refine ⟨?_, forall_mem_append.mpr ⟨fun t h => (hs.issued.2 _ h).trans (lt_add_one _),
        forall_mem_singleton.mpr (lt_add_one _)⟩⟩
    refine nodup_append'.mpr ⟨hs.issued.1, nodup_singleton _, fun t h h' => ?_⟩
    rw [mem_singleton.mp h'] at h
    exact absurd (hs.issued.2 _ h) (lt_irrefl _)

lemma dispatch_unit {key : Nat} (hu : front.units.get? key = some unit) :
    Sound limits config { w with
      queue := launched w.queue
        ({ front.without key unit with inFlight := w.queue.inFlight.size + 1 } :: rest) unit false
      tokens := w.tokens ++ [w.queue.nextToken] } := by
  have hrow := hs.row
  have hfresh := get?_fresh hs
  have hfront : front ∈ w.queue.epochs := by simp [hepochs]
  have hnone : ∀ t f, w.queue.inFlight.get? t = some f → f.barrier = false := by
    intro t f hf
    cases hkind : f.barrier with
    | false => rfl
    | true =>
      have he := (hrow.alone t f hf hkind).2.2 front (by simp [hepochs])
      exact absurd he (entries_ne_nil hu)
  generalize hleft : ({ front.without key unit with
    inFlight := w.queue.inFlight.size + 1 } : Epoch) = l
  have hh : held l = held front := by rw [← hleft]; rfl
  have hloose : front.loose.Perm (unit.parts ++ l.loose) := by
    rw [← hleft]
    exact loose_without hu
  have hbarriers : l.barriers = front.barriers := by rw [← hleft]; rfl
  refine launch_sound hs hepochs hdepth ?_ ?_ ?_ ?_ ?_
  · refine row_launch hs hepochs (fun hr => ?_) (by rw [← hleft]) ?_
    · exact hbarriers.trans (hs.row.bare_of_single (hr ▸ hepochs))
    intro t f hf hkind
    rcases of_get?_insert hf with ⟨-, rfl⟩ | hf
    · cases hkind
    · rw [hnone t f hf] at hkind
      cases hkind
  · have hascend := hs.ascending
    rw [line, hepochs] at hascend
    change Ascend _ (board (flying (w.queue.inFlight.insert _ _) false)
      (flying (w.queue.inFlight.insert _ _) true) ((l :: rest).flatMap blocks))
    rw [flatMap_cons, blocks, hh]
    refine ascend_front hascend ?_ (flying_perm _ (insert_perm hfresh) true)
    refine ((flying_perm _ (insert_perm hfresh) false).append_right _).trans ?_
    refine (perm_append_comm.append_right _).trans ?_
    rw [append_assoc]
    exact hloose.symm.append_left _
  · rw [blocks, blocks, hh, flatten_cons, flatten_cons, ← append_assoc]
    exact hloose.append_right _
  · obtain ⟨keys, -, -, hstocked⟩ := hs.stores.loose
    exact (hstocked front hfront).queued key unit hu
  · rintro keys ⟨hstocked, hold⟩
    refine ⟨?_, hbarriers ▸ hold⟩
    rw [← hleft]
    exact (hstocked.without hu).relabel _ _

lemma dispatch_barrier {barriers : List IoUnit} (hunits : front.units.entries = [])
    (hsize : w.queue.inFlight.size = 0) (hbarriers : front.barriers = unit :: barriers) :
    Sound limits config { w with
      queue := launched w.queue ({ front with barriers, inFlight := 1 } :: rest) unit true
      tokens := w.tokens ++ [w.queue.nextToken] } := by
  have hfresh := get?_fresh hs
  have hlooseNil := loose_of_not_hasUnits hunits
  generalize hleft : ({ front with barriers, inFlight := 1 } : Epoch) = l
  have hlooseLeft : l.loose = [] := by rw [← hleft]; exact hlooseNil
  have hh : held front = unit.parts :: held l := by
    rw [held, held, hbarriers, ← hleft, map_cons]
  have hr : rest ≠ [] := by
    rintro rfl
    have hbare := hs.row.bare_of_single hepochs
    rw [hbarriers] at hbare
    cases hbare
  refine launch_sound hs hepochs hdepth ?_ ?_ ?_ ?_ ?_
  · refine row_launch hs hepochs (fun h => absurd h hr) (by rw [← hleft, hsize]) ?_
    exact fun _ _ _ _ => ⟨hsize, hr, by rw [← hleft]; exact hunits⟩
  · have hascend := hs.ascending
    rw [line, hepochs, flying_eq_nil hsize, flying_eq_nil hsize, ascend_board_nil,
      flatMap_cons, blocks, hh, hlooseNil, cons_append, cons_append,
      ascend_cons] at hascend
    change Ascend _ (board (flying (w.queue.inFlight.insert _ _) false)
      (flying (w.queue.inFlight.insert _ _) true) ((l :: rest).flatMap blocks))
    have hfalse := flying_perm ⟨w.queue.firstEpoch, true, unit⟩ (insert_perm hfresh) false
    have htrue := flying_perm ⟨w.queue.firstEpoch, true, unit⟩ (insert_perm hfresh) true
    rw [flying_eq_nil hsize, if_neg (by simp)] at hfalse
    rw [flying_eq_nil hsize, if_pos rfl, append_nil] at htrue
    rw [flatMap_cons, blocks, hlooseLeft]
    refine ascend_front ?_ ?_ htrue (a := [])
    · exact ascend_cons.mpr ⟨hascend.1, by simp⟩
    · rw [append_nil]
      exact hfalse
  · rw [blocks, blocks, hh, hlooseNil, hlooseLeft]
    rfl
  · exact hs.stores.barriers front (by simp [hepochs]) unit (by simp [hbarriers])
  · rintro keys ⟨hstocked, hold⟩
    rw [← hleft]
    rw [hbarriers, forall_mem_cons] at hold
    exact ⟨hstocked.relabel _ _, hold.2⟩

end

lemma dispatch_sound {dispatch : Dispatch} (hs : Sound limits config w)
    (hdispatch : w.queue.dispatch now = (some dispatch, queue)) :
    Sound limits config { w with queue, tokens := w.tokens ++ [dispatch.token] } := by
  rcases dispatch_cases hs now with ⟨-, h⟩ | ⟨hdepth, unit, barrier, epochs, hleaves, h⟩ <;>
    rw [h] at hdispatch <;> cases hdispatch
  rw [hs.sameLimits] at hdepth
  cases hleaves with
  | unit hepochs _ hu => exact dispatch_unit hs hepochs hdepth hu
  | barrier hepochs hunits hsize hbarriers =>
    exact dispatch_barrier hs hepochs hdepth hunits hsize hbarriers

end Ferrix.Block.QueueSteps

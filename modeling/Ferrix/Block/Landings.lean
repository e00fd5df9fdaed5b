import Ferrix.Block.QueueSteps

namespace Ferrix.Block.Landings

open Foundations Words SortedMaps SortedMap
open Foundations.OrderedBlocks Requests Epochs Epochs.Epoch RequestQueue Custody QueueSteps List

variable {queue : Queue}

variable {L : Limits} {config : Config} {w : World} {token keys n : Nat} {flight : InFlight}
  {front e : Epoch} {rest : List Epoch} {P : IoUnit → Prop} {parts : List Part}

lemma size_erase {flights : SortedMap Nat InFlight} (hf : flights.get? token = some flight) :
    flights.size = (flights.erase token).size + 1 :=
  (perm_erase hf).length_eq

lemma takeFlight_none {error : TokenError}
    (htake : w.queue.takeFlight token = (.error error, queue)) : queue = w.queue := by
  rw [Queue.takeFlight] at htake
  split at htake
  · exact (Prod.mk.inj htake).2.symm
  · cases (Prod.mk.inj htake).1

def lighter (world : World) (token : Nat) (front : Epoch) : Epoch :=
  { front with inFlight := (world.queue.inFlight.erase token).size }

lemma takeFlight_some (hs : Sound L config w) (h : w.queue.epochs = front :: rest)
    (htake : w.queue.takeFlight token = (.ok flight, queue)) :
    w.queue.inFlight.get? token = some flight ∧ queue = { w.queue with
      inFlight := w.queue.inFlight.erase token
      epochs := lighter w token front :: rest } := by
  rw [Queue.takeFlight] at htake
  split at htake
  · cases (Prod.mk.inj htake).1
  · rename_i found hfound
    obtain ⟨hok, rfl⟩ := Prod.mk.inj htake
    cases hok
    refine ⟨hfound, ?_⟩
    obtain ⟨counts, hcounts, -⟩ := hs.row.counted
    rw [h, map_cons, List.cons.injEq] at hcounts
    have hi : w.queue.epochIndex flight = 0 := by
      rw [Queue.epochIndex, hs.row.oldest _ _ hfound]
      exact Nat.sub_self _
    rw [hi, h, modify_zero_cons, hcounts.1, size_erase hfound]
    rfl

lemma complete_spec {R : Type} {result : R} {completion : Completion R}
    (hs : Sound L config w) (h : w.queue.epochs = front :: rest)
    (hcomplete : w.queue.complete token result = (.ok completion, queue)) :
    ∃ flight, w.queue.inFlight.get? token = some flight ∧
      completion.parts = flight.unit.parts ∧ queue = Queue.settle { w.queue with
        inFlight := w.queue.inFlight.erase token
        epochs := lighter w token front :: rest } flight.unit.parts := by
  rw [Queue.complete] at hcomplete
  split at hcomplete
  · cases (Prod.mk.inj hcomplete).1
  · rename_i flight taken htake
    obtain ⟨hf, rfl⟩ := takeFlight_some hs h htake
    obtain ⟨hok, rfl⟩ := Prod.mk.inj hcomplete
    cases hok
    exact ⟨flight, hf, rfl, rfl⟩

lemma retire_one {next : Epoch} (hs : Sound L config w)
    (h : w.queue.epochs = e :: next :: rest) (hdone : e.isDone = true) :
    Sound L config { w with
      queue := { w.queue with
        epochs := next :: rest
        firstEpoch := wrappingAdd 64 w.queue.firstEpoch 1 } } := by
  rw [Epoch.isDone, Epoch.isIdle, Bool.and_eq_true, Bool.and_eq_true, List.isEmpty_iff,
    List.isEmpty_iff, decide_eq_true_eq] at hdone
  obtain ⟨⟨hunits, hquiet⟩, hbarriers⟩ := hdone
  have hrow := hs.row
  obtain ⟨counts, hcounts, hzero⟩ := hrow.counted
  rw [h, map_cons, List.cons.injEq] at hcounts
  have hsize : w.queue.inFlight.size = 0 := hcounts.1.symm.trans hquiet
  have hnone : ∀ o flight', w.queue.inFlight.get? o ≠ some flight' := by
    intro o flight' ho
    have := size_erase ho
    omega
  have hblocks : w.queue.epochs.flatMap blocks = [] :: (next :: rest).flatMap blocks := by
    rw [h, flatMap_cons, blocks, held, hbarriers, loose_of_not_hasUnits hunits]
    rfl
  have hne : (next :: rest).flatMap blocks ≠ [] := flatMap_blocks_ne_nil (by simp)
  have hline : (line { w.queue with
      epochs := next :: rest
      firstEpoch := wrappingAdd 64 w.queue.firstEpoch 1 }).flatten.Perm
        (line w.queue).flatten := by
    refine (board_flatten_perm hne).trans ?_
    change (flying w.queue.inFlight false ++ flying w.queue.inFlight true ++
      ([] :: (next :: rest).flatMap blocks).flatten).Perm _
    rw [line, hblocks]
    exact (board_flatten_perm (cons_ne_nil _ _)).symm
  refine { hs with row := ?_, ascending := ?_, stores := ?_, books := ?_, queued := ?_ }
  · refine ⟨?_, fun o flight' ho => absurd ho (hnone _ _), ?_,
      fun o flight' ho => absurd ho (hnone _ _)⟩
    · obtain ⟨init, l, hl, hbare⟩ := hrow.bare
      rw [h] at hl
      cases init with
      | nil => simp at hl
      | cons f init => exact ⟨init, l, (List.cons.inj hl).2, hbare⟩
    · refine ⟨rest.map Epoch.inFlight, ?_, fun n hn => hzero n ?_⟩
      · change (next :: rest).map Epoch.inFlight = w.queue.inFlight.size :: _
        rw [map_cons, hsize, hzero next.inFlight]
        rw [← hcounts.2]
        simp
      · rw [← hcounts.2]
        simp [hn]
  · have hascend := hs.ascending
    rw [line, hblocks, flying_eq_nil hsize, flying_eq_nil hsize, ascend_board_nil,
      ascend_cons] at hascend
    change Ascend _ (board (flying w.queue.inFlight false) (flying w.queue.inFlight true)
      ((next :: rest).flatMap blocks))
    rw [flying_eq_nil hsize, flying_eq_nil hsize, ascend_board_nil]
    exact hascend.1
  · obtain ⟨⟨keys, hkeys, hnextKey, hloose⟩, hh, hflights⟩ := hs.stores
    exact ⟨⟨keys, hkeys, hnextKey, fun e he => hloose e (by rw [h]; exact .tail _ he)⟩,
      fun e he => hh e (by rw [h]; exact .tail _ he), hflights⟩
  · have hbooks : Books { w with
        queue := { w.queue with
          epochs := next :: rest
          firstEpoch := wrappingAdd 64 w.queue.firstEpoch 1 } } (line w.queue).flatten :=
      hs.books.keep rfl rfl rfl hs.books.returned
    exact hbooks.perm hline
  · change w.queue.queued = ((next :: rest).flatMap blocks).flatten.length
    rw [hs.queued, hblocks, flatten_cons, nil_append]

lemma retire_sound (epochs : List Epoch) (first : Nat) (w : World) (h : w.queue.epochs = epochs)
    (hfirst : w.queue.firstEpoch = first) (hs : Sound L config w) : Sound L config { w with
      queue := { w.queue with
        epochs := (retire epochs first).1
        firstEpoch := (retire epochs first).2 } } := by
  induction epochs, first using retire.induct generalizing w with
  | case1 e next rest first hdone ih =>
    rw [retire, if_pos hdone]
    have hstep := ih _ (by rfl) (by rw [← hfirst]) (retire_one hs h hdone)
    exact hstep
  | case2 e next rest first hdone =>
    rw [retire, if_neg hdone, ← h, ← hfirst]
    exact hs
  | case3 epochs first hshort =>
    rw [retire.eq_2 _ _ hshort, ← h, ← hfirst]
    exact hs

lemma stocked_of_epochs {front' : Epoch}
    (h : w.queue.epochs = front :: rest) (hstocked : ∀ e ∈ w.queue.epochs, e.Stocked P keys)
    (hfront : front'.Stocked P keys) : ∀ e ∈ front' :: rest, e.Stocked P keys :=
  forall_mem_cons.mpr ⟨hfront, fun e hepoch => hstocked e (by simp [h, hepoch])⟩

lemma insertParts_keeps (op : Op) (parts : List Part) (key : Nat) (e : Epoch) :
    (insertParts op parts key e).2.inFlight = e.inFlight ∧
      (insertParts op parts key e).2.barriers = e.barriers := by
  induction parts generalizing key e with
  | nil => exact ⟨rfl, rfl⟩
  | cons p parts ih => exact ih _ _

lemma insertParts_spec {op : Op} (parts : List Part) (hstocked : e.Stocked P keys)
    (hparts : ∀ p ∈ parts, P (.single op p true)) (hb : keys + parts.length ≤ 2 ^ 64) :
    (insertParts op parts (keys % 2 ^ 64) e).1 = (keys + parts.length) % 2 ^ 64 ∧
      (insertParts op parts (keys % 2 ^ 64) e).2.Stocked P (keys + parts.length) ∧
      (insertParts op parts (keys % 2 ^ 64) e).2.loose.Perm (parts ++ e.loose) := by
  induction parts generalizing keys e with
  | nil => exact ⟨rfl, hstocked, List.Perm.refl _⟩
  | cons p parts ih =>
    rw [length_cons] at hb ⊢
    have hk : keys % 2 ^ 64 = keys := Nat.mod_eq_of_lt (by omega)
    have hold := hstocked.hold (hparts p mem_cons_self)
    have hn := ih hold.insert.1 (fun o ho => hparts o (mem_cons_of_mem _ ho)) (by omega)
    rw [insertParts, wrappingAdd_mod, hk]
    rw [show keys + 1 + parts.length = keys + (parts.length + 1) by omega] at hn
    refine ⟨hn.1, hn.2.1, hn.2.2.trans ?_⟩
    exact (hold.insert.2.append_left _).trans perm_middle

def landed (world : World) (token : Nat) (flight : InFlight) (epochs : List Epoch) (nextKey : Nat) :
    World :=
  { world with
    queue := { world.queue with
      inFlight := world.queue.inFlight.erase token
      epochs
      queued := saturatingAdd 64 world.queue.queued flight.unit.parts.length
      nextKey }
    returned := world.returned ++ flight.unit.parts }

section

variable (hs : Sound L config w)
  (hf : w.queue.inFlight.get? token = some flight)

include hs hf

lemma erase_barrier {other : Nat} {flight' : InFlight}
    (ho : (w.queue.inFlight.erase token).get? other = some flight') :
    flight'.barrier = false := by
  cases hkind : flight'.barrier with
  | false => rfl
  | true =>
    have hsize := size_erase hf
    have hsize' := size_erase ho
    have := (hs.row.alone other flight' (of_get?_erase ho) hkind).1
    omega

lemma flying_erase_true : flying (w.queue.inFlight.erase token) true = [] := by
  rw [eq_nil_iff_forall_not_mem]
  intro p hpart
  obtain ⟨o, flight', ho, hkind, -⟩ := mem_flying.mp hpart
  rw [erase_barrier hs hf ho] at hkind
  cases hkind

lemma flatten_land {l : List (List Part)}
    (hleft : l ≠ []) (hblocks : w.queue.epochs.flatMap blocks = l) :
    Books w (flight.unit.parts ++ (board (flying (w.queue.inFlight.erase token) false)
      (flying (w.queue.inFlight.erase token) true) l).flatten) := by
  refine (books_board hs hleft hblocks).perm ?_
  refine ((board_flatten_perm hleft).append_left _).trans ?_
  rw [← append_assoc]
  refine List.Perm.append_right _ ?_
  refine ((flying_length _).append_left _).trans (List.Perm.trans ?_ (flying_length _).symm)
  have hperm := (perm_erase hf).flatMap_right fun entry => entry.2.unit.parts
  rw [flatMap_cons] at hperm
  exact hperm.symm

lemma return_stores : (∀ keys, (∀ e ∈ w.queue.epochs,
      e.Stocked (Fit L w.accepted w.returned false) keys) →
      ∀ e ∈ w.queue.epochs, e.Stocked
        (Fit L w.accepted (w.returned ++ flight.unit.parts) false) keys) ∧
    (∀ e ∈ w.queue.epochs, ∀ u ∈ e.barriers,
      Fit L w.accepted (w.returned ++ flight.unit.parts) true u) ∧
    (∀ other flight', (w.queue.inFlight.erase token).get? other = some flight' →
      Good L w.accepted (w.returned ++ flight.unit.parts) flight'.unit) := by
  have hne := hs.row.blocks_ne_nil
  have hbooks := (flatten_land hs hf hne rfl).perm ((board_flatten_perm hne).symm.append_left _)
  have ho : ∀ a ∈ flying (w.queue.inFlight.erase token) false ++
      flying (w.queue.inFlight.erase token) true ++ (w.queue.epochs.flatMap blocks).flatten,
      ∀ b ∈ flight.unit.parts, a.seq ≠ b.seq := fun a ha b hb =>
    (hbooks.distinct b hb a ha).symm
  have hblock : ∀ e ∈ w.queue.epochs, ∀ block ∈ blocks e, ∀ a ∈ block,
      ∀ b ∈ flight.unit.parts, a.seq ≠ b.seq := by
    intro e hepoch block hblock a ha
    refine ho a (mem_append_right _ (mem_flatten.mpr ⟨block, ?_, ha⟩))
    exact mem_flatMap.mpr ⟨e, hepoch, hblock⟩
  refine ⟨fun keys hloose e hepoch => ?_, fun e hepoch u hu => ?_, fun other flight' ho' => ?_⟩
  · have h := hloose e hepoch
    refine ⟨h.indexed, fun k u hu => (h.queued k u hu).imp_left fun hgood =>
      hgood.return fun a ha => ?_, h.keys⟩
    exact hblock e hepoch e.loose mem_cons_self a (mem_loose.mpr ⟨k, u, hu, ha⟩)
  · refine (hs.stores.barriers e hepoch u hu).imp_left fun hgood =>
      hgood.return fun a ha => ?_
    exact hblock e hepoch u.parts (mem_cons_of_mem _ (mem_map_of_mem hu)) a ha
  · have hgood := (hs.stores.flights other flight' (of_get?_erase ho')).1
    refine hgood.return fun a ha => ho a (mem_append_left _ (mem_append_left _ ?_))
    exact mem_flying.mpr ⟨other, flight', ho', erase_barrier hs hf ho', ha⟩

variable (h : w.queue.epochs = front :: rest) {front' : Epoch}

include h

lemma row_land (hqueue : queue.epochs = front' :: rest)
    (hflights : queue.inFlight = w.queue.inFlight.erase token)
    (hfirst : queue.firstEpoch = w.queue.firstEpoch)
    (hn : front'.inFlight = (w.queue.inFlight.erase token).size)
    (hbare : rest = [] → front'.barriers = []) : Row queue := by
  refine hs.row.renew h hqueue (hflights ▸ hn) hbare ?_ ?_
  · intro o flight' ho
    rw [hflights] at ho
    rw [hfirst]
    exact hs.row.oldest o flight' (of_get?_erase ho)
  · intro o flight' ho hkind
    rw [hflights] at ho
    rw [erase_barrier hs hf ho] at hkind
    cases hkind

lemma land_sound {nextKey : Nat} (hn : front'.inFlight = (w.queue.inFlight.erase token).size)
    (hbare : rest = [] → front'.barriers = [])
    (hparts : (blocks front').flatten.Perm (flight.unit.parts ++ (blocks front).flatten))
    (hascend : Ascend Part.seq (board (flying (w.queue.inFlight.erase token) false) []
      (blocks front' ++ rest.flatMap blocks)))
    (hkeys : keys ≤ w.accepted.length + (w.returned.length + flight.unit.parts.length))
    (hnextKey : nextKey = keys % 2 ^ 64) (hstocked : ∀ e ∈ front' :: rest, e.Stocked
      (Fit L w.accepted (w.returned ++ flight.unit.parts) false) keys)
    (hbarriers : ∀ u ∈ front'.barriers, Fit L w.accepted (w.returned ++ flight.unit.parts) true u) :
    Sound L config (landed w token flight (front' :: rest) nextKey) := by
  have hreturn := return_stores hs hf
  have hblocks : w.queue.epochs.flatMap blocks = blocks front ++ rest.flatMap blocks := by
    rw [h, flatMap_cons]
  have hland := flatten_land hs hf (by simp [blocks]) hblocks
  have hne : blocks front ++ rest.flatMap blocks ≠ [] := by simp [blocks]
  have hne' : blocks front' ++ rest.flatMap blocks ≠ [] := by simp [blocks]
  have hflatten : (board (flying (w.queue.inFlight.erase token) false)
      (flying (w.queue.inFlight.erase token) true)
      (blocks front' ++ rest.flatMap blocks)).flatten.Perm (flight.unit.parts ++
        (board (flying (w.queue.inFlight.erase token) false)
          (flying (w.queue.inFlight.erase token) true)
          (blocks front ++ rest.flatMap blocks)).flatten) := by
    refine (board_flatten_perm hne').trans
      (List.Perm.trans ?_ ((board_flatten_perm hne).symm.append_left _))
    rw [flatten_append, flatten_append, ← append_assoc, ← append_assoc, ← append_assoc]
    refine List.Perm.append_right _ ((hparts.append_left _).trans ?_)
    rw [← append_assoc]
    exact perm_append_comm.append_right _
  have hqueued : w.queue.queued + flight.unit.parts.length < 2 ^ 64 := by
    have hcard := hland.card
    have hroom := hs.books.room
    have hmax := w.queue.config.maxRequests_lt
    rw [length_append, (board_flatten_perm hne).length_eq, length_append, ← hblocks,
      ← hs.queued] at hcard
    omega
  have hbooks : Books (landed w token flight (front' :: rest) nextKey) _ :=
    (hland.perm hflatten).keep rfl rfl rfl (forall_mem_append.mpr ⟨hs.books.returned,
      fun p h => hland.seq_lt (mem_append_left _ h)⟩)
  refine { hs with
    row := row_land hs hf h rfl rfl rfl hn hbare, ascending := ?_, stores := ?_
    books := hbooks, queued := ?_, depth := ?_ }
  · change Ascend _ (board (flying (w.queue.inFlight.erase token) false)
      (flying (w.queue.inFlight.erase token) true) ((front' :: rest).flatMap blocks))
    rw [flying_erase_true hs hf, flatMap_cons]
    exact hascend
  · refine ⟨⟨keys, ?_, hnextKey, hstocked⟩, forall_mem_cons.mpr ⟨hbarriers, fun e hepoch =>
      hreturn.2.1 e (by simp [h, hepoch])⟩, fun o flight' ho => ?_⟩
    · simpa [landed] using hkeys
    · exact ⟨hreturn.2.2 o flight' ho, (hs.stores.flights o flight' (of_get?_erase ho)).2⟩
  · change saturatingAdd 64 w.queue.queued _ = ((front' :: rest).flatMap blocks).flatten.length
    have hlen := hparts.length_eq
    rw [length_append] at hlen
    rw [saturatingAdd_of_lt hqueued, hs.queued, hblocks, flatMap_cons, flatten_append,
      flatten_append, length_append, length_append, hlen]
    omega
  · have hsize := size_erase hf
    have hdepth := hs.depth
    change (w.queue.inFlight.erase token).size ≤ _
    omega

lemma requeue_units (hkind : flight.barrier = false)
    (hb : w.accepted.length + (w.returned.length + flight.unit.parts.length) ≤ 2 ^ 64) :
    Sound L config (landed w token flight
      ((insertParts flight.unit.op flight.unit.parts w.queue.nextKey
        (lighter w token front)).2 :: rest)
      (insertParts flight.unit.op flight.unit.parts w.queue.nextKey
        (lighter w token front)).1) := by
  obtain ⟨keys, hkeys, hnextKey, hloose⟩ := hs.stores.loose
  obtain ⟨hgood, hbarrier, -⟩ := hs.stores.flights token flight hf
  have hreturn := return_stores hs hf
  have hfront : front ∈ w.queue.epochs := by simp [h]
  have hstocked := hreturn.1 keys hloose
  have hlighter : (lighter w token front).Stocked _ keys := (hstocked front hfront).relabel _ _
  obtain ⟨hn, hstocked', hparts⟩ := insertParts_spec flight.unit.parts hlighter
    (fun p hpart => ⟨hgood.single hpart _, (isBarrier_single hgood hpart true).trans
      (hbarrier.trans hkind)⟩) (by omega)
  rw [← hnextKey] at hn hstocked' hparts
  obtain ⟨hcount, hbarriers⟩ := insertParts_keeps flight.unit.op flight.unit.parts
    w.queue.nextKey (lighter w token front)
  have hh : held (insertParts flight.unit.op flight.unit.parts w.queue.nextKey
      (lighter w token front)).2 = held front := by
    rw [held, hbarriers]
    rfl
  generalize hback : insertParts flight.unit.op flight.unit.parts w.queue.nextKey
    (lighter w token front) = back at *
  refine land_sound hs hf h hcount (fun hr => ?_) ?_ ?_
    (by omega : keys + flight.unit.parts.length ≤ _) hn ?_ ?_
  · rw [hbarriers]
    exact (hs.row.bare_of_single (hr ▸ h) : front.barriers = [])
  · rw [blocks, blocks, hh, flatten_cons, flatten_cons, ← append_assoc]
    exact hparts.append_right _
  · have hascend := hs.ascending
    rw [line, h, flatMap_cons] at hascend
    have htrue := flying_perm _ (perm_erase hf) true
    rw [hkind, if_neg (by simp), flying_erase_true hs hf] at htrue
    rw [blocks, hh]
    refine ascend_front hascend ?_ htrue.symm
    have hfalse := flying_perm _ (perm_erase hf) false
    rw [hkind, if_pos rfl] at hfalse
    refine (hparts.append_left _).trans (List.Perm.trans ?_ (hfalse.symm.append_right _))
    rw [← append_assoc]
    exact perm_append_comm.append_right _
  · exact stocked_of_epochs h (fun e hepoch =>
      (hstocked e hepoch).mono (fun _ h => h) (Nat.le_add_right _ _)) hstocked'
  · intro u hu
    rw [hbarriers] at hu
    exact hreturn.2.1 front hfront u hu

lemma requeue_barriers (hkind : flight.barrier = true) :
    Sound L config (landed w token flight ({ lighter w token front with
      barriers := flight.unit.parts.map (fun p => IoUnit.single flight.unit.op p true) ++
        front.barriers } :: rest) w.queue.nextKey) := by
  obtain ⟨keys, hkeys, hnextKey, hloose⟩ := hs.stores.loose
  obtain ⟨hgood, hbarrier, -⟩ := hs.stores.flights token flight hf
  obtain ⟨hsize, hlen, hunits⟩ := hs.row.alone token flight hf hkind
  have hreturn := return_stores hs hf
  have hfront : front ∈ w.queue.epochs := by simp [h]
  have hlooseNil := loose_of_not_hasUnits (hunits front (by simp [h]))
  have he : (w.queue.inFlight.erase token).size = 0 := by
    have := size_erase hf
    omega
  have hstocked := hreturn.1 keys hloose
  have hsingles : ∀ parts : List Part, ((parts.map fun p =>
      IoUnit.single flight.unit.op p true).map IoUnit.parts).flatten = parts := by
    intro parts
    induction parts with
    | nil => rfl
    | cons p parts ih => exact congrArg (p :: ·) ih
  generalize hback : ({ lighter w token front with
    barriers := flight.unit.parts.map (fun p => IoUnit.single flight.unit.op p true) ++
      front.barriers } : Epoch) = back
  have hblocks : blocks back = [] :: ((flight.unit.parts.map fun p =>
      IoUnit.single flight.unit.op p true).map IoUnit.parts ++ held front) := by
    rw [← hback, blocks, held, map_append, ← hlooseNil]
    rfl
  refine land_sound hs hf h (by rw [← hback]; rfl) (fun hr => ?_) ?_ ?_
    (by omega : keys ≤ _) hnextKey ?_ ?_
  · rw [h, hr] at hlen
    simp at hlen
  · rw [hblocks, blocks, hlooseNil, flatten_cons, flatten_cons, flatten_append,
      hsingles, nil_append, nil_append]
  · have hascend := hs.ascending
    have htrue := flying_perm _ (perm_erase hf) true
    rw [hkind, if_pos rfl, flying_erase_true hs hf, append_nil] at htrue
    rw [line, h, flatMap_cons, blocks, hlooseNil] at hascend
    change Ascend _ ((flying w.queue.inFlight false ++ []) :: flying w.queue.inFlight true ::
      (held front ++ rest.flatMap blocks)) at hascend
    rw [ascend_cons, ascend_cons] at hascend
    rw [hblocks, flying_eq_nil he, ascend_board_nil, cons_append, ascend_cons,
      append_assoc, ascend_append]
    refine ⟨⟨ascend_singles (fun p => rfl) hgood.shaped.ordered, hascend.1.1, ?_⟩, before_nil_left⟩
    rw [hsingles]
    exact hascend.1.2.mono htrue.symm.subset (List.Subset.refl _)
  · refine stocked_of_epochs h hstocked ?_
    rw [← hback]
    exact (hstocked front hfront).relabel _ _
  · rw [← hback]
    refine forall_mem_append.mpr ⟨forall_mem_map.mpr fun p hpart => ?_, hreturn.2.1 front hfront⟩
    exact ⟨hgood.single hpart _, (isBarrier_single hgood hpart true).trans (hbarrier.trans hkind)⟩

end

lemma complete_sound {R : Type} {result : R} {completion : Completion R} (hs : Sound L config w)
    (hcomplete : w.queue.complete token result = (.ok completion, queue)) :
    Sound L config { w with queue, answered := w.answered ++ completion.parts } := by
  obtain ⟨front, rest, h⟩ := hs.row.exists_front
  obtain ⟨flight, hf, hparts, rfl⟩ := complete_spec hs h hcomplete
  rw [hparts]
  have hblocks : w.queue.epochs.flatMap blocks =
      blocks (lighter w token front) ++ rest.flatMap blocks := by
    rw [h, flatMap_cons]
    rfl
  have hland : Sound L config { w with
      queue := { w.queue with
        inFlight := w.queue.inFlight.erase token
        epochs := lighter w token front :: rest
        outstanding := flight.unit.parts.foldl (fun ids p => ids.erase p.id) w.queue.outstanding }
      answered := w.answered ++ flight.unit.parts } := by
    refine { hs with
      row := ?_, ascending := ?_, stores := ?_, books := ?_, queued := ?_, depth := ?_ }
    · refine row_land hs hf h rfl rfl rfl rfl ?_
      rintro rfl
      exact (hs.row.bare_of_single h : front.barriers = [])
    · have hascend := hs.ascending
      rw [line, hblocks] at hascend
      change Ascend _ ((flying (w.queue.inFlight.erase token) false ++ front.loose) ::
        flying (w.queue.inFlight.erase token) true :: (held front ++ rest.flatMap blocks))
      change Ascend _ ((flying w.queue.inFlight false ++ front.loose) ::
        flying w.queue.inFlight true :: (held front ++ rest.flatMap blocks)) at hascend
      rw [flying_erase_true hs hf]
      simp only [ascend_cons, flatten_cons, before_append_left, nil_append] at hascend ⊢
      refine ⟨⟨hascend.1.1, before_nil_left⟩, hascend.2.1.mono ?_ ?_, hascend.2.2.mono ?_ ?_⟩
      · exact fun p hpart => (flying_perm _ (perm_erase hf) false).mem_iff.mpr
          (mem_append_right _ hpart)
      · exact subset_append_right _ _
      · exact List.Subset.refl _
      · exact subset_append_right _ _
    · obtain ⟨⟨keys, hkeys, hnextKey, hloose⟩, hh, hflights⟩ := hs.stores
      rw [h] at hh
      exact ⟨⟨keys, hkeys, hnextKey, stocked_of_epochs h hloose
        ((hloose front (by simp [h])).relabel _ _)⟩, forall_mem_cons.mpr
          (forall_mem_cons.mp hh), fun o flight' ho =>
            hflights o flight' (of_get?_erase ho)⟩
    · have hbooks := flatten_land hs hf (by simp [blocks]) hblocks
      exact hbooks.answer rfl rfl rfl
    · change w.queue.queued = _
      rw [hs.queued, hblocks]
      rfl
    · have hsize := size_erase hf
      have hdepth := hs.depth
      change (w.queue.inFlight.erase token).size ≤ _
      omega
  exact retire_sound _ _ _ rfl rfl hland

lemma requeue_spec (hs : Sound L config w)
    (h : w.queue.epochs = front :: rest) (hparts : w.queue.parts token = some parts)
    (hrequeue : w.queue.requeue token = (.ok n, queue)) :
    ∃ flight, w.queue.inFlight.get? token = some flight ∧ flight.unit.parts = parts ∧
      queue = (landed w token flight ((w.queue.putBack flight (lighter w token front)).2 :: rest)
        (w.queue.putBack flight (lighter w token front)).1).queue := by
  rw [Queue.requeue] at hrequeue
  split at hrequeue
  · cases (Prod.mk.inj hrequeue).1
  · rename_i flight taken htake
    obtain ⟨hf, rfl⟩ := takeFlight_some hs h htake
    rw [Queue.parts, hf, Option.map_some, Option.some.injEq] at hparts
    have hi : flight.epoch - w.queue.firstEpoch = 0 := by
      rw [hs.row.oldest _ _ hf]
      exact Nat.sub_self _
    simp only [Queue.epochIndex, hi, List.getElem?_cons_zero, set_cons_zero] at hrequeue
    obtain ⟨-, rfl⟩ := Prod.mk.inj hrequeue
    exact ⟨flight, hf, hparts, rfl⟩

lemma requeue_sound (hs : Sound L config w) (hparts : w.queue.parts token = some parts)
    (hb : w.accepted.length + (w.returned.length + parts.length) ≤ 2 ^ 64)
    (hrequeue : w.queue.requeue token = (.ok n, queue)) :
    Sound L config { w with queue, returned := w.returned ++ parts } := by
  obtain ⟨front, rest, h⟩ := hs.row.exists_front
  obtain ⟨flight, hf, rfl, rfl⟩ := requeue_spec hs h hparts hrequeue
  rw [Queue.putBack]
  cases hkind : flight.barrier with
  | false => exact requeue_units hs hf h hkind hb
  | true => exact requeue_barriers hs hf h hkind

end Ferrix.Block.Landings

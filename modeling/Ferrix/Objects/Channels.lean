import Ferrix.Objects.CycleWalk

/-!
An endpoint queued in another's inbox is kept alive by it.  A send that carries endpoints is
checked by `checkCarry` and made holding the topology lock.
-/

namespace Ferrix.Objects.Channels

open Relation Foundations Reachability SortedSearch CycleWalk Function List

inductive Side where
  | first
  | second
deriving DecidableEq

def Side.other : Side → Side
  | .first => .second
  | .second => .first

structure Endpoint where
  channel : Nat
  side : Side
deriving DecidableEq

def Endpoint.peer (endpoint : Endpoint) : Endpoint := ⟨endpoint.channel, endpoint.side.other⟩

inductive Object where
  | channel (endpoint : Endpoint)
  | vmo
  | job
  | device
  | interrupt
  | ioMapping
  | pin
  | process
  | port
  | starter
  | audit
deriving DecidableEq

structure Message where
  bytes : List UInt8
  handles : List Object
deriving DecidableEq

def endpointsOf (handles : List Object) : List Endpoint :=
  handles.filterMap fun
    | .channel endpoint => some endpoint
    | .vmo | .job | .device | .interrupt | .ioMapping | .pin | .process | .port | .starter
    | .audit => none

def maxBytes : Nat := 64 * 1024

def maxHandles : Nat := 64

def maxQueued : Nat := 256

def maxWalk : Nat := 1024

structure Half where
  inbox : List Message
  closed : Bool
deriving DecidableEq

/-- Who holds the topology lock: a sender whose message was checked, or a reader that took a
message out. -/
inductive Holder where
  | sending (writer : Endpoint) (handles : List Object)
  | reading (reader : Endpoint) (message : Message)
deriving DecidableEq

structure Kernel where
  half : Endpoint → Half
  topology : Option Holder

namespace Kernel

def new : Kernel := ⟨fun _ => ⟨[], false⟩, none⟩

def inbox (kernel : Kernel) (endpoint : Endpoint) : List Message := (kernel.half endpoint).inbox

def setInbox (kernel : Kernel) (endpoint : Endpoint) (inbox : List Message) : Kernel :=
  { kernel with
    half := update kernel.half endpoint { kernel.half endpoint with inbox } }

def queued (kernel : Kernel) (endpoint : Endpoint) : List Endpoint :=
  (kernel.inbox endpoint).flatMap fun message => endpointsOf message.handles

end Kernel

open Kernel

/-- An endpoint is kept alive by the one it is queued in. -/
def Keeps (kernel : Kernel) (holder held : Endpoint) : Prop := held ∈ kernel.queued holder

section

variable (address : Endpoint → Nat)

def collectEnds : List Endpoint → List Nat → List Endpoint → Memory →
    Option (List Endpoint) × Memory
  | [], _, ends, memory => (some ends, memory)
  | queued :: rest, distinct, ends, memory =>
    if ends.length > maxWalk then (some ends, memory)
    else
      match binarySearch distinct (address queued) with
      | .ok _ => collectEnds rest distinct ends memory
      | .error index =>
        match memory.ask with
        | (false, memory) => (none, memory)
        | (true, memory) =>
          match memory.ask with
          | (false, memory) => (none, memory)
          | (true, memory) =>
            collectEnds rest (distinct.insertIdx index (address queued))
              (ends ++ [queued]) memory

def queuedEndpoints (kernel : Kernel) (endpoint : Endpoint) (memory : Memory) :
    Option (List Endpoint) × Memory :=
  collectEnds address (kernel.queued endpoint) [] [] memory

def checkCarry (kernel : Kernel) (writer : Endpoint) (carried : List Endpoint)
    (memory : Memory) : Reach :=
  if (kernel.half writer.peer).closed then .clear
  else
    reaches address (address writer.peer) maxWalk (queuedEndpoints address kernel) carried memory

inductive Status where
  | invalidArgs
  | tooBig
  | noMemory
  | peerClosed
  | shouldWait
  | bufferTooSmall
  | needsTopology
deriving DecidableEq

def reachStatus : Reach → Except Status Unit
  | .clear => .ok ()
  | .found => .error .invalidArgs
  | .tooFar => .error .tooBig
  | .noMemory => .error .noMemory

/-- What `channel_write` asks before it writes a message that carries endpoints. -/
def checkSend (kernel : Kernel) (writer : Endpoint) (handles : List Object) (memory : Memory) :
    Except Status Unit :=
  if writer ∈ endpointsOf handles then .error .invalidArgs
  else reachStatus (checkCarry address kernel writer (endpointsOf handles) memory)

end

def write (kernel : Kernel) (writer : Endpoint) (message : Message) : Except Status Kernel :=
  if (kernel.half writer.peer).closed then .error .peerClosed
  else if message.bytes.length > maxBytes ∨ message.handles.length > maxHandles then
    .error .tooBig
  else if (kernel.inbox writer.peer).length ≥ maxQueued then .error .shouldWait
  else .ok (kernel.setInbox writer.peer (kernel.inbox writer.peer ++ [message]))

def read (kernel : Kernel) (reader : Endpoint) (byteCapacity handleCapacity : Nat)
    (topologyHeld : Bool) : Except Status (Message × Kernel) :=
  match kernel.inbox reader with
  | [] =>
    if (kernel.half reader.peer).closed then .error .peerClosed else .error .shouldWait
  | head :: rest =>
    if head.bytes.length ≤ byteCapacity ∧ head.handles.length ≤ handleCapacity then
      if !topologyHeld ∧ endpointsOf head.handles ≠ [] then .error .needsTopology
      else .ok (head, kernel.setInbox reader rest)
    else .error .bufferTooSmall

def unread (kernel : Kernel) (reader : Endpoint) (message : Message) : Kernel :=
  kernel.setInbox reader (message :: kernel.inbox reader)

def close (kernel : Kernel) (endpoint : Endpoint) : Kernel :=
  { kernel with half := update kernel.half endpoint ⟨[], true⟩ }

/-- What can happen.  Calls that fail, and calls that lose a message they took out, leave fewer
edges or none; a call that is refused changes nothing. -/
inductive Step (address : Endpoint → Nat) (kernel : Kernel) : Kernel → Prop
  | write (writer : Endpoint) (message : Message) (hplain : endpointsOf message.handles = [])
      (hwrite : write kernel writer message = .ok kernel') : Step address kernel kernel'
  | lockToSend (writer : Endpoint) (handles : List Object) (memory : Memory)
      (hfree : kernel.topology = none)
      (hcheck : checkSend address kernel writer handles memory = .ok ()) :
      Step address kernel { kernel with topology := some (.sending writer handles) }
  | send (writer : Endpoint) (message : Message)
      (hheld : kernel.topology = some (.sending writer message.handles))
      (hwrite : Channels.write kernel writer message = .ok kernel') :
      Step address kernel { kernel' with topology := none }
  | abandon (hheld : kernel.topology = some (.sending writer handles)) :
      Step address kernel { kernel with topology := none }
  | read (reader : Endpoint) (byteCapacity handleCapacity : Nat)
      (hread : read kernel reader byteCapacity handleCapacity false = .ok (message, kernel')) :
      Step address kernel kernel'
  | unread (reader : Endpoint) (message : Message) (hplain : endpointsOf message.handles = []) :
      Step address kernel (unread kernel reader message)
  | lockToRead (reader : Endpoint) (byteCapacity handleCapacity : Nat)
      (hfree : kernel.topology = none)
      (hread : Channels.read kernel reader byteCapacity handleCapacity true =
        .ok (message, kernel')) :
      Step address kernel { kernel' with topology := some (.reading reader message) }
  | deliver (hheld : kernel.topology = some (.reading reader message)) :
      Step address kernel { kernel with topology := none }
  | putBack (hheld : kernel.topology = some (.reading reader message)) :
      Step address kernel { Channels.unread kernel reader message with topology := none }
  | close (endpoint : Endpoint) : Step address kernel (close kernel endpoint)

variable {address : Endpoint → Nat} {kernel : Kernel}

lemma collectEnds_spec {list ends result : List Endpoint} {distinct : List Nat} {m m' : Memory}
    (hsorted : distinct.Pairwise (· < ·)) (hdistinct : distinct.Perm (ends.map address))
    (hcollect : collectEnds address list distinct ends m = (some result, m')) :
    result.Nodup ∧ ends ⊆ result ∧ result ⊆ ends ++ list ∧
      (list.map address ⊆ result.map address ∨ maxWalk < result.length) := by
  have hnodup : ends.Nodup :=
    (hdistinct.nodup_iff.mp (hsorted.imp fun hlt => ne_of_lt hlt)).of_map _
  induction list generalizing distinct ends m with
  | nil =>
    obtain ⟨hresult, -⟩ := Prod.mk.inj hcollect
    obtain rfl := Option.some.inj hresult
    exact ⟨hnodup, List.Subset.refl _, by simp, .inl (nil_subset _)⟩
  | cons queued r ih =>
    rw [collectEnds] at hcollect
    split at hcollect
    · rename_i hfull
      obtain ⟨hresult, -⟩ := Prod.mk.inj hcollect
      obtain rfl := Option.some.inj hresult
      exact ⟨hnodup, List.Subset.refl _, subset_append_left _ _, .inr hfull⟩
    split at hcollect
    · rename_i i hfound
      obtain ⟨hnodup', hends, hresult, hall⟩ := ih hsorted hdistinct hcollect hnodup
      refine ⟨hnodup', hends, fun e he => ?_, ?_⟩
      · rcases mem_append.mp (hresult he) with he | he
        · exact mem_append_left _ he
        · exact mem_append_right _ (.tail _ he)
      · rcases hall with hall | hlong
        · refine .inl (cons_subset.mpr ⟨?_, hall⟩)
          have hm := mem_of_getElem? (mem_of_binarySearch_ok hfound)
          exact map_subset _ hends (hdistinct.mem_iff.mp hm)
        · exact .inr hlong
    · rename_i i hmissing
      obtain ⟨hnot, hperm, hsorted'⟩ := of_binarySearch_error hsorted hmissing
      split at hcollect
      · cases hcollect
      split at hcollect
      · cases hcollect
      have hdistinct' : (distinct.insertIdx i (address queued)).Perm
          ((ends ++ [queued]).map address) := by
        rw [map_append]
        exact (hperm.trans (hdistinct.cons _)).trans (perm_append_singleton _ _).symm
      obtain ⟨hnodup', hends, hresult, hall⟩ := ih hsorted' hdistinct' hcollect
        ((hdistinct'.nodup_iff.mp (hsorted'.imp fun hlt => ne_of_lt hlt)).of_map _)
      refine ⟨hnodup', fun e he => hends (mem_append_left _ he), ?_, ?_⟩
      · rwa [append_assoc] at hresult
      · rcases hall with hall | hlong
        · refine .inl (cons_subset.mpr ⟨?_, hall⟩)
          exact mem_map_of_mem (hends (mem_append_right _ mem_cons_self))
        · exact .inr hlong

/-- `queued_endpoints` lists what the walk may use: all the endpoints queued, or more than it
may admit. -/
theorem lists_queuedEndpoints (haddress : Injective address) (kernel : Kernel) :
    Lists kernel.queued maxWalk (queuedEndpoints address kernel) := by
  intro endpoint m n m' hn
  obtain ⟨hnodup, -, hsub, hall⟩ := collectEnds_spec .nil (.refl _) hn
  refine ⟨hsub, hall.imp (fun hall e he => ?_) fun hlong => ⟨hnodup, hlong⟩⟩
  obtain ⟨e', he', heq⟩ := mem_map.mp (hall (mem_map_of_mem he))
  exact haddress heq ▸ he'

lemma not_reachable_of_clear (haddress : Injective address) {writer : Endpoint}
    {carried : List Endpoint} {m : Memory}
    (hclear : checkCarry address kernel writer carried m = .clear) :
    (kernel.half writer.peer).closed = true ∨
      ∀ endpoint ∈ carried, ¬ ReflTransGen (Keeps kernel) endpoint writer.peer := by
  rw [checkCarry] at hclear
  split_ifs at hclear with hclosed
  · exact .inl hclosed
  · refine .inr fun endpoint hendpoint hpath => ?_
    have hright := (reachesWalk_spec haddress (lists_queuedEndpoints haddress kernel)
      (address writer.peer) carried m).1
    rw [reaches] at hclear
    rw [hclear] at hright
    exact hright writer.peer ⟨endpoint, hendpoint, hpath⟩ rfl

variable {kernel' : Kernel} {writer reader endpoint a : Endpoint} {message : Message}
  {list : List Message}

lemma queued_setInbox : (kernel.setInbox endpoint list).queued a =
      if a = endpoint then list.flatMap fun message => endpointsOf message.handles
      else kernel.queued a := by
  rcases eq_or_ne a endpoint with rfl | hne
  · simp [queued, inbox, setInbox]
  · simp [queued, inbox, setInbox, hne]

lemma closed_setInbox :
    ((kernel.setInbox endpoint list).half a).closed = (kernel.half a).closed := by
  rcases eq_or_ne a endpoint with rfl | hne
  · simp [setInbox]
  · simp [setInbox, hne]

lemma write_eq (hwrite : write kernel writer message = .ok kernel') :
    (kernel.half writer.peer).closed = false ∧
      kernel' = kernel.setInbox writer.peer (kernel.inbox writer.peer ++ [message]) := by
  rw [write] at hwrite
  split_ifs at hwrite with hclosed hbig hfull
  exact ⟨by simpa using hclosed, (Except.ok.inj hwrite).symm⟩

lemma read_eq {byteCapacity handleCapacity : Nat} {topologyHeld : Bool}
    (hread : read kernel reader byteCapacity handleCapacity topologyHeld = .ok (message, kernel')) :
    ∃ r, kernel.inbox reader = message :: r ∧ kernel' = kernel.setInbox reader r := by
  rw [read] at hread
  split at hread
  · split_ifs at hread
  · rename_i head r hinbox
    split_ifs at hread
    obtain ⟨rfl, rfl⟩ := Prod.mk.inj (Except.ok.inj hread)
    exact ⟨r, hinbox, rfl⟩

/-- The edges of the graph with those of a message that was taken out and may be put back. -/
def KeepsOrMay (kernel : Kernel) (holder held : Endpoint) : Prop :=
  match kernel.topology with
  | some (.reading reader message) =>
    addEdges (Keeps kernel) reader {e | e ∈ endpointsOf message.handles} holder held
  | _ => Keeps kernel holder held

structure Safe (kernel : Kernel) : Prop where
  acyclic : Acyclic (KeepsOrMay kernel)
  clear : ∀ writer handles, kernel.topology = some (.sending writer handles) →
    (kernel.half writer.peer).closed = true ∨
      ∀ endpoint ∈ endpointsOf handles, ¬ ReflTransGen (Keeps kernel) endpoint writer.peer

lemma keepsOrMay_of_not_reading
    (hnot : ∀ reader message, kernel.topology ≠ some (.reading reader message)) :
    KeepsOrMay kernel = Keeps kernel := by
  funext holder held
  rw [KeepsOrMay]
  split
  · rename_i reader message hh
    exact absurd hh (hnot reader message)
  · rfl

lemma KeepsOrMay.of_keeps {b : Endpoint} (hkeeps : Keeps kernel a b) : KeepsOrMay kernel a b := by
  rw [KeepsOrMay]
  split
  · exact .inl hkeeps
  · exact hkeeps

lemma Safe.acyclic_keeps (hsafe : Safe kernel) : Acyclic (Keeps kernel) :=
  hsafe.acyclic.mono fun _ _ => .of_keeps

lemma Safe.shrink (hsafe : Safe kernel) (htopology : kernel'.topology = kernel.topology)
    (hkeeps : ∀ a b, Keeps kernel' a b → Keeps kernel a b)
    (hclosed : ∀ a, (kernel.half a).closed = true → (kernel'.half a).closed = true) :
    Safe kernel' := by
  constructor
  · refine hsafe.acyclic.mono fun a b hab => ?_
    rw [KeepsOrMay, htopology] at hab
    rw [KeepsOrMay]
    split at hab
    · exact hab.imp_left (hkeeps a b)
    · exact hkeeps a b hab
  · intro writer handles hh
    rw [htopology] at hh
    refine (hsafe.clear writer handles hh).imp (hclosed _) fun hclear e he hpath => ?_
    exact hclear e he (hpath.lift id hkeeps)

lemma Keeps.of_setInbox {b : Endpoint}
    (hsub : (list.flatMap fun message => endpointsOf message.handles) ⊆ kernel.queued endpoint)
    (hab : Keeps (kernel.setInbox endpoint list) a b) : Keeps kernel a b := by
  rw [Keeps, queued_setInbox] at hab
  split_ifs at hab with heq
  · exact heq ▸ hsub hab
  · exact hab

lemma Safe.setInbox (hsafe : Safe kernel)
    (hsub : (list.flatMap fun message => endpointsOf message.handles) ⊆ kernel.queued endpoint) :
    Safe (kernel.setInbox endpoint list) :=
  hsafe.shrink rfl (fun _ _ => .of_setInbox hsub) fun _ hclosed => closed_setInbox.trans hclosed

lemma Safe.hold (hacyclic : Acyclic (Keeps kernel)) {topology : Option Holder}
    (hnot : ∀ reader message, topology ≠ some (.reading reader message))
    (hclear : ∀ writer handles, topology = some (.sending writer handles) →
      (kernel.half writer.peer).closed = true ∨
        ∀ endpoint ∈ endpointsOf handles, ¬ ReflTransGen (Keeps kernel) endpoint writer.peer) :
    Safe { kernel with topology } := by
  constructor
  · rw [keepsOrMay_of_not_reading hnot]
    exact hacyclic
  · exact hclear

lemma Step.safe (haddress : Injective address) (hs : Step address kernel kernel')
    (hsafe : Safe kernel) : Safe kernel' := by
  cases hs with
  | write writer message hplain hwrite =>
    obtain ⟨-, rfl⟩ := write_eq hwrite
    exact hsafe.setInbox (by simp [hplain, queued])
  | lockToSend writer handles m hf hcheck =>
    refine Safe.hold hsafe.acyclic_keeps nofun fun writer' handles' hh => ?_
    obtain ⟨rfl, rfl⟩ : writer = writer' ∧ handles = handles' := by
      simpa using hh
    rw [checkSend] at hcheck
    split_ifs at hcheck
    have hclear : checkCarry address kernel writer (endpointsOf handles) m = .clear := by
      revert hcheck
      cases checkCarry address kernel writer (endpointsOf handles) m <;>
        simp [reachStatus]
    exact not_reachable_of_clear haddress hclear
  | @send kernel'' writer message hh hwrite =>
    obtain ⟨hopen, rfl⟩ := write_eq hwrite
    have hclear := (hsafe.clear writer message.handles hh).resolve_left (by simp [hopen])
    refine Safe.hold ?_ nofun nofun
    have hadded : Acyclic (addEdges (Keeps kernel) writer.peer
        {e | e ∈ endpointsOf message.handles}) :=
      hsafe.acyclic_keeps.addEdges hclear
    refine hadded.mono fun a b hab => ?_
    rw [Keeps, queued_setInbox] at hab
    split_ifs at hab with heq
    · rw [flatMap_append, mem_append] at hab
      subst heq
      exact hab.imp_right fun hb => ⟨rfl, by simpa using hb⟩
    · exact .inl hab
  | abandon hh => exact Safe.hold hsafe.acyclic_keeps nofun nofun
  | read reader byteCapacity handleCapacity hread =>
    obtain ⟨r, hinbox, rfl⟩ := read_eq hread
    exact hsafe.setInbox (by simp [queued, hinbox])
  | unread reader message hplain =>
    exact hsafe.setInbox (by simp [hplain, queued])
  | @lockToRead message kernel'' reader byteCapacity handleCapacity hf hread =>
    obtain ⟨r, hinbox, rfl⟩ := read_eq hread
    refine ⟨hsafe.acyclic_keeps.mono fun a b hab => ?_, nofun⟩
    rcases hab with hab | ⟨rfl, hb⟩
    · exact .of_setInbox (by simp [queued, hinbox]) hab
    · rw [Keeps, queued, hinbox]
      exact mem_append_left _ hb
  | deliver hh => exact Safe.hold hsafe.acyclic_keeps nofun nofun
  | @putBack reader message hh =>
    refine Safe.hold ?_ nofun nofun
    refine hsafe.acyclic.mono fun a b hab => ?_
    rw [KeepsOrMay, hh]
    rw [Keeps, Channels.unread, queued_setInbox] at hab
    split_ifs at hab with heq
    · subst heq
      rcases mem_append.mp hab with hb | hb
      · exact .inr ⟨rfl, hb⟩
      · exact .inl hb
    · exact .inl hab
  | close endpoint =>
    refine hsafe.shrink rfl (fun a b hab => ?_) fun a hclosed => ?_
    · rcases eq_or_ne a endpoint with rfl | hne
      · simp [Keeps, queued, inbox, Channels.close] at hab
      · simpa [Keeps, queued, inbox, Channels.close, hne] using hab
    · rcases eq_or_ne a endpoint with rfl | hne
      · simp [Channels.close]
      · simpa [Channels.close, hne] using hclosed

lemma safe_new : Safe Kernel.new := by
  have hacyclic : Acyclic (Keeps new) := by
    intro n hcycle
    obtain ⟨m, hedge, -⟩ := TransGen.head'_iff.mp hcycle
    exact absurd hedge not_mem_nil
  have hsafe : Safe { new with topology := none } := Safe.hold hacyclic nofun nofun
  exact hsafe

lemma run_safe (haddress : Injective address)
    (hrun : ReflTransGen (Step address) new kernel) : Safe kernel := by
  induction hrun with
  | refl => exact safe_new
  | tail _ hs ih => exact hs.safe haddress ih

/-- No run of sends, receives and closes makes endpoints keep each other alive, and the walk
that each send asks answers rightly for every graph. -/
theorem no_endpoint_keeps_itself : (∀ address : Endpoint → Nat, Injective address → ∀ kernel,
      ReflTransGen (Step address) Kernel.new kernel → Acyclic (Keeps kernel)) ∧
    ∀ (N : Type) (identity : N → Nat) (target limit : Nat) (graph : N → List N)
      (children : N → Memory → Option (List N) × Memory), Injective identity →
      Lists graph limit children → ∀ (start : List N) (memory : Memory),
        Right identity target limit graph start
          (reaches identity target limit children start memory) ∧
        Bounded limit (reachesWalk identity target limit children start memory).2.1 := by
  constructor
  · intro address haddress kernel hrun
    exact (run_safe haddress hrun).acyclic_keeps
  · intro N identity target limit graph children hidentity hlists start memory
    exact reachesWalk_spec hidentity hlists target start memory

def sideAddress (endpoint : Endpoint) : Nat :=
  2 * endpoint.channel + if endpoint.side = .first then 0 else 1

lemma sideAddress_injective : Injective sideAddress := by
  rintro ⟨channel, side⟩ ⟨channel', side'⟩ heq
  cases side <;> cases side' <;> simp [sideAddress] at heq ⊢ <;> omega

/-- One endpoint sent through a channel; sending that channel's reading end through the
endpoint's peer would close a cycle and is refused. -/
theorem no_endpoint_keeps_itself_sent :
    (∃ kernel, kernel.queued ⟨0, .second⟩ = [⟨1, .first⟩] ∧ Acyclic (Keeps kernel) ∧
      checkSend sideAddress kernel ⟨1, .second⟩ [.channel ⟨0, .second⟩] ⟨fun _ => true, 0⟩ =
        .error .invalidArgs) ∧ Right id 2 8 (fun n => [n + 1, n + 1]) [0]
      (reaches id 2 8 (fun n memory => (some [n + 1, n + 1], memory)) [0] ⟨fun _ => true, 0⟩) := by
  have hsend : ReflTransGen (Step sideAddress) Kernel.new _ :=
    (ReflTransGen.single (.lockToSend ⟨0, .first⟩ [.channel ⟨1, .first⟩] ⟨fun _ => true, 0⟩ rfl
      rfl)).tail (.send ⟨0, .first⟩ ⟨[], [.channel ⟨1, .first⟩]⟩ rfl rfl)
  refine ⟨⟨_, rfl, no_endpoint_keeps_itself.1 sideAddress sideAddress_injective _ hsend, rfl⟩, ?_⟩
  exact (no_endpoint_keeps_itself.2 Nat id 2 8 _ _ injective_id
    (fun _ _ _ _ hnext => by simp_all) [0] _).1

end Ferrix.Objects.Channels

import Ferrix.Foundations.SortedMaps

/-!
The TCP sockets of the table: binding, listening, connecting, and the connections made for
requests.  A refused call changes nothing and is no step.
-/

namespace Ferrix.Sockets.TcpTable

open Relation Foundations SortedMaps SortedMap

inductive Family where
  | V4
  | V6
deriving DecidableEq

inductive IpAddress where
  | V4 (bits : BitVec 32)
  | V6 (bits : BitVec 128)
deriving DecidableEq

def IpAddress.isUnspecified (address : IpAddress) : Bool := address = .V4 0 || address = .V6 0

def IpAddress.isV4 : IpAddress → Bool
  | .V4 _ => true
  | .V6 _ => false

def unspecified : Family → IpAddress
  | .V4 => .V4 0
  | .V6 => .V6 0

structure Endpoint where
  address : IpAddress
  port : BitVec 16
deriving DecidableEq

structure Options where
  v6Only : Bool := false
  reuseAddress : Bool := false

/-- `Socket::Listen`, listening once its backlog is not zero, or `Socket::Stream`. -/
inductive Kind where
  | listen (backlog : Nat)
  | stream (remote : Endpoint)
deriving DecidableEq

structure Socket where
  kind : Kind
  family : Family
  options : Options
  here : Endpoint

def Socket.isListening (socket : Socket) : Bool :=
  match socket.kind with
  | .listen backlog => 0 < backlog
  | .stream _ => false

abbrev Table : Type := SortedMap Nat Socket

def Endpoint.overlaps (a b : Endpoint) : Bool :=
  a.port = b.port &&
    (a.address.isUnspecified || b.address.isUnspecified || a.address = b.address)

def checkBindAddress (owned : IpAddress → Bool) (family : Family) (address : IpAddress) : Bool :=
  address.isUnspecified || ((address.isV4 || family = .V6) && owned address)

def Table.holds (table : Table) (id : Nat) (family : Family) (endpoint : Endpoint)
    (holds : Socket → Bool) : Bool :=
  table.entries.any fun (other, socket) =>
    other ≠ id && socket.family = family && socket.here.overlaps endpoint && holds socket

def Table.portTaken (table : Table) (id : Nat) (this : Socket) (endpoint : Endpoint) : Bool :=
  table.holds id this.family endpoint fun socket =>
    socket.isListening || !(this.options.reuseAddress && socket.options.reuseAddress)

def Table.listenerOn (table : Table) (id : Nat) (this : Socket) : Bool :=
  table.holds id this.family this.here Socket.isListening

def Table.chooses (table : Table) (id : Nat) (this : Socket) (port : BitVec 16) : Bool :=
  32768 ≤ port && port ≤ 60999 && !table.portTaken id this ⟨unspecified this.family, port⟩

def Socket.takes (socket : Socket) (here remote : Endpoint) : Bool :=
  socket.kind = .stream remote && socket.here.port = here.port &&
    (socket.here.address = here.address || socket.here.address.isUnspecified)

def Table.findStreamSocket (table : Table) (here remote : Endpoint) : Option Nat :=
  (table.entries.find? fun entry => entry.2.takes here remote).map Prod.fst

def Socket.hears (socket : Socket) (here : Endpoint) : Bool :=
  socket.isListening && socket.here.port = here.port &&
    (match socket.family, here.address with
      | .V4, .V4 _ | .V6, .V6 _ => true
      | .V6, .V4 _ => !socket.options.v6Only
      | .V4, .V6 _ => false) &&
    (socket.here.address.isUnspecified || socket.here.address = here.address)

def Table.findListener (table : Table) (here : Endpoint) : Option (Nat × Socket) :=
  table.entries.foldl (fun best entry =>
    if entry.2.hears here && best.all fun held =>
        held.2.here.address.isUnspecified && !entry.2.here.address.isUnspecified
      then some entry else best) none

/-- A call with what it is given; `source` is the host's address towards the remote end, and a
request is a segment from `remote` to `here`. -/
inductive Call where
  | openTcp (id : Nat) (family : Family)
  | setOptions (id : Nat) (options : Options)
  | bind (id : Nat) (requested : Endpoint)
  | listen (id backlog : Nat)
  | connect (id : Nat) (remote : Endpoint) (source : IpAddress)
  | request (here remote : Endpoint)
  | remove (id : Nat)

inductive Step (table : Table) : Call → Table → Prop
  | openTcp (id : Nat) (family : Family) (h : table.get? id = none) :
      Step table (.openTcp id family)
        (table.insert id ⟨.listen 0, family, {}, ⟨unspecified family, 0⟩⟩)
  | setOptions (id : Nat) (this : Socket) (options : Options) (h : table.get? id = some this) :
      Step table (.setOptions id options) (table.insert id { this with options })
  | bind (id : Nat) (this : Socket) (requested : Endpoint) (port : BitVec 16) (backlog : Nat)
      (owned : IpAddress → Bool) (h : table.get? id = some this)
      (hkind : this.kind = .listen backlog) (hnew : this.here.port = 0)
      (haddress : checkBindAddress owned this.family requested.address)
      (hport : if requested.port = 0 then table.chooses id this port
        else port = requested.port ∧ table.portTaken id this requested = false) :
      Step table (.bind id requested)
        (table.insert id { this with here := ⟨requested.address, port⟩ })
  | listen (id : Nat) (this : Socket) (port : BitVec 16) (before backlog : Nat)
      (h : table.get? id = some this) (hkind : this.kind = .listen before)
      (hport : if this.here.port = 0 then table.chooses id this port
        else port = this.here.port ∧ (this.isListening ∨ table.listenerOn id this = false)) :
      Step table (.listen id backlog) (table.insert id { this with
        kind := .listen (max backlog 1)
        here := ⟨this.here.address, port⟩ })
  /-- The interface's addresses of the other family are passed over for `source`. -/
  | connect (id : Nat) (this : Socket) (remote : Endpoint) (source : IpAddress) (port : BitVec 16)
      (h : table.get? id = some this) (hkind : this.kind = .listen 0)
      (hsource : source.isV4 = remote.address.isV4)
      (hport : if this.here.port = 0 then table.chooses id this port else port = this.here.port) :
      Step table (.connect id remote source) (table.insert id { this with
        kind := .stream remote
        here := ⟨if this.here.address.isUnspecified then source else this.here.address, port⟩ })
  /-- A request no connection takes, for a listener with room. -/
  | request (id : Nat) (here remote : Endpoint) (listener : Nat × Socket)
      (h : table.get? id = none) (hfind : table.findStreamSocket here remote = none)
      (hlistener : table.findListener here = some listener) :
      Step table (.request here remote)
        (table.insert id ⟨.stream remote, listener.2.family, listener.2.options, here⟩)
  | remove (id : Nat) : Step table (.remove id) (table.erase id)

def Next (table table' : Table) : Prop := ∃ call, Step table call table'

/-- Whether `SO_REUSEADDR` on both sides is what lets the socket have the endpoint. -/
def Table.shares (table : Table) (id : Nat) (this : Socket) (endpoint : Endpoint) : Bool :=
  table.holds id this.family endpoint fun socket =>
    this.options.reuseAddress && socket.options.reuseAddress

def Socket.speaks (socket : Socket) (address : IpAddress) : Bool :=
  address.isV4 = decide (socket.family = .V4)

/-- No bind shares an endpoint through `SO_REUSEADDR`, and a socket the stack chooses a port for is
without it; no V6 socket is given a V4 address; the host has no unspecified address. -/
def Orderly (table : Table) : Call → Prop
  | .openTcp .. | .setOptions .. | .remove _ => True
  | .bind id requested => ∀ this, table.get? id = some this → this.speaks requested.address ∧
      if requested.port = 0 then this.options.reuseAddress = false
      else table.shares id this requested = false
  | .listen id _ => ∀ this, table.get? id = some this → this.here.port = 0 →
      this.options.reuseAddress = false
  | .connect id remote source => source.isUnspecified = false ∧
      ∀ this, table.get? id = some this → this.speaks remote.address ∧
        (this.here.port = 0 → this.options.reuseAddress = false)
  | .request here _ => here.address.isUnspecified = false ∧
      ∀ listener, table.findListener here = some listener → listener.2.speaks here.address

def OrderlyNext (table table' : Table) : Prop := ∃ call, Step table call table' ∧ Orderly table call

variable {table : Table} {id other : Nat} {this socket : Socket}

lemma overlaps_comm (a b : Endpoint) : a.overlaps b = b.overlaps a := by
  grind [Endpoint.overlaps]

lemma not_holds {family : Family} {endpoint : Endpoint} {p : Socket → Bool}
    (h : table.holds id family endpoint p = false) (hg : table.get? other = some socket)
    (hne : other ≠ id) (hfamily : socket.family = family)
    (hoverlaps : socket.here.overlaps endpoint) : p socket = false := by
  rw [Table.holds, List.any_eq_false] at h
  have := h _ (get?_eq_some.mp hg)
  grind

lemma find_eq_none {here remote : Endpoint} (h : table.findStreamSocket here remote = none)
    (hg : table.get? other = some socket) : socket.takes here remote = false := by
  rw [Table.findStreamSocket, Option.map_eq_none_iff, List.find?_eq_none] at h
  simpa using h _ (get?_eq_some.mp hg)

lemma findListener_hears {here : Endpoint} {listener : Nat × Socket}
    (h : table.findListener here = some listener) :
    table.get? listener.1 = some listener.2 ∧ listener.2.hears here := by
  -- The fold answers an entry it met that hears, or what it began with.
  have hfold : ∀ (entries : List (Nat × Socket)) (best : Option (Nat × Socket)),
      entries.foldl (fun best entry =>
        if entry.2.hears here && best.all fun held =>
            held.2.here.address.isUnspecified && !entry.2.here.address.isUnspecified
          then some entry else best) best = some listener →
        (listener ∈ entries ∧ listener.2.hears here) ∨ best = some listener := by
    intro entries
    induction entries with
    | nil => exact fun best heq => .inr heq
    | cons entry entries ih =>
      intro best heq
      rcases ih _ heq with ⟨hmem, hhears⟩ | hbest
      · exact .inl ⟨List.mem_cons_of_mem _ hmem, hhears⟩
      · dsimp only at hbest
        split_ifs at hbest with hbetter
        · cases hbest
          exact .inl ⟨List.mem_cons_self, (Bool.and_eq_true_iff.mp hbetter).1⟩
        · exact .inr hbest
  rcases hfold _ _ h with ⟨hmem, hhears⟩ | hnone
  · exact ⟨get?_eq_some.mpr hmem, hhears⟩
  · cases hnone

lemma overlaps_of_hears {here endpoint : Endpoint} (hhears : this.hears here)
    (hoverlaps : here.overlaps endpoint) (hspecified : here.address.isUnspecified = false) :
    this.here.overlaps endpoint := by
  grind [Socket.hears, Endpoint.overlaps]

lemma chooses_ne_zero {port : BitVec 16} (h : table.chooses id this port) : port ≠ 0 := by
  rintro rfl
  simp [Table.chooses] at h

lemma chooses_quiet {port : BitVec 16} (h : table.chooses id this port)
    (hg : table.get? other = some socket) (hne : other ≠ id) (hfamily : socket.family = this.family)
    (hport : socket.here.port = port) : socket.isListening = false := by
  have hany : (unspecified this.family).isUnspecified := by cases this.family <;> rfl
  rw [Table.chooses, Bool.and_eq_true, Bool.not_eq_true'] at h
  have hheld := not_holds h.2 hg hne hfamily (by simp [Endpoint.overlaps, hport, hany])
  exact (Bool.or_eq_false_iff.mp hheld).1

lemma free_of_portTaken {endpoint : Endpoint} (htaken : table.portTaken id this endpoint = false)
    (hshares : table.shares id this endpoint = false) (hg : table.get? other = some socket)
    (hne : other ≠ id) (hfamily : socket.family = this.family) :
    socket.here.overlaps endpoint = false := by
  rw [← Bool.not_eq_true]
  intro hoverlaps
  have htaken' := not_holds htaken hg hne hfamily hoverlaps
  have hshares' := not_holds hshares hg hne hfamily hoverlaps
  simp [hshares'] at htaken'

lemma chooses_free {port : BitVec 16} (h : table.chooses id this port)
    (hreuse : this.options.reuseAddress = false) (hg : table.get? other = some socket)
    (hne : other ≠ id) (hfamily : socket.family = this.family) : socket.here.port ≠ port := by
  intro hport
  have hany : (unspecified this.family).isUnspecified := by cases this.family <;> rfl
  rw [Table.chooses, Bool.and_eq_true, Bool.not_eq_true'] at h
  have hunshared : table.shares id this ⟨unspecified this.family, port⟩ = false := by
    simp [Table.shares, Table.holds, hreuse]
  have hfree := free_of_portTaken h.2 hunshared hg hne hfamily
  simp [Endpoint.overlaps, hport, hany] at hfree

variable {table' : Table} {call : Call}

def Socket.ListensApart (a b : Socket) : Prop :=
  a.isListening → b.isListening → a.family = b.family → a.here.overlaps b.here = false

structure Heard (table : Table) : Prop where
  bound : ∀ i a, table.get? i = some a → a.kind ≠ .listen 0 → a.here.port ≠ 0
  listeners : table.AnyTwo Socket.ListensApart

lemma Heard.empty : Heard ∅ := ⟨by simp, anyTwo_empty _⟩

lemma Heard.insert (h : Heard table) (hbound : this.kind ≠ .listen 0 → this.here.port ≠ 0)
    (hnew : ∀ ⦃other socket⦄, table.get? other = some socket → other ≠ id →
      this.ListensApart socket) : Heard (table.insert id this) where
  bound i a ha hkind := by
    rcases of_get?_insert ha with ⟨-, rfl⟩ | ha
    · exact hbound hkind
    · exact h.bound i a ha hkind
  listeners := by
    refine anyTwo_insert (fun a b hapart hb ha hfamily => ?_) h.listeners hnew
    rw [overlaps_comm]
    exact hapart ha hb hfamily.symm

lemma Heard.step (h : Heard table) (hs : Step table call table') : Heard table' := by
  cases hs with
  | openTcp id family hfresh =>
    exact h.insert (absurd rfl) fun _ _ _ _ hlistens => by cases hlistens
  | setOptions id this options hg =>
    refine h.insert (h.bound id this hg) fun other socket hother hne => ?_
    exact (h.listeners hg hother hne.symm : this.ListensApart socket)
  | bind id this requested port backlog owned hg hkind hnew haddress hport =>
    -- A socket with no port is not listening, and bind does not make it.
    have hnever : this.kind = .listen 0 := by
      by_contra hkind'
      exact h.bound id this hg hkind' hnew
    refine h.insert (absurd hnever) fun other socket hother hne hlistens => ?_
    simp [Socket.isListening, hnever] at hlistens
  | listen id this port before backlog hg hkind hport =>
    refine h.insert (fun _ => ?_) fun other socket hother hne _ hlistens hfamily => ?_
    · split_ifs at hport with hnew
      · exact chooses_ne_zero hport
      · exact hport.1 ▸ hnew
    · rw [← Bool.not_eq_true]
      intro hoverlaps
      rw [overlaps_comm] at hoverlaps
      split_ifs at hport with hnew
      · have hsame : socket.here.port = port := by grind [Endpoint.overlaps]
        simp [chooses_quiet hport hother hne hfamily.symm hsame] at hlistens
      · obtain ⟨rfl, halready | hnone⟩ := hport
        · have := h.listeners hother hg hne hlistens halready hfamily.symm
          exact absurd hoverlaps (by simp [this])
        · have := not_holds hnone hother hne hfamily.symm hoverlaps
          simp [this] at hlistens
  | connect id this remote source port hg hkind hsource hport =>
    refine h.insert (fun _ => ?_) fun _ _ _ _ hlistens => by cases hlistens
    split_ifs at hport with hnew
    · exact chooses_ne_zero hport
    · exact hport ▸ hnew
  | request id here remote listener hfresh hfind hlistener =>
    obtain ⟨hg, hhears⟩ := findListener_hears hlistener
    refine h.insert (fun _ => ?_) fun _ _ _ _ hlistens => by cases hlistens
    have hport : listener.2.here.port ≠ 0 := by
      refine h.bound _ _ hg fun hkind => ?_
      simp [Socket.hears, Socket.isListening, hkind] at hhears
    grind [Socket.hears]
  | remove id => exact ⟨fun i a ha => h.bound i a (of_get?_erase ha), anyTwo_erase h.listeners⟩

lemma Heard.run (hrun : ReflTransGen Next ∅ table) : Heard table := by
  induction hrun with
  | refl => exact Heard.empty
  | tail _ hnext ih =>
    obtain ⟨call, hstep⟩ := hnext
    exact ih.step hstep

/-- Whether two sockets of a family may be on overlapping endpoints: a connection beside its
listener, and connections to different remote ends. -/
def Kind.mayMeet : Kind → Kind → Bool
  | .stream a, .stream b => a ≠ b
  | .stream _, .listen backlog | .listen backlog, .stream _ => 0 < backlog
  | .listen _, .listen _ => false

lemma mayMeet_comm (a b : Kind) : a.mayMeet b = b.mayMeet a := by
  cases a <;> cases b <;> simp [Kind.mayMeet, eq_comm]

def Socket.Apart (a b : Socket) : Prop :=
  a.family = b.family → a.here.port ≠ 0 → a.here.overlaps b.here → a.kind.mayMeet b.kind

structure Kept (table : Table) : Prop where
  speaks : ∀ i a, table.get? i = some a → a.speaks a.here.address
  specified : ∀ i a remote, table.get? i = some a → a.kind = .stream remote →
    a.here.address.isUnspecified = false
  apart : table.AnyTwo Socket.Apart

lemma Kept.insert (h : Kept table) (hspeaks : this.speaks this.here.address)
    (hspecified : ∀ remote, this.kind = .stream remote → this.here.address.isUnspecified = false)
    (hnew : ∀ ⦃other socket⦄, table.get? other = some socket → other ≠ id → this.Apart socket) :
    Kept (table.insert id this) where
  speaks i a ha := by
    rcases of_get?_insert ha with ⟨-, rfl⟩ | ha
    · exact hspeaks
    · exact h.speaks i a ha
  specified i a remote ha hkind := by
    rcases of_get?_insert ha with ⟨-, rfl⟩ | ha
    · exact hspecified remote hkind
    · exact h.specified i a remote ha hkind
  apart := by
    refine anyTwo_insert (fun a b hapart hfamily hport hoverlaps => ?_) h.apart hnew
    have hsame : b.here.port = a.here.port := by grind [Endpoint.overlaps]
    rw [mayMeet_comm]
    exact hapart hfamily.symm (hsame ▸ hport) (overlaps_comm .. ▸ hoverlaps)

lemma apart_of_free {a b : Socket} (hfree : b.family = a.family → b.here.overlaps a.here = false) :
    a.Apart b := by
  intro hfamily _ hoverlaps
  rw [overlaps_comm, hfree hfamily.symm] at hoverlaps
  cases hoverlaps

lemma apart_of_port {a b : Socket} (hfree : b.family = a.family → b.here.port ≠ a.here.port) :
    a.Apart b := by
  refine apart_of_free fun hfamily => ?_
  simp [Endpoint.overlaps, hfree hfamily]

lemma Kept.bind {requested : Endpoint} {port : BitVec 16} (h : Kept table)
    (hg : table.get? id = some this) {backlog : Nat} (hkind : this.kind = .listen backlog)
    (hport : if requested.port = 0 then table.chooses id this port
      else port = requested.port ∧ table.portTaken id this requested = false)
    (horder : Orderly table (.bind id requested)) :
    Kept (table.insert id { this with here := ⟨requested.address, port⟩ }) := by
  obtain ⟨hspeaks, hunshared⟩ := horder this hg
  refine h.insert hspeaks (fun _ hstream => ?_) fun other socket hother hne => ?_
  · rw [hkind] at hstream
    cases hstream
  split_ifs at hport hunshared with hchosen
  · exact apart_of_port fun hfamily => chooses_free hport hunshared hother hne hfamily
  · obtain ⟨rfl, htaken⟩ := hport
    exact apart_of_free fun hfamily => free_of_portTaken htaken hunshared hother hne hfamily

lemma Kept.listen {port : BitVec 16} {before backlog : Nat} (h : Kept table)
    (hg : table.get? id = some this) (hkind : this.kind = .listen before)
    (hport : if this.here.port = 0 then table.chooses id this port
      else port = this.here.port ∧ (this.isListening ∨ table.listenerOn id this = false))
    (horder : Orderly table (.listen id backlog)) : Kept (table.insert id { this with
      kind := .listen (max backlog 1)
      here := ⟨this.here.address, port⟩ }) := by
  refine h.insert (h.speaks id this hg) nofun fun other socket hother hne => ?_
  split_ifs at hport with hnew
  · exact apart_of_port fun hfamily =>
      chooses_free hport (horder this hg hnew) hother hne hfamily
  · obtain ⟨rfl, -⟩ := hport
    intro hfamily hbound hoverlaps
    have hmeets := h.apart hg hother hne.symm hfamily hbound hoverlaps
    rw [hkind] at hmeets
    cases hsocket : socket.kind with
    | listen => simp [Kind.mayMeet, hsocket] at hmeets
    | stream => simp [Kind.mayMeet]

lemma Kept.connect {remote : Endpoint} {source : IpAddress} {port : BitVec 16} (h : Kept table)
    (hg : table.get? id = some this) (hkind : this.kind = .listen 0)
    (hsource : source.isV4 = remote.address.isV4)
    (hport : if this.here.port = 0 then table.chooses id this port else port = this.here.port)
    (horder : Orderly table (.connect id remote source)) : Kept (table.insert id { this with
      kind := .stream remote
      here := ⟨if this.here.address.isUnspecified then source else this.here.address, port⟩ }) := by
  obtain ⟨hspecified, hthis⟩ := horder
  obtain ⟨hremote, hreuse⟩ := hthis this hg
  refine h.insert ?_ (fun _ _ => ?_) fun other socket hother hne => ?_
  · have := h.speaks id this hg
    dsimp only
    split_ifs
    · rwa [Socket.speaks, hsource]
    · exact this
  · dsimp only
    split_ifs with hany
    · exact hspecified
    · simpa using hany
  split_ifs at hport with hnew
  · exact apart_of_port fun hfamily => chooses_free hport (hreuse hnew) hother hne hfamily
  · subst hport
    refine apart_of_free fun hfamily => ?_
    rw [← Bool.not_eq_true]
    intro hoverlaps
    -- What overlaps the connection's own address overlaps what the socket was bound to.
    have hbound : this.here.overlaps socket.here := by grind [Endpoint.overlaps]
    have hmeets := h.apart hg hother hne.symm hfamily.symm hnew hbound
    rw [hkind] at hmeets
    cases hsocket : socket.kind <;> simp [Kind.mayMeet, hsocket] at hmeets

lemma Kept.request {here remote : Endpoint} {listener : Nat × Socket} (h : Kept table)
    (hheard : Heard table) (hfind : table.findStreamSocket here remote = none)
    (hlistener : table.findListener here = some listener)
    (horder : Orderly table (.request here remote)) :
    Kept (table.insert id ⟨.stream remote, listener.2.family, listener.2.options, here⟩) := by
  obtain ⟨hspecified, hspeaks⟩ := horder
  obtain ⟨hg, hhears⟩ := findListener_hears hlistener
  refine h.insert (hspeaks _ hlistener) (fun _ _ => hspecified) ?_
  intro other socket hother hne hfamily _ hoverlaps
  cases hsocket : socket.kind with
  | stream remote' =>
    suffices hne : remote ≠ remote' by simpa [Kind.mayMeet] using hne
    rintro rfl
    have hunspecified := h.specified other socket remote hother hsocket
    have htakes := find_eq_none hfind hother
    grind [Socket.takes, Endpoint.overlaps]
  | listen backlog =>
    -- The listener that took the request is the only one of its family bound here.
    have hsame : other = listener.1 := by
      by_contra hother'
      have hbound : listener.2.here.port ≠ 0 := by
        refine hheard.bound _ _ hg fun hkind => ?_
        simp [Socket.hears, Socket.isListening, hkind] at hhears
      have hmeets := h.apart hg hother (Ne.symm hother') hfamily hbound
        (overlaps_of_hears hhears hoverlaps hspecified)
      cases hkind : listener.2.kind with
      | listen => simp [Kind.mayMeet, hkind, hsocket] at hmeets
      | stream => simp [Socket.hears, Socket.isListening, hkind] at hhears
    obtain rfl : socket = listener.2 := Option.some.inj (hother.symm.trans (hsame ▸ hg))
    simp only [Socket.hears, Socket.isListening, hsocket] at hhears
    grind [Kind.mayMeet]

lemma Kept.step (h : Kept table) (hheard : Heard table) (hs : Step table call table')
    (horder : Orderly table call) : Kept table' := by
  cases hs with
  | openTcp id family hfresh =>
    refine h.insert ?_ nofun fun other socket hother hne hfamily hport => absurd rfl hport
    cases family <;> rfl
  | setOptions id this options hg =>
    refine h.insert (h.speaks id this hg) (fun remote => h.specified id this remote hg)
      fun other socket hother hne => ?_
    exact (h.apart hg hother hne.symm : this.Apart socket)
  | bind id this requested port backlog owned hg hkind hnew haddress hport =>
    exact h.bind hg hkind hport horder
  | listen id this port before backlog hg hkind hport => exact h.listen hg hkind hport horder
  | connect id this remote source port hg hkind hsource hport =>
    exact h.connect hg hkind hsource hport horder
  | request id here remote listener hfresh hfind hlistener =>
    exact h.request hheard hfind hlistener horder
  | remove id => exact ⟨fun i a ha => h.speaks i a (of_get?_erase ha),
      fun i a remote ha => h.specified i a remote (of_get?_erase ha), anyTwo_erase h.apart⟩

lemma Kept.run (hrun : ReflTransGen OrderlyNext ∅ table) : Heard table ∧ Kept table := by
  induction hrun with
  | refl => exact ⟨Heard.empty, by simp, by simp, anyTwo_empty _⟩
  | tail _ hnext ih =>
    obtain ⟨call, hstep, horder⟩ := hnext
    exact ⟨ih.1.step hstep, ih.2.step ih.1 hstep horder⟩

lemma family_eq_of_speaks {a b : Socket} {address : IpAddress} (ha : a.speaks address)
    (hb : b.speaks address) : a.family = b.family := by
  rw [Socket.speaks, decide_eq_true_eq] at ha hb
  have hsame := ha.symm.trans hb
  cases hfamily : a.family <;> cases hfamily' : b.family <;> simp [hfamily, hfamily'] at hsame ⊢

lemma Kept.takes_unique (h : Kept table) (hheard : Heard table) {here remote : Endpoint}
    {i j : Nat} {a b : Socket} (ha : table.get? i = some a) (htakes : a.takes here remote)
    (hb : table.get? j = some b) (htakes' : b.takes here remote) : j = i := by
  simp only [Socket.takes, Bool.and_eq_true, decide_eq_true_eq] at htakes htakes'
  obtain ⟨⟨hkind, hport⟩, haddress⟩ := htakes
  obtain ⟨⟨hkind', hport'⟩, haddress'⟩ := htakes'
  rw [h.specified i a remote ha hkind] at haddress
  rw [h.specified j b remote hb hkind'] at haddress'
  by_contra hne
  have hsame : a.here.address = b.here.address := by grind
  have hfamily := family_eq_of_speaks (h.speaks i a ha) (hsame ▸ h.speaks j b hb)
  have hbound : a.here.port ≠ 0 := hheard.bound i a ha (by simp [hkind])
  have hoverlaps : a.here.overlaps b.here := by grind [Endpoint.overlaps]
  have hmeets := h.apart ha hb (Ne.symm hne) hfamily hbound hoverlaps
  simp [Kind.mayMeet, hkind, hkind'] at hmeets

/-- In an orderly run no two connections take segments of one pair, so each segment goes to the one
that has its pair; in any run no two listeners of a family overlap. -/
theorem segments_have_one_connection (table : Table) :
    (ReflTransGen OrderlyNext ∅ table → ∀ here remote i a, table.get? i = some a →
      a.takes here remote → table.findStreamSocket here remote = some i ∧
        ∀ j b, table.get? j = some b → b.takes here remote → j = i) ∧
    (ReflTransGen Next ∅ table → ∀ i j a b, table.get? i = some a →
      table.get? j = some b → a.isListening → b.isListening → a.family = b.family →
        a.here.overlaps b.here → i = j) := by
  refine ⟨fun hrun here remote i a ha htakes => ?_,
    fun hrun i j a b ha hb hlistens hlistens' hfamily hoverlaps => ?_⟩
  · obtain ⟨hheard, hkept⟩ := Kept.run hrun
    have hunique : ∀ j b, table.get? j = some b → b.takes here remote → j = i :=
      fun j b hb => hkept.takes_unique hheard ha htakes hb
    refine ⟨?_, hunique⟩
    cases hfind : table.findStreamSocket here remote with
    | none => simp [find_eq_none hfind ha] at htakes
    | some j =>
      obtain ⟨⟨j, b⟩, hb, rfl⟩ := Option.map_eq_some_iff.mp hfind
      have hmem := get?_eq_some.mpr (List.mem_of_find?_eq_some hb)
      have hfound := List.find?_some hb
      rw [hunique j b hmem hfound]
  · by_contra hne
    have hapart := (Heard.run hrun).listeners ha hb hne hlistens hlistens' hfamily
    simp [hapart] at hoverlaps

/-- A run leads to two sockets that take segments of one pair, the second of the family given; it
has `SO_REUSEADDR` if that is V4. -/
def Shared (family : Family) : Prop := ∃ (table : Table) (here remote : Endpoint),
  ReflTransGen Next ∅ table ∧ ∃ i j a b, i ≠ j ∧ table.get? i = some a ∧ a.takes here remote ∧
    table.get? j = some b ∧ b.takes here remote ∧ b.family = family ∧
      b.options.reuseAddress = (family = .V4)

lemma shared_of_family (family : Family) : Shared family := by
  have h : ReflTransGen Next ∅ _ := .refl
  replace h := h.tail ⟨_, .openTcp 1 .V4 rfl⟩
  replace h := h.tail ⟨_, .openTcp 2 family rfl⟩
  replace h := h.tail ⟨_, .setOptions 1 _ ⟨false, family = .V4⟩ rfl⟩
  replace h := h.tail ⟨_, .setOptions 2 _ ⟨false, family = .V4⟩ rfl⟩
  replace h := h.tail ⟨_, .bind 1 _ ⟨.V4 1, 80⟩ 80 0 (fun _ => true) rfl rfl rfl rfl
    (by cases family <;> decide)⟩
  replace h := h.tail ⟨_, .bind 2 _ ⟨.V4 1, 80⟩ 80 0 (fun _ => true) rfl rfl rfl rfl
    (by cases family <;> decide)⟩
  replace h := h.tail ⟨_, .connect 1 _ ⟨.V4 2, 99⟩ (.V4 1) 80 rfl rfl rfl rfl⟩
  replace h := h.tail ⟨_, .connect 2 _ ⟨.V4 2, 99⟩ (.V4 1) 80 rfl rfl rfl rfl⟩
  exact ⟨_, ⟨.V4 1, 80⟩, ⟨.V4 2, 99⟩, h, 1, 2, _, _, by decide, rfl, rfl, rfl, rfl, rfl, by simp⟩

/-- Two sockets bound to one endpoint connect to one remote endpoint: both of V4 with
`SO_REUSEADDR`, or without it one of V4 and one of V6. -/
theorem reused_endpoint_shared : Shared .V4 ∧ Shared .V6 :=
  ⟨shared_of_family .V4, shared_of_family .V6⟩

/-- A listener takes a request, and another socket connects to the same remote end. -/
theorem segments_have_one_connection_requested : ∃ table : Table, ReflTransGen OrderlyNext ∅ table ∧
      table.findStreamSocket ⟨.V4 1, 80⟩ ⟨.V4 2, 99⟩ = some 2 ∧
      table.findStreamSocket ⟨.V4 1, 81⟩ ⟨.V4 2, 99⟩ = some 3 := by
  have h : ReflTransGen OrderlyNext ∅ _ := .refl
  replace h := h.tail ⟨_, .openTcp 1 .V4 rfl, trivial⟩
  replace h := h.tail ⟨_, .setOptions 1 _ ⟨false, true⟩ rfl, trivial⟩
  replace h := h.tail ⟨_, .bind 1 _ ⟨.V4 1, 80⟩ 80 0 (fun _ => true) rfl rfl rfl rfl (by decide),
    by rintro _ ⟨⟩; decide⟩
  replace h := h.tail ⟨_, .listen 1 _ 80 0 5 rfl rfl (by decide), by rintro _ ⟨⟩; decide⟩
  replace h := h.tail ⟨_, .request 2 ⟨.V4 1, 80⟩ ⟨.V4 2, 99⟩ _ rfl rfl rfl, rfl,
    by rintro _ ⟨⟩; decide⟩
  replace h := h.tail ⟨_, .openTcp 3 .V4 rfl, trivial⟩
  replace h := h.tail ⟨_, .bind 3 _ ⟨.V4 0, 81⟩ 81 0 (fun _ => true) rfl rfl rfl rfl (by decide),
    by rintro _ ⟨⟩; decide⟩
  replace h := h.tail ⟨_, .connect 3 _ ⟨.V4 2, 99⟩ (.V4 1) 81 rfl rfl rfl (by decide), rfl,
    by rintro _ ⟨⟩; decide⟩
  have hone := (segments_have_one_connection _).1 h
  exact ⟨_, h, (hone _ _ 2 _ rfl rfl).1, (hone _ _ 3 _ rfl rfl).1⟩

end Ferrix.Sockets.TcpTable

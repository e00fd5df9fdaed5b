import Mathlib.Tactic

/-!
`connect_stream` and `accept` of Unix sockets, one lock a step.  A channel is named by the socket
that receives from it.
-/

namespace Ferrix.Sockets.Connections

open Relation Function List Option

inductive Errno where
  | EISCONN
  | EINVAL
  | ECONNREFUSED
  | EAGAIN
  | EINTR
  | ERESTARTSYS
  | ENOMEM

/-- The lock a `connect_stream` takes next; from `queue` on with the server end it made. -/
inductive Stage where
  | send
  | listener
  | credentials
  | make
  | queue (server : Nat)
  | wireServer (server : Nat)
  | wireSelf (server : Nat)

/-- Where a thread is: in a `connect` call, or out of it with the answer of its last one. -/
inductive Place where
  | out (answer : Except Errno Unit)
  | connect (self target : Nat) (stage : Stage)

/-- The first `made` sockets exist.  `limit` and `ends (some listener)` are a listener's backlog,
`ends none` what `accept` returned.  `client` says whose `connect` made a server end, `connected`
which sockets a `connect` succeeded for. -/
structure State where
  made : Nat
  send : Nat → Option Nat
  listened : Nat → Bool
  limit : Nat → Option Nat
  ends : Option Nat → List Nat
  client : Nat → Option Nat
  connected : List Nat
  place : Nat → Place

def new : State :=
  ⟨0, fun _ => none, fun _ => false, fun _ => none, fun _ => [], fun _ => none, [],
    fun _ => .out (.ok ())⟩

namespace State

variable (s : State) (t self target server : Nat)

def goto (p : Place) : State := { s with place := update s.place t p }

def Held : Prop := self < s.made ∧ (s.client self = none ∨ self ∈ s.ends none)

def check : Stage → Option (Except Errno Stage)
  | .send => some (if s.send self = none then .ok .listener else .error .EISCONN)
  | .listener => some (if s.limit self = none then .ok .credentials else .error .EINVAL)
  | .credentials => some (if s.listened target then .ok .make else .error .ECONNREFUSED)
  | .queue _ => if s.limit target = none then some (.error .ECONNREFUSED) else none
  | _ => none

def make : State :=
  { s.goto t (.connect self target (.queue s.made)) with
    made := s.made + 1
    client := update s.client s.made (some self) }

def queue : State :=
  { s.goto t (.connect self target (.wireServer server)) with
    ends := update s.ends (some target) (s.ends (some target) ++ [server]) }

def wireServer : State :=
  { s.goto t (.connect self target (.wireSelf server)) with
    send := update s.send server (some self) }

def wireSelf : State :=
  { s.goto t (.out (.ok ())) with
    send := update s.send self (some server)
    connected := self :: s.connected }

def accept (rest : List Nat) : State :=
  { s.goto t (.out (.ok ())) with
    ends := update (update s.ends (some self) rest) none (server :: s.ends none) }

/-- No memory for the open file: the server end taken off the backlog is dropped. -/
def lose (rest : List Nat) : State :=
  { s.goto t (.out (.error .ENOMEM)) with ends := update s.ends (some self) rest }

end State

def waitErrors : List Errno := [.EAGAIN, .EINTR, .ERESTARTSYS]

inductive Act where
  | socket
  | listen (self : Nat)
  | connect (self : Nat)
  | goOn
  | accept (self : Nat)
  | lose (self : Nat)
  | refused

/-- One lock taken by thread `t`, in `connect_stream` by `goOn`; `accept` takes the listener's once,
and opens the file on what it took without another. -/
inductive Step (s : State) (t : Nat) : Act → State → Prop
  | socket : Step s t .socket { s with made := s.made + 1 }
  | listen (self limit : Nat) (hself : s.Held self) : Step s t (.listen self) { s with
      listened := update s.listened self true
      limit := update s.limit self (some limit) }
  | connect (self target : Nat) (answer : Except Errno Unit) (h : s.place t = .out answer)
      (hself : s.Held self) (hne : self ≠ target) :
      Step s t (.connect self) (s.goto t (.connect self target .send))
  | pass (self target : Nat) (stage next : Stage) (h : s.place t = .connect self target stage)
      (hcheck : s.check self target stage = some (.ok next)) :
      Step s t .goOn (s.goto t (.connect self target next))
  | refuse (self target : Nat) (stage : Stage) (error : Errno)
      (h : s.place t = .connect self target stage)
      (hcheck : s.check self target stage = some (.error error)) :
      Step s t .goOn (s.goto t (.out (.error error)))
  | make (self target : Nat) (h : s.place t = .connect self target .make) :
      Step s t .goOn (s.make t self target)
  | noMemory (self target : Nat) (h : s.place t = .connect self target .make) :
      Step s t .goOn (s.goto t (.out (.error .ENOMEM)))
  | queue (self target server limit : Nat)
      (h : s.place t = .connect self target (.queue server)) (hlimit : s.limit target = some limit)
      (hroom : (s.ends (some target)).length < limit) :
      Step s t .goOn (s.queue t self target server)
  /-- No room: the server end is dropped, and another made after a wait, if the call waits. -/
  | full (self target server limit : Nat) (next : Place)
      (h : s.place t = .connect self target (.queue server)) (hlimit : s.limit target = some limit)
      (hfull : limit ≤ (s.ends (some target)).length)
      (hnext : next = .connect self target .make ∨
        ∃ error ∈ waitErrors, next = .out (.error error)) :
      Step s t .goOn (s.goto t next)
  | wireServer (self target server : Nat)
      (h : s.place t = .connect self target (.wireServer server)) :
      Step s t .goOn (s.wireServer t self target server)
  | wireSelf (self target server : Nat)
      (h : s.place t = .connect self target (.wireSelf server)) :
      Step s t .goOn (s.wireSelf t self server)
  | accept (self server : Nat) (rest : List Nat) (answer : Except Errno Unit)
      (h : s.place t = .out answer) (hwaiting : s.ends (some self) = server :: rest) :
      Step s t (.accept self) (s.accept t self server rest)
  | lose (self server : Nat) (rest : List Nat) (answer : Except Errno Unit)
      (h : s.place t = .out answer) (hwaiting : s.ends (some self) = server :: rest) :
      Step s t (.lose self) (s.lose t self rest)
  | refused (self : Nat) (error : Errno) (answer : Except Errno Unit) (h : s.place t = .out answer)
      (herror : if s.limit self = none then error = .EINVAL
        else s.ends (some self) = [] ∧ error ∈ waitErrors) :
      Step s t .refused (s.goto t (.out (.error error)))

/-- How the calls are scheduled: no two connects of one socket overlap, nothing is accepted from a
listener while a connect to it is between queueing its server end and wiring it, and an accept that
took a server end has memory for its file. -/
def State.Orderly (s : State) : Act → Prop
  | .connect self => ∀ t target stage, s.place t ≠ .connect self target stage
  | .accept self => ∀ t client server, s.place t ≠ .connect client self (.wireServer server)
  | .lose _ => False
  | .socket | .listen _ | .goOn | .refused => True

def Next (s s' : State) : Prop := ∃ t act, Step s t act s'

def OrderlyNext (s s' : State) : Prop := ∃ t act, Step s t act s' ∧ s.Orderly act

variable {s s' : State} {t self target server : Nat} {act : Act}

/-- What a connect has made sure of when it comes to a stage. -/
def State.Busy (s : State) (self target : Nat) : Stage → Prop
  | .send => True
  | .listener | .credentials | .make => s.send self = none
  | .queue server => s.send self = none ∧ server < s.made ∧ s.client server = some self ∧
      s.send server = none ∧ ∀ home, server ∉ s.ends home
  | .wireServer server => s.send self = none ∧ s.client server = some self ∧
      s.send server = none ∧ server ∈ s.ends (some target)
  | .wireSelf server => s.send self = none ∧ s.client server = some self ∧
      s.send server = some self ∧ ∃ home, server ∈ s.ends home

/-- A server end and its client are wired, or a connect is about to: while the server end itself is
not, it is still where that connect queued it. -/
def State.Settled (s : State) (home : Option Nat) (server client : Nat) : Prop :=
  (s.send server = some client ∧ (s.send client = some server ∨
    ∃ t target, s.place t = .connect client target (.wireSelf server))) ∨
  (s.send server = none ∧
    ∃ t target, home = some target ∧ s.place t = .connect client target (.wireServer server))

structure Inv (s : State) : Prop where
  fresh : ∀ i, s.made ≤ i → s.send i = none ∧ s.client i = none
  nodup : ∀ home, (s.ends home).Nodup
  apart : ∀ home home' server, server ∈ s.ends home → server ∈ s.ends home' → home = home'
  clients : ∀ server client, s.client server = some client → s.Held client
  alone : ∀ t t' self target target' stage stage', s.place t = .connect self target stage →
    s.place t' = .connect self target' stage' → t = t'
  busy : ∀ t self target stage, s.place t = .connect self target stage →
    s.Held self ∧ s.Busy self target stage
  owned : ∀ home, ∀ server ∈ s.ends home, ∃ client, s.client server = some client ∧
    s.Settled home server client
  connected : ∀ client ∈ s.connected, ∃ server home, s.send client = some server ∧
    s.client server = some client ∧ server ∈ s.ends home
  once : s.connected.Nodup

lemma inv_new : Inv new where
  fresh := fun _ _ => ⟨rfl, rfl⟩
  nodup := fun _ => nodup_nil
  apart := by simp [new]
  clients := nofun
  alone := by simp [new]
  busy := by simp [new]
  owned := by simp [new]
  connected := by simp [new]
  once := nodup_nil

structure Keeps (s s' : State) (client : Nat) : Prop where
  made : s.made ≤ s'.made
  send : s'.send client = s.send client
  server : ∀ server, s.client server = some client → s'.client server = some client ∧
    s'.send server = s.send server ∧ ∀ home, server ∈ s'.ends home ↔ server ∈ s.ends home

lemma State.Busy.of_keeps {stage : Stage} (hkeeps : Keeps s s' self)
    (h : s.Busy self target stage) : s'.Busy self target stage := by
  obtain ⟨hmade, hself, hserver⟩ := hkeeps
  cases stage with
  | send => trivial
  | listener | credentials | make => exact hself.trans h
  | queue server =>
    obtain ⟨hsend, hlt, hclient, hnone, hout⟩ := h
    obtain ⟨hclient', hsame, hmem⟩ := hserver server hclient
    exact ⟨hself.trans hsend, hlt.trans_le hmade, hclient', hsame.trans hnone,
      fun home hin => hout home ((hmem home).mp hin)⟩
  | wireServer server =>
    obtain ⟨hsend, hclient, hnone, hin⟩ := h
    obtain ⟨hclient', hsame, hmem⟩ := hserver server hclient
    exact ⟨hself.trans hsend, hclient', hsame.trans hnone, (hmem _).mpr hin⟩
  | wireSelf server =>
    obtain ⟨hsend, hclient, hsome, home, hin⟩ := h
    obtain ⟨hclient', hsame, hmem⟩ := hserver server hclient
    exact ⟨hself.trans hsend, hclient', hsame.trans hsome, home, (hmem home).mpr hin⟩

lemma State.Settled.of_keeps {home : Option Nat} {client : Nat} (hkeeps : Keeps s s' client)
    (hclient : s.client server = some client)
    (hplace : ∀ u target stage, s.place u = .connect client target stage →
      stage = .wireServer server ∨ stage = .wireSelf server → s'.place u = s.place u)
    (h : s.Settled home server client) : s'.Settled home server client := by
  obtain ⟨-, hsame, -⟩ := hkeeps.server server hclient
  rcases h with ⟨hserver, hwired | ⟨u, target, hu⟩⟩ | ⟨hserver, u, target, hhome, hu⟩
  · exact .inl ⟨hsame.trans hserver, .inl (hkeeps.send.trans hwired)⟩
  · exact .inl ⟨hsame.trans hserver, .inr ⟨u, target, (hplace u target _ hu (.inr rfl)).trans hu⟩⟩
  · exact .inr ⟨hsame.trans hserver, u, target, hhome,
      (hplace u target _ hu (.inl rfl)).trans hu⟩

section

variable (hinv : Inv s)
include hinv

lemma Inv.lt_made {client : Nat} (hclient : s.client server = some client) :
    server < s.made := by
  refine not_le.mp fun hmade => ?_
  rw [(hinv.fresh server hmade).2] at hclient
  cases hclient

lemma Inv.not_mem_of_held (hheld : s.Held self) (hsend : s.send self = none)
    (home : Option Nat) : self ∉ s.ends home := by
  intro hmem
  obtain ⟨client, hclient, hsettled⟩ := hinv.owned home self hmem
  rcases hheld.2 with hnone | haccepted
  · rw [hnone] at hclient
    cases hclient
  · obtain rfl := hinv.apart home none self hmem haccepted
    rcases hsettled with ⟨hsome, -⟩ | ⟨-, _, _, hhome, -⟩
    · rw [hsend] at hsome
      cases hsome
    · cases hhome

lemma Inv.stage_of_mem {stage : Stage} {home : Option Nat}
    (h : s.place t = .connect self target stage) (hsend : s.send self = none)
    (hmem : server ∈ s.ends home) (hclient : s.client server = some self) :
    stage = .wireServer server ∨ stage = .wireSelf server := by
  obtain ⟨client, hclient', hsettled⟩ := hinv.owned home server hmem
  obtain rfl : client = self := some.inj (hclient'.symm.trans hclient)
  rcases hsettled with ⟨-, hwired | ⟨u, _, hu⟩⟩ | ⟨-, u, _, -, hu⟩
  · rw [hsend] at hwired
    cases hwired
  · rw [hinv.alone u t _ _ _ _ _ hu h, h] at hu
    cases hu
    exact .inr rfl
  · rw [hinv.alone u t _ _ _ _ _ hu h, h] at hu
    cases hu
    exact .inl rfl

lemma Inv.alone_update {p : Place} (hp : ∀ self target stage, p = .connect self target stage →
      ∀ u target' stage', s.place u = .connect self target' stage' → u = t)
    (u u' self target target' : Nat) (stage stage' : Stage)
    (hu : update s.place t p u = .connect self target stage)
    (hu' : update s.place t p u' = .connect self target' stage') : u = u' := by
  rw [update_apply] at hu hu'
  split_ifs at hu hu' with ht ht' ht'
  · exact ht.trans ht'.symm
  · exact ht.trans (hp _ _ _ hu _ _ _ hu').symm
  · exact (hp _ _ _ hu' _ _ _ hu).trans ht'.symm
  · exact hinv.alone u u' _ _ _ _ _ hu hu'

/-- A thread at no wiring stage goes to a place whose stage, if it is one, it has earned. -/
theorem Inv.goto {p : Place}
    (hold : ∀ self target server, s.place t ≠ .connect self target (.wireServer server) ∧
      s.place t ≠ .connect self target (.wireSelf server))
    (hnew : ∀ self target stage, p = .connect self target stage → s.Held self ∧
      s.Busy self target stage ∧ ∀ u target stage, s.place u = .connect self target stage → u = t) :
    Inv (s.goto t p) := by
  have hkeeps : ∀ client, Keeps s (s.goto t p) client :=
    fun client => ⟨le_rfl, rfl, fun server hserver => ⟨hserver, rfl, fun _ => Iff.rfl⟩⟩
  have hplace : ∀ u, u ≠ t → (s.goto t p).place u = s.place u := fun u hne => update_of_ne hne ..
  have hthere : (s.goto t p).place t = p := update_self ..
  refine { hinv with
    alone := hinv.alone_update fun self target stage hp => (hnew self target stage hp).2.2
    busy := ?_
    owned := ?_ }
  · intro u self target stage hu
    by_cases ht : u = t
    · subst ht
      rw [hthere] at hu
      obtain ⟨hheld, hbusy, -⟩ := hnew _ _ _ hu
      exact ⟨hheld, hbusy.of_keeps (hkeeps self)⟩
    · rw [hplace u ht] at hu
      obtain ⟨hheld, hbusy⟩ := hinv.busy u _ _ _ hu
      exact ⟨hheld, hbusy.of_keeps (hkeeps self)⟩
  · intro home server hmem
    obtain ⟨client, hclient, hsettled⟩ := hinv.owned home server hmem
    refine ⟨client, hclient,
      hsettled.of_keeps (hkeeps client) hclient fun u target stage hu hw => ?_⟩
    refine hplace u ?_
    rintro rfl
    rcases hw with rfl | rfl
    · exact (hold _ _ _).1 hu
    · exact (hold _ _ _).2 hu

/-- A connect of `self` takes a step that no other connection sees: what is left to show is about
its own. -/
theorem Inv.advance {stage : Stage} {p : Place} (h : s.place t = .connect self target stage)
    (hplace : s'.place = update s.place t p) (hheld : ∀ other, s.Held other → s'.Held other)
    (hkeeps : ∀ client, s.Held client → client ≠ self → Keeps s s' client)
    (hclients : ∀ server client, s'.client server = some client →
      client = self ∨ s.client server = some client)
    (hfresh : ∀ i, s'.made ≤ i → s'.send i = none ∧ s'.client i = none)
    (hnodup : ∀ home, (s'.ends home).Nodup)
    (hapart : ∀ home home' server, server ∈ s'.ends home → server ∈ s'.ends home' → home = home')
    (hbusy : ∀ self' target' stage', p = .connect self' target' stage' →
      self' = self ∧ s'.Busy self target' stage')
    (howned : ∀ home, ∀ server ∈ s'.ends home,
      s'.client server = some self ∧ s'.Settled home server self ∨
        ∃ client ≠ self, s.client server = some client ∧ server ∈ s.ends home)
    (hconnected : ∀ client ∈ s'.connected, client ≠ self ∧ client ∈ s.connected ∨
      ∃ server home, s'.send client = some server ∧ s'.client server = some client ∧
        server ∈ s'.ends home)
    (honce : s'.connected.Nodup) : Inv s' := by
  have hother : ∀ u, u ≠ t → s'.place u = s.place u := fun u hne => by rw [hplace, update_of_ne hne]
  have hthere : s'.place t = p := by rw [hplace, update_self]
  have hself : s'.Held self := hheld _ (hinv.busy t _ _ _ h).1
  refine ⟨hfresh, hnodup, hapart, ?_, ?_, ?_, ?_, ?_, honce⟩
  · intro server client hclient
    rcases hclients server client hclient with rfl | hbefore
    · exact hself
    · exact hheld _ (hinv.clients server client hbefore)
  · rw [hplace]
    refine hinv.alone_update fun self' target' stage' hp u _ _ hu => ?_
    obtain ⟨rfl, -⟩ := hbusy _ _ _ hp
    exact hinv.alone u t _ _ _ _ _ hu h
  · intro u client target stage hu
    by_cases ht : u = t
    · subst ht
      rw [hthere] at hu
      obtain ⟨rfl, hnext⟩ := hbusy _ _ _ hu
      exact ⟨hself, hnext⟩
    · rw [hother u ht] at hu
      obtain ⟨hhas, hearned⟩ := hinv.busy u _ _ _ hu
      have hne : client ≠ self := by
        rintro rfl
        exact ht (hinv.alone u t _ _ _ _ _ hu h)
      exact ⟨hheld _ hhas, hearned.of_keeps (hkeeps client hhas hne)⟩
  · intro home server hmem
    rcases howned home server hmem with ⟨hclient, hsettled⟩ | ⟨client, hne, hclient, hmem'⟩
    · exact ⟨self, hclient, hsettled⟩
    · obtain ⟨client', hclient', hsettled⟩ := hinv.owned home server hmem'
      obtain rfl : client' = client := some.inj (hclient'.symm.trans hclient)
      have hkept := hkeeps client' (hinv.clients server client' hclient) hne
      refine ⟨client', (hkept.server server hclient).1,
        hsettled.of_keeps hkept hclient fun u target stage hu _ => hother u ?_⟩
      rintro rfl
      rw [h] at hu
      cases hu
      exact hne rfl
  · intro client hclient
    rcases hconnected client hclient with ⟨hne, hbefore⟩ | hnow
    · obtain ⟨server, home, hsend, hserver, hmem⟩ := hinv.connected client hbefore
      have hkept := hkeeps client (hinv.clients server client hserver) hne
      obtain ⟨hserver', -, hmem'⟩ := hkept.server server hserver
      exact ⟨server, home, hkept.send.trans hsend, hserver', (hmem' home).mpr hmem⟩
    · exact hnow

lemma Inv.make (h : s.place t = .connect self target .make) : Inv (s.make t self target) := by
  obtain ⟨hheld, hsend⟩ := hinv.busy t _ _ _ h
  have hclient : ∀ server client, s.client server = some client →
      (s.make t self target).client server = some client := by
    intro server client hserver
    exact (update_of_ne (hinv.lt_made hserver).ne ..).trans hserver
  have hkeeps : ∀ client, Keeps s (s.make t self target) client := fun client =>
    ⟨Nat.le_succ _, rfl, fun server hserver => ⟨hclient _ _ hserver, rfl, fun _ => Iff.rfl⟩⟩
  have hout : ∀ home, s.made ∉ s.ends home := by
    intro home hmem
    obtain ⟨client, hserver, -⟩ := hinv.owned home _ hmem
    exact absurd (hinv.lt_made hserver) (lt_irrefl _)
  refine hinv.advance h rfl ?_ (fun client _ _ => hkeeps client) ?_ ?_ hinv.nodup hinv.apart ?_ ?_
    ?_ hinv.once
  · rintro other ⟨hmade, hnone | haccepted⟩
    · exact ⟨Nat.lt_succ_of_lt hmade, .inl ((update_of_ne hmade.ne ..).trans hnone)⟩
    · exact ⟨Nat.lt_succ_of_lt hmade, .inr haccepted⟩
  · intro server client hserver
    change update s.client s.made (some self) server = some client at hserver
    rw [update_apply] at hserver
    split_ifs at hserver
    · exact .inl (some.inj hserver).symm
    · exact .inr hserver
  · intro i hi
    obtain ⟨hsend', hclient'⟩ := hinv.fresh i (Nat.le_of_succ_le hi)
    exact ⟨hsend', (update_of_ne (Nat.lt_of_succ_le hi).ne' ..).trans hclient'⟩
  · rintro _ _ _ ⟨⟩
    exact ⟨rfl, hsend, Nat.lt_succ_self _, update_self .., (hinv.fresh _ le_rfl).1, hout⟩
  · intro home server hmem
    obtain ⟨client, hserver, hsettled⟩ := hinv.owned home server hmem
    by_cases hne : client = self
    · subst hne
      refine .inl ⟨hclient _ _ hserver, hsettled.of_keeps (hkeeps client) hserver ?_⟩
      intro u target' stage hu hstage
      refine update_of_ne ?_ ..
      rintro rfl
      rw [h] at hu
      cases hu
      simp at hstage
    · exact .inr ⟨client, hne, hserver, hmem⟩
  · intro client hmem
    obtain ⟨server, home, hsend', hserver, hin⟩ := hinv.connected client hmem
    exact .inr ⟨server, home, hsend', hclient _ _ hserver, hin⟩

lemma Inv.queue (h : s.place t = .connect self target (.queue server)) :
    Inv (s.queue t self target server) := by
  obtain ⟨hheld, hsend, hlt, hclient, hnone, hout⟩ := hinv.busy t _ _ _ h
  have hmem : ∀ home other, other ∈ (s.queue t self target server).ends home ↔
      other ∈ s.ends home ∨ home = some target ∧ other = server := by
    intro home other
    by_cases hhome : home = some target
    · subst hhome
      simp [State.queue]
    · simp [State.queue, hhome]
  refine hinv.advance h rfl ?_ ?_ (fun _ _ => .inr) hinv.fresh ?_ ?_ ?_ ?_ ?_ hinv.once
  · rintro other ⟨hmade, hnew | haccepted⟩
    · exact ⟨hmade, .inl hnew⟩
    · exact ⟨hmade, .inr ((hmem none other).mpr (.inl haccepted))⟩
  · intro client _ hne
    refine ⟨le_rfl, rfl, fun other ho => ⟨ho, rfl, fun home => ?_⟩⟩
    rw [hmem, or_iff_left]
    rintro ⟨-, rfl⟩
    exact hne (some.inj (ho.symm.trans hclient))
  · intro home
    by_cases hhome : home = some target
    · subst hhome
      simpa [State.queue, nodup_append] using
        ⟨hinv.nodup _, fun other ho heq => hout _ (heq ▸ ho)⟩
    · simpa [State.queue, hhome] using hinv.nodup home
  · intro home home' other ho ho'
    rcases (hmem home other).mp ho with hin | ⟨rfl, rfl⟩ <;>
      rcases (hmem home' other).mp ho' with hin' | ⟨rfl, heq⟩
    · exact hinv.apart home home' other hin hin'
    · exact absurd (heq ▸ hin) (hout home)
    · exact absurd hin' (hout home')
    · rfl
  · rintro _ _ _ ⟨⟩
    exact ⟨rfl, hsend, hclient, hnone, (hmem _ _).mpr (.inr ⟨rfl, rfl⟩)⟩
  · intro home other ho
    rcases (hmem home other).mp ho with hin | ⟨rfl, rfl⟩
    · obtain ⟨client, hserver, -⟩ := hinv.owned home other hin
      refine .inr ⟨client, ?_, hserver, hin⟩
      rintro rfl
      rcases hinv.stage_of_mem h hsend hin hserver with hstage | hstage <;> cases hstage
    · exact .inl ⟨hclient, .inr ⟨hnone, t, target, rfl, update_self ..⟩⟩
  · intro client hmem'
    obtain ⟨other, home, hsend', hserver, hin⟩ := hinv.connected client hmem'
    exact .inr ⟨other, home, hsend', hserver, (hmem home other).mpr (.inl hin)⟩

lemma Inv.wireServer (h : s.place t = .connect self target (.wireServer server)) :
    Inv (s.wireServer t self target server) := by
  obtain ⟨hheld, hsend, hclient, hnone, hmem⟩ := hinv.busy t _ _ _ h
  have hself : self ≠ server := fun heq => hinv.not_mem_of_held hheld hsend _ (heq ▸ hmem)
  refine hinv.advance h rfl (fun _ => id) ?_ (fun _ _ => .inr) ?_ hinv.nodup hinv.apart ?_ ?_ ?_
    hinv.once
  · intro client hheld' hne
    have hclient' : client ≠ server := by
      rintro rfl
      exact hinv.not_mem_of_held hheld' hnone _ hmem
    refine ⟨le_rfl, update_of_ne hclient' ..,
      fun other ho => ⟨ho, update_of_ne ?_ .., fun _ => Iff.rfl⟩⟩
    rintro rfl
    exact hne (some.inj (ho.symm.trans hclient))
  · intro i hi
    obtain ⟨hsend', hclient'⟩ := hinv.fresh i hi
    exact ⟨(update_of_ne ((hinv.lt_made hclient).trans_le hi).ne' ..).trans hsend', hclient'⟩
  · rintro _ _ _ ⟨⟩
    exact ⟨rfl, (update_of_ne hself ..).trans hsend, hclient, update_self .., _, hmem⟩
  · intro home other ho
    obtain ⟨client, hserver, -⟩ := hinv.owned home other ho
    by_cases hne : client = self
    · subst hne
      rcases hinv.stage_of_mem h hsend ho hserver with hstage | hstage <;> cases hstage
      exact .inl ⟨hclient, .inl ⟨update_self .., .inr ⟨t, target, update_self ..⟩⟩⟩
    · exact .inr ⟨client, hne, hserver, ho⟩
  · intro client hmem'
    refine .inl ⟨?_, hmem'⟩
    rintro rfl
    obtain ⟨_, _, hsend', -⟩ := hinv.connected client hmem'
    rw [hsend] at hsend'
    cases hsend'

lemma Inv.wireSelf (h : s.place t = .connect self target (.wireSelf server)) :
    Inv (s.wireSelf t self server) := by
  obtain ⟨hheld, hsend, hclient, hwired, home, hmem⟩ := hinv.busy t _ _ _ h
  have hself : server ≠ self := fun heq => hinv.not_mem_of_held hheld hsend _ (heq ▸ hmem)
  refine hinv.advance h rfl (fun _ => id) ?_ (fun _ _ => .inr) ?_ hinv.nodup hinv.apart nofun
    ?_ ?_ ?_
  · intro client _ hne
    refine ⟨le_rfl, update_of_ne hne .., fun other ho => ⟨ho, update_of_ne ?_ .., fun _ => Iff.rfl⟩⟩
    rintro rfl
    rcases hheld.2 with hnone | haccepted
    · rw [hnone] at ho
      cases ho
    · exact hinv.not_mem_of_held hheld hsend _ haccepted
  · intro i hi
    obtain ⟨hsend', hclient'⟩ := hinv.fresh i hi
    exact ⟨(update_of_ne (hheld.1.trans_le hi).ne' ..).trans hsend', hclient'⟩
  · intro home other ho
    obtain ⟨client, hserver, -⟩ := hinv.owned home other ho
    by_cases hne : client = self
    · subst hne
      rcases hinv.stage_of_mem h hsend ho hserver with hstage | hstage <;> cases hstage
      exact .inl ⟨hclient, .inl ⟨(update_of_ne hself ..).trans hwired, .inl (update_self ..)⟩⟩
    · exact .inr ⟨client, hne, hserver, ho⟩
  · intro client hmem'
    by_cases hne : client = self
    · subst hne
      exact .inr ⟨server, home, update_self .., hclient, hmem⟩
    · exact .inl ⟨hne, (mem_cons.mp hmem').resolve_left hne⟩
  · refine nodup_cons.mpr ⟨fun hmem' => ?_, hinv.once⟩
    obtain ⟨_, _, hsend', -⟩ := hinv.connected self hmem'
    rw [hsend] at hsend'
    cases hsend'

lemma Inv.mem_accept {rest : List Nat} (hwaiting : s.ends (some self) = server :: rest)
    (home : Option Nat) (other : Nat) : other ∈ (s.accept t self server rest).ends home ↔
      other ∈ s.ends home ∧ other ≠ server ∨ home = none ∧ other = server := by
  have hnodup := hinv.nodup (some self)
  have hapart := fun home => hinv.apart home (some self) server
  rw [hwaiting] at hnodup hapart
  cases home with
  | none =>
    have hout : server ∉ s.ends none := fun hin => nomatch hapart none hin mem_cons_self
    simp only [State.accept, update_self, mem_cons]
    grind
  | some listener =>
    by_cases hlistener : listener = self
    · subst hlistener
      simp only [State.accept, hwaiting]
      grind
    · have hout : server ∉ s.ends (some listener) := fun hin =>
        hlistener (some.inj (hapart _ hin mem_cons_self))
      simp only [State.accept]
      grind

lemma Inv.accept {rest : List Nat} {answer : Except Errno Unit} (h : s.place t = .out answer)
    (hwaiting : s.ends (some self) = server :: rest)
    (horder : ∀ u client other, s.place u ≠ .connect client self (.wireServer other)) :
    Inv (s.accept t self server rest) := by
  have hmem := hinv.mem_accept (t := t) hwaiting
  have hserver : server ∈ s.ends (some self) := hwaiting ▸ mem_cons_self
  have hhome : ∀ home other, other ∈ s.ends home →
      ∃ home', other ∈ (s.accept t self server rest).ends home' := by
    intro home other ho
    by_cases heq : other = server
    · exact ⟨none, (hmem none other).mpr (.inr ⟨rfl, heq⟩)⟩
    · exact ⟨home, (hmem home other).mpr (.inl ⟨ho, heq⟩)⟩
  have hheld : ∀ other, s.Held other → (s.accept t self server rest).Held other := by
    rintro other ⟨hmade, hnone | haccepted⟩
    · exact ⟨hmade, .inl hnone⟩
    · by_cases heq : other = server
      · exact ⟨hmade, .inr ((hmem none other).mpr (.inr ⟨rfl, heq⟩))⟩
      · exact ⟨hmade, .inr ((hmem none other).mpr (.inl ⟨haccepted, heq⟩))⟩
  have hplace : ∀ u client target stage, s.place u = .connect client target stage →
      (s.accept t self server rest).place u = s.place u := by
    intro u client target stage hu
    refine update_of_ne ?_ ..
    rintro rfl
    rw [h] at hu
    cases hu
  refine { hinv with
    nodup := ?_
    apart := ?_
    clients := fun other client hclient => hheld _ (hinv.clients other client hclient)
    alone := hinv.alone_update nofun
    busy := ?_
    owned := ?_
    connected := ?_ }
  · intro home
    have hnodup := hinv.nodup (some self)
    rw [hwaiting, nodup_cons] at hnodup
    cases home with
    | none =>
      refine nodup_cons.mpr ⟨fun hin => ?_, hinv.nodup none⟩
      cases hinv.apart _ _ _ hin hserver
    | some listener =>
      by_cases hlistener : listener = self
      · subst hlistener
        simpa [State.accept] using hnodup.2
      · simpa [State.accept, hlistener] using hinv.nodup (some listener)
  · intro home home' other ho ho'
    rcases (hmem home other).mp ho with ⟨hin, hne⟩ | ⟨rfl, rfl⟩ <;>
      rcases (hmem home' other).mp ho' with ⟨hin', hne'⟩ | ⟨rfl, heq⟩
    · exact hinv.apart home home' other hin hin'
    · exact absurd heq hne
    · exact absurd rfl hne'
    · rfl
  · intro u client target stage hu
    change update s.place t _ u = _ at hu
    rw [update_apply] at hu
    split_ifs at hu
    obtain ⟨hhas, hearned⟩ := hinv.busy u _ _ _ hu
    refine ⟨hheld _ hhas, ?_⟩
    cases stage with
    | send => trivial
    | listener | credentials | make => exact hearned
    | queue other =>
      obtain ⟨hsend, hlt, hclient, hnone, hout⟩ := hearned
      refine ⟨hsend, hlt, hclient, hnone, fun home hin => ?_⟩
      rcases (hmem home other).mp hin with ⟨hin, -⟩ | ⟨-, rfl⟩
      · exact hout home hin
      · exact hout _ hserver
    | wireServer other =>
      obtain ⟨hsend, hclient, hnone, hin⟩ := hearned
      refine ⟨hsend, hclient, hnone, (hmem _ other).mpr (.inl ⟨hin, ?_⟩)⟩
      rintro rfl
      obtain rfl := some.inj (hinv.apart _ _ _ hin hserver)
      exact horder u client other hu
    | wireSelf other =>
      obtain ⟨hsend, hclient, hwired, home, hin⟩ := hearned
      exact ⟨hsend, hclient, hwired, hhome home other hin⟩
  · intro home other ho
    -- A server end that is not wired yet is not the one that went to the caller.
    obtain ⟨home', hin, hsame⟩ :
        ∃ home', other ∈ s.ends home' ∧ (home' = home ∨ home' = some self) := by
      rcases (hmem home other).mp ho with ⟨hin, -⟩ | ⟨-, rfl⟩
      · exact ⟨home, hin, .inl rfl⟩
      · exact ⟨some self, hserver, .inr rfl⟩
    obtain ⟨client, hclient, hsettled⟩ := hinv.owned home' other hin
    refine ⟨client, hclient, ?_⟩
    rcases hsettled with ⟨hwired, hsend | ⟨u, target, hu⟩⟩ | ⟨hnone, u, target, rfl, hu⟩
    · exact .inl ⟨hwired, .inl hsend⟩
    · exact .inl ⟨hwired, .inr ⟨u, target, (hplace u _ _ _ hu).trans hu⟩⟩
    · rcases hsame with rfl | hself
      · exact .inr ⟨hnone, u, target, rfl, (hplace u _ _ _ hu).trans hu⟩
      · obtain rfl := some.inj hself
        exact absurd hu (horder u client other)
  · intro client hclient
    obtain ⟨other, home, hsend, hserver', hin⟩ := hinv.connected client hclient
    obtain ⟨home', hin'⟩ := hhome home other hin
    exact ⟨other, home', hsend, hserver', hin'⟩

lemma Inv.socket : Inv { s with made := s.made + 1 } := by
  have hheld : ∀ other, s.Held other → State.Held { s with made := s.made + 1 } other :=
    fun other ho => ⟨Nat.lt_succ_of_lt ho.1, ho.2⟩
  have hkeeps : ∀ client, Keeps s { s with made := s.made + 1 } client := fun client =>
    ⟨Nat.le_succ _, rfl, fun server hserver => ⟨hserver, rfl, fun _ => Iff.rfl⟩⟩
  refine { hinv with
    fresh := fun i hi => hinv.fresh i (Nat.le_of_succ_le hi)
    clients := fun server client hclient => hheld _ (hinv.clients server client hclient)
    busy := fun t self target stage h => ?_ }
  obtain ⟨hhas, hearned⟩ := hinv.busy t self target stage h
  exact ⟨hheld _ hhas, hearned.of_keeps (hkeeps self)⟩

lemma Inv.pass {stage next : Stage} (h : s.place t = .connect self target stage)
    (hcheck : s.check self target stage = some (.ok next)) :
    Inv (s.goto t (.connect self target next)) := by
  obtain ⟨hheld, hbusy⟩ := hinv.busy t _ _ _ h
  have hchecks : (∀ server, stage ≠ .wireServer server ∧ stage ≠ .wireSelf server) ∧
      s.Busy self target next := by
    cases stage <;> simp only [State.check] at hcheck
    case send =>
      split_ifs at hcheck with hsend <;> cases hcheck
      exact ⟨by simp, hsend⟩
    case listener =>
      split_ifs at hcheck <;> cases hcheck
      exact ⟨by simp, hbusy⟩
    case credentials =>
      split_ifs at hcheck <;> cases hcheck
      exact ⟨by simp, hbusy⟩
    case queue =>
      split_ifs at hcheck
      cases hcheck
    all_goals cases hcheck
  refine hinv.goto (fun _ _ server => ?_) ?_
  · rw [h]
    constructor
    · rintro ⟨⟩
      exact (hchecks.1 server).1 rfl
    · rintro ⟨⟩
      exact (hchecks.1 server).2 rfl
  · rintro _ _ _ ⟨⟩
    exact ⟨hheld, hchecks.2, fun u _ _ hu => hinv.alone u t _ _ _ _ _ hu h⟩

lemma Inv.step (hact : s.Orderly act) (hs : Step s t act s') : Inv s' := by
  cases hs with
  | socket => exact hinv.socket
  | listen self limit hself => exact { hinv with }
  | connect self target answer h hself hne =>
    refine hinv.goto (by simp [h]) ?_
    rintro _ _ _ ⟨⟩
    exact ⟨hself, trivial, fun u target' stage' hu => absurd hu (hact u target' stage')⟩
  | pass self target stage next h hcheck => exact hinv.pass h hcheck
  | refuse self target stage error h hcheck =>
    refine hinv.goto ?_ nofun
    cases stage <;> simp [State.check] at hcheck <;> simp [h]
  | noMemory self target h => exact hinv.goto (by simp [h]) nofun
  | full self target server limit next h hlimit hfull hnext =>
    obtain ⟨hheld, hsend, -⟩ := hinv.busy t _ _ _ h
    refine hinv.goto (by simp [h]) ?_
    rcases hnext with rfl | ⟨error, -, rfl⟩
    · rintro _ _ _ ⟨⟩
      exact ⟨hheld, hsend, fun u _ _ hu => hinv.alone u t _ _ _ _ _ hu h⟩
    · nofun
  | make self target h => exact hinv.make h
  | queue self target server limit h hlimit hroom => exact hinv.queue h
  | wireServer self target server h => exact hinv.wireServer h
  | wireSelf self target server h => exact hinv.wireSelf h
  | accept self server rest answer h hwaiting => exact hinv.accept h hwaiting hact
  | lose self server rest answer h hwaiting => exact hact.elim
  | refused self error answer h herror => exact hinv.goto (by simp [h]) nofun

end

lemma inv_run (hrun : ReflTransGen OrderlyNext new s) : Inv s := by
  induction hrun with
  | refl => exact inv_new
  | tail _ hnext ih =>
    obtain ⟨t, act, hs, hact⟩ := hnext
    exact ih.step hact hs

/-- In a run scheduled so: an accepted socket sends to the client that connected, a client connects
once, and sends to the one server end made for it, which waits at one listener or was accepted, once
in all. -/
theorem connections_wired (hrun : ReflTransGen OrderlyNext new s) : (∀ server ∈ s.ends none,
      ∃ client, s.client server = some client ∧ s.send server = some client) ∧
    s.connected.Nodup ∧ ∀ client ∈ s.connected, ∃ server, s.send client = some server ∧
      s.client server = some client ∧
      (∃ home, (s.ends home).count server = 1 ∧ ∀ other ≠ home, server ∉ s.ends other) ∧
      ∀ home, ∀ other ∈ s.ends home, s.client other = some client → other = server := by
  have hinv := inv_run hrun
  refine ⟨?_, hinv.once, ?_⟩
  · intro server hserver
    obtain ⟨client, hclient, ⟨hwired, -⟩ | ⟨-, _, _, hhome, -⟩⟩ := hinv.owned none server hserver
    · exact ⟨client, hclient, hwired⟩
    · cases hhome
  · intro client hclient
    obtain ⟨server, home, hsend, hserver, hhome⟩ := hinv.connected client hclient
    refine ⟨server, hsend, hserver, ⟨home, ?_, ?_⟩, ?_⟩
    · exact count_eq_one_of_mem (hinv.nodup home) hhome
    · intro other hne hother
      exact hne (hinv.apart _ _ _ hother hhome)
    · intro home' other hother hclient'
      obtain ⟨client', hsame, hsettled⟩ := hinv.owned home' other hother
      obtain rfl : client' = client := some.inj (hsame.symm.trans hclient')
      -- A connected client is in no connect that is still wiring.
      have hdone : ∀ u target stage, s.place u = .connect client' target stage →
          stage ≠ .wireServer other ∧ stage ≠ .wireSelf other := by
        intro u target stage hu
        have hbusy := (hinv.busy u _ _ _ hu).2
        constructor <;> rintro rfl <;> simp [State.Busy, hsend] at hbusy
      rcases hsettled with ⟨-, hwired | ⟨u, _, hu⟩⟩ | ⟨-, u, _, -, hu⟩
      · exact some.inj (hwired.symm.trans hsend)
      · exact absurd rfl (hdone u _ _ hu).2
      · exact absurd rfl (hdone u _ _ hu).1

lemma queued_run : ∃ s, ReflTransGen OrderlyNext new s ∧ (∀ t ≠ 1, s.place t = .out (.ok ())) ∧
    s.place 1 = .connect 1 0 (.wireServer 2) ∧ s.ends = update (fun _ => []) (some 0) [2] ∧
      s.send 2 = none := by
  have h : ReflTransGen OrderlyNext new _ := .refl
  replace h := h.tail ⟨0, _, .socket, trivial⟩
  replace h := h.tail ⟨0, _, .socket, trivial⟩
  replace h := h.tail ⟨0, _, .listen 0 1 ⟨by decide, .inl rfl⟩, trivial⟩
  replace h := h.tail ⟨1, _, .connect 1 0 _ rfl ⟨by decide, .inl rfl⟩ (by decide), nofun⟩
  replace h := h.tail ⟨1, _, .pass 1 0 .send _ rfl rfl, trivial⟩
  replace h := h.tail ⟨1, _, .pass 1 0 .listener _ rfl rfl, trivial⟩
  replace h := h.tail ⟨1, _, .pass 1 0 .credentials _ rfl rfl, trivial⟩
  replace h := h.tail ⟨1, _, .make 1 0 rfl, trivial⟩
  replace h := h.tail ⟨1, _, .queue 1 0 2 1 rfl rfl (by decide), trivial⟩
  refine ⟨_, h, fun t ht => ?_, rfl, rfl, rfl⟩
  simp [State.queue, State.make, State.goto, new, ht]

/-- A server end accepted before its connect wires it sends nowhere; and one lost by an accept with
no memory leaves a connected client without any. -/
theorem accepted_unwired : (∃ s, ReflTransGen Next new s ∧ ∃ server ∈ s.ends none,
      s.send server = none) ∧
    ∃ s, ReflTransGen Next new s ∧ 1 ∈ s.connected ∧ ∀ home, s.ends home = [] := by
  obtain ⟨s, hrun, hidle, hplace, hends, hsend⟩ := queued_run
  replace hrun : ReflTransGen Next new s :=
    hrun.lift id fun _ _ ⟨t, act, hstep, _⟩ => ⟨t, act, hstep⟩
  have hwaiting : s.ends (some 0) = [2] := by rw [hends, update_self]
  have hidle' := hidle 0 (by decide)
  refine ⟨⟨_, hrun.tail ⟨0, _, .accept 0 2 [] _ hidle' hwaiting⟩, 2, mem_cons_self, hsend⟩, ?_⟩
  replace hrun := hrun.tail ⟨1, _, .wireServer 1 0 2 hplace⟩
  replace hrun := hrun.tail ⟨1, _, .wireSelf 1 0 2 rfl⟩
  refine ⟨_, hrun.tail ⟨0, _, .lose 0 2 [] _ hidle' hwaiting⟩, mem_cons_self, fun home => ?_⟩
  simp only [State.lose, State.wireSelf, State.wireServer, State.goto, hends, update_idem,
    update_apply, ite_self]

theorem connections_wired_accepted : ∃ s, ReflTransGen OrderlyNext new s ∧ 2 ∈ s.ends none ∧
    1 ∈ s.connected ∧ s.connected.Nodup ∧ s.send 2 = some 1 := by
  obtain ⟨s, hrun, hidle, hplace, hends, -⟩ := queued_run
  have hwaiting : s.ends (some 0) = [2] := by rw [hends, update_self]
  replace hrun := hrun.tail ⟨1, _, .wireServer 1 0 2 hplace, trivial⟩
  replace hrun := hrun.tail ⟨1, _, .wireSelf 1 0 2 rfl, trivial⟩
  replace hrun := hrun.tail ⟨0, _, .accept 0 2 [] _ (hidle 0 (by decide)) hwaiting, ?_⟩
  · exact ⟨_, hrun, mem_cons_self, mem_cons_self, (connections_wired hrun).2.1, rfl⟩
  · intro t client server ht
    change update (update s.place 1 _) 1 _ t = _ at ht
    rw [update_idem, update_apply] at ht
    split_ifs at ht with hone
    rw [hidle t hone] at ht
    cases ht

end Ferrix.Sockets.Connections

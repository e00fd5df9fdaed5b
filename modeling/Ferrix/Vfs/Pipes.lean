import Ferrix.Foundations.Allocation
import Ferrix.Foundations.Words

/-!
One queue of bytes serves a byte stream and, with the lengths of its packets beside it, a packet
pipe.  Whether a larger buffer is granted comes with each call that asks for one.
-/

namespace Ferrix.Vfs.Pipes

open Foundations Allocation Words List

def pipeBuf : Nat := 4096

inductive ReadOutcome
  | read (count : Nat)
  | wouldBlock
  | endOfFile
deriving DecidableEq

inductive WriteOutcome
  | wrote (count : Nat)
  | wouldBlock
  | broken
  | noMemory
deriving DecidableEq

/-- `room` is the capacity of the deque that holds `data`. -/
structure PipeBuffer where
  data : List UInt8
  room : Nat
  capacity : Nat
  readers : Nat
  writers : Nat
  packets : Option (List Nat)
deriving DecidableEq

namespace PipeBuffer

def new (capacity : Nat) : PipeBuffer := ⟨[], 0, max capacity pipeBuf, 0, 0, none⟩

def newPackets (capacity : Nat) : PipeBuffer := { new capacity with packets := some [] }

variable (p : PipeBuffer) (memory : Allocator)

def makeRoom (count : Nat) : Option Nat :=
  let needed := saturatingAdd 64 p.data.length count
  if needed ≤ p.room then some p.room
  else
    let target := min needed.nextPowerOfTwo (max p.capacity needed)
    tryReserve memory p.data.length p.room (target - p.data.length)

def reserve (count : Nat) : Bool × PipeBuffer :=
  match p.makeRoom memory count with
  | some room => (true, { p with room })
  | none => (false, p)

def openReader : PipeBuffer := { p with readers := saturatingAdd 64 p.readers 1 }

def closeReader : PipeBuffer := { p with readers := p.readers - 1 }

def openWriter : PipeBuffer := { p with writers := saturatingAdd 64 p.writers 1 }

def closeWriter : PipeBuffer := { p with writers := p.writers - 1 }

def free : Nat := p.capacity - p.data.length

def canRead : Bool := p.data ≠ [] ∨ p.writers = 0

def canWrite (len : Nat) : Bool :=
  if p.readers = 0 ∨ len = 0 then true
  else if p.packets.isSome then min len pipeBuf ≤ p.free
  else if len ≤ pipeBuf then len ≤ p.free
  else 0 < p.free

/-- The outcome, the bytes put in the reader's buffer of `len`, and the pipe after it. -/
def read (len : Nat) : ReadOutcome × List UInt8 × PipeBuffer :=
  if len = 0 then (.read 0, [], p)
  else if p.data = [] then (if p.writers = 0 then .endOfFile else .wouldBlock, [], p)
  else
    let taken := match p.packets with
      | some packets => packets.head?.getD p.data.length
      | none => p.data.length
    let count := min len taken
    let gone := if p.packets.isSome then taken else count
    (.read count, p.data.take count,
      { p with data := p.data.drop gone, packets := p.packets.map List.tail })

def unread (bytes : List UInt8) : PipeBuffer :=
  { p with
    room := (p.makeRoom memory bytes.length).getD (max p.room (bytes.length + p.data.length))
    data := bytes ++ p.data
    packets := if bytes = [] then p.packets else p.packets.map (bytes.length :: ·) }

def count (len : Nat) : Option Nat :=
  if p.packets.isSome then
    if p.free < min len pipeBuf then none else some (min len pipeBuf)
  else if len ≤ pipeBuf then
    if p.free < len then none else some len
  else if p.free = 0 then none
  else some (min len p.free)

def write (data : List UInt8) : WriteOutcome × PipeBuffer :=
  if p.readers = 0 then (.broken, p)
  else if data = [] then (.wrote 0, p)
  else
    match p.count data.length with
    | none => (.wouldBlock, p)
    | some count =>
      match p.makeRoom memory count with
      | none => (.noMemory, p)
      | some room =>
        (.wrote count, { p with
          room
          data := p.data ++ data.take count
          packets := p.packets.map (· ++ [count]) })

variable {p} {memory}

lemma count_spec {len n : Nat} (h : p.count len = some n) :
    n ≤ len ∧ n ≤ p.free ∧ (len ≠ 0 → n ≠ 0) ∧ (len ≤ pipeBuf → n = len) := by
  rw [PipeBuffer.count] at h
  split_ifs at h <;> cases h <;> rw [pipeBuf] at * <;> omega

lemma write_cases (p : PipeBuffer) (memory : Allocator) (data : List UInt8) :
    ((p.write memory data).2 = p ∧ ∀ n, (p.write memory data).1 = .wrote n → data = []) ∨
    ∃ room, ∃ n ≤ data.length, n ≤ p.free ∧ data.take n ≠ [] ∧
      (data.length ≤ pipeBuf → n = data.length) ∧
      p.write memory data = (.wrote n, { p with
        room, data := p.data ++ data.take n, packets := p.packets.map (· ++ [n]) }) := by
  rw [write]
  split_ifs with hreaders hdata
  · simp
  · simp [hdata]
  · cases hn : p.count data.length with
    | none => simp
    | some n =>
      cases hroom : p.makeRoom memory n with
      | none => simp [hroom]
      | some room =>
        obtain ⟨hlen, hf, hsome, hwhole⟩ := count_spec hn
        have htake : data.take n ≠ [] := by simp_all
        exact .inr ⟨room, n, hlen, hf, htake, hwhole, by simp only [hroom]⟩

lemma canWrite_iff (data : List UInt8) :
    p.canWrite data.length ↔ (p.write memory data).1 ≠ .wouldBlock := by
  rw [write]
  split_ifs with hreaders hdata
  · simp [canWrite, hreaders]
  · simp [canWrite, hdata]
  · have hcan : p.canWrite data.length = (p.count data.length).isSome := by
      rw [canWrite, if_neg (by simp [hreaders, hdata]), PipeBuffer.count]
      split_ifs <;> simp <;> omega
    rw [hcan]
    cases p.count data.length with
    | none => simp
    | some n => cases hroom : p.makeRoom memory n <;> simp [hroom]

variable {len : Nat} (hlen : len ≠ 0)
include hlen

lemma canRead_iff : p.canRead ↔ (p.read len).1 ≠ .wouldBlock := by
  rw [canRead, read, if_neg hlen]
  split_ifs <;> simp_all

lemma read_stream (hstream : p.packets = none) (hdata : p.data ≠ []) :
    p.read len = (.read (min len p.data.length), p.data.take len,
      { p with data := p.data.drop len }) := by
  simp [read, hlen, hdata, hstream]

lemma read_packet {packet rest : List UInt8} {lengths : List Nat} (hpacket : packet ≠ [])
    (hpackets : p.packets = some (packet.length :: lengths)) (hdata : p.data = packet ++ rest) :
    p.read len = (.read (min len packet.length), packet.take len,
      { p with data := rest, packets := some lengths }) := by
  simp [read, hlen, hdata, hpackets, hpacket, ← take_take]

end PipeBuffer

open PipeBuffer

/-- A pipe in use: the bytes `accepted` from writers and those `delivered` by reads before the last,
less what was put back, what readers keep of the `last` read, the packets `pending`, and how many of
the bytes held were put back. -/
structure Session where
  pipe : PipeBuffer
  accepted : List UInt8
  delivered : List UInt8
  last : List UInt8
  pending : List (List UInt8)
  back : Nat

namespace Session

def new (pipe : PipeBuffer) : Session := ⟨pipe, [], [], [], [], 0⟩

/-- One call. What is put back to a byte stream is an end of what the last read returned. -/
inductive Step (s : Session) : Session → Prop
  | openReader : Step s { s with pipe := s.pipe.openReader }
  | closeReader : Step s { s with pipe := s.pipe.closeReader }
  | openWriter : Step s { s with pipe := s.pipe.openWriter }
  | closeWriter : Step s { s with pipe := s.pipe.closeWriter }
  | reserve (memory : Allocator) (count : Nat) :
    Step s { s with pipe := (s.pipe.reserve memory count).2 }
  | wrote {memory : Allocator} {data : List UInt8} {count : Nat} {pipe : PipeBuffer} :
    s.pipe.write memory data = (.wrote count, pipe) → data ≠ [] →
    Step s { s with
      pipe
      accepted := s.accepted ++ data.take count
      pending := s.pending ++ [data.take count] }
  | refused {memory : Allocator} {data : List UInt8} :
    (∀ count, (s.pipe.write memory data).1 = .wrote count → data = []) →
    Step s { s with pipe := (s.pipe.write memory data).2 }
  | read {len : Nat} {outcome : ReadOutcome} {bytes : List UInt8} {pipe : PipeBuffer} :
    s.pipe.read len = (outcome, bytes, pipe) →
    Step s { s with
      pipe
      delivered := s.delivered ++ s.last
      last := bytes
      pending := if bytes = [] then s.pending else s.pending.tail
      back := s.back - (s.pipe.data.length - pipe.data.length) }
  | unread {memory : Allocator} {kept bytes : List UInt8} :
    (s.pipe.packets = none → s.last = kept ++ bytes) →
    Step s { s with
      pipe := s.pipe.unread memory bytes
      last := kept
      pending := if bytes = [] then s.pending else bytes :: s.pending
      back := s.back + bytes.length }

structure Books (s : Session) : Prop where
  stream : s.pipe.packets = none → s.delivered ++ s.last ++ s.pipe.data = s.accepted
  packets : ∀ lengths, s.pipe.packets = some lengths →
    lengths = s.pending.map List.length ∧ s.pipe.data = s.pending.flatten ∧
      ∀ packet ∈ s.pending, packet ≠ []
  held : s.pipe.data.length ≤ s.pipe.capacity + s.back

variable {s t : Session}

lemma Books.step (h : s.Books) (hs : s.Step t) : t.Books := by
  have hh := h.held
  cases hs with
  | openReader | closeReader | openWriter | closeWriter => exact { h with }
  | reserve memory n =>
    rw [reserve]
    cases s.pipe.makeRoom memory n with
    | none => exact h
    | some room => exact { h with }
  | @wrote memory data n pipe hwrite hdata =>
    obtain ⟨-, hnone⟩ | ⟨room, n', hlen, hf, htake, -, heq⟩ :=
      s.pipe.write_cases memory data
    · exact absurd (hnone n (by rw [hwrite])) hdata
    · cases hwrite.symm.trans heq
      refine ⟨fun hnone => ?_, ?_, ?_⟩
      · rw [← append_assoc, h.stream (by simpa using hnone)]
      · intro _ hsome
        obtain ⟨lengths, hlengths, rfl⟩ := Option.map_eq_some_iff.1 hsome
        obtain ⟨rfl, hflat, hne⟩ := h.packets lengths hlengths
        simpa [hflat, hlen, or_imp, forall_and, htake] using hne
      · simp only [free, length_append, length_take] at hf ⊢
        omega
  | @refused memory data hnone =>
    obtain ⟨hsame, -⟩ | ⟨room, n, -, -, htake, -, heq⟩ := s.pipe.write_cases memory data
    · rw [hsame]
      exact h
    · rw [hnone n (by rw [heq]), take_nil] at htake
      exact absurd rfl htake
  | @read len outcome bs pipe hread =>
    -- The two reads that return at once: no room in the caller's buffer, or nothing to read.
    by_cases hnothing : len = 0 ∨ s.pipe.data = []
    · obtain ⟨rfl, rfl⟩ : [] = bs ∧ s.pipe = pipe := by
        rw [PipeBuffer.read] at hread
        split_ifs at hread <;> simp_all
      refine ⟨fun hnone => ?_, h.packets, ?_⟩
      · simpa using h.stream hnone
      · simpa using hh
    obtain ⟨hlen, hdata⟩ := not_or.1 hnothing
    cases hpackets : s.pipe.packets with
    | none =>
      cases hread.symm.trans (read_stream hlen hpackets hdata)
      refine ⟨fun hnone => ?_, by simp [hpackets], ?_⟩
      · simpa using h.stream hpackets
      · simp only [length_drop]
        omega
    | some lengths =>
      obtain ⟨rfl, hflat, hne⟩ := h.packets lengths hpackets
      cases hpending : s.pending with
      | nil => simp [hflat, hpending] at hdata
      | cons packet r =>
        rw [hpending] at hpackets hflat hne
        obtain ⟨hpacket, hr⟩ := forall_mem_cons.1 hne
        cases hread.symm.trans (read_packet hlen hpacket hpackets hflat)
        refine ⟨by simp, ?_, ?_⟩
        · simpa [hlen, hpacket] using hr
        · simp [hflat] at hh ⊢
          omega
  | @unread memory kept bs hl =>
    refine ⟨fun hnone => ?_, ?_, ?_⟩
    · have hstream : s.pipe.packets = none := by
        simp only [unread] at hnone
        split_ifs at hnone <;> simpa using hnone
      simpa [unread, hl hstream] using h.stream hstream
    · by_cases hbytes : bs = []
      · simpa [unread, hbytes] using h.packets
      · intro _ hsome
        simp only [unread, if_neg hbytes] at hsome ⊢
        obtain ⟨lengths, hlengths, rfl⟩ := Option.map_eq_some_iff.1 hsome
        obtain ⟨rfl, hdata, hne⟩ := h.packets lengths hlengths
        exact ⟨rfl, by rw [hdata, flatten_cons], forall_mem_cons.2 ⟨hbytes, hne⟩⟩
    · simp only [unread, length_append]
      omega

/-- Over every run, a byte stream delivers what was written and in that order, a packet pipe one
packet to a read, with the rest of it dropped; a short write is queued whole or not at all, and the
two questions a waiting end asks are answered exactly. -/
theorem pipe_delivers {pipe : PipeBuffer} {capacity : Nat}
    (hnew : pipe = .new capacity ∨ pipe = .newPackets capacity)
    (hrun : Relation.ReflTransGen Step (new pipe) s) :
    s.Books ∧
    (∀ lengths, s.pipe.packets = some lengths → lengths.sum = s.pipe.data.length) ∧
    (∀ len ≠ 0, s.pipe.packets = none → s.pipe.data ≠ [] →
      s.pipe.read len = (.read (min len s.pipe.data.length), s.pipe.data.take len,
        { s.pipe with data := s.pipe.data.drop len })) ∧
    (∀ len ≠ 0, ∀ packet rest, s.pipe.packets.isSome → s.pending = packet :: rest →
      s.pipe.read len = (.read (min len packet.length), packet.take len,
        { s.pipe with data := rest.flatten, packets := some (rest.map List.length) })) ∧
    (∀ memory data, data.length ≤ pipeBuf → (s.pipe.write memory data).2 = s.pipe ∨
      (s.pipe.write memory data).1 = .wrote data.length ∧
        (s.pipe.write memory data).2.data = s.pipe.data ++ data) ∧
    (∀ len ≠ 0, s.pipe.canRead ↔ (s.pipe.read len).1 ≠ .wouldBlock) ∧
    ∀ memory data, s.pipe.canWrite data.length ↔ (s.pipe.write memory data).1 ≠ .wouldBlock := by
  have h : s.Books := by
    induction hrun with
    | refl =>
      rcases hnew with rfl | rfl <;>
        constructor <;> simp [new, PipeBuffer.new, PipeBuffer.newPackets]
    | tail _ hstep ih => exact ih.step hstep
  refine ⟨h, ?_, ?_, ?_, ?_, ?_, fun memory data => PipeBuffer.canWrite_iff data⟩
  · intro lengths hlengths
    obtain ⟨rfl, hdata, -⟩ := h.packets lengths hlengths
    rw [hdata, List.length_flatten]
  · exact fun len hlen hnone hdata => PipeBuffer.read_stream hlen hnone hdata
  · intro len hlen packet rest hsome hpending
    obtain ⟨lengths, hlengths⟩ := Option.isSome_iff_exists.1 hsome
    obtain ⟨rfl, hdata, hne⟩ := h.packets lengths hlengths
    rw [hpending] at hlengths hdata hne
    exact PipeBuffer.read_packet hlen (hne packet List.mem_cons_self) hlengths hdata
  · intro memory data hshort
    obtain ⟨hsame, -⟩ | ⟨room, count, -, -, -, hwhole, heq⟩ := s.pipe.write_cases memory data
    · exact .inl hsame
    · rw [heq, hwhole hshort, List.take_length]
      exact .inr ⟨rfl, rfl⟩
  · exact fun len hlen => PipeBuffer.canRead_iff hlen

theorem pipe_delivers_put_back : ∃ s : Session, s.last = [1] ∧ s.pipe.data = [2, 3] ∧ s.Books := by
  have hopen : Step (new (.new 0)) (new (PipeBuffer.new 0).openReader) := .openReader
  have hwrite : (PipeBuffer.new 0).openReader.write .exact [1, 2, 3] =
      (.wrote 3, ⟨[1, 2, 3], 4, 4096, 1, 0, none⟩) := by
    decide +kernel
  have hwrote := (Relation.ReflTransGen.single hopen).tail (.wrote hwrite (by decide))
  have hread := hwrote.tail (@Step.read _ 2 _ _ _ rfl)
  have hrun := hread.tail (@Step.unread _ .exact [1] [2] fun _ => rfl)
  exact ⟨_, rfl, rfl, (pipe_delivers (.inl rfl) hrun).1⟩

/-- Of the bytes 1 and 2, returned by one read, the first alone is put back: the reader has 2 and
then 1. -/
theorem unread_start_reorders :
    let p := (PipeBuffer.new 0).openReader
    let q := (p.write .exact [1, 2]).2
    let r := (q.read 2).2.2.unread .exact [1]
    (p.write .exact [1, 2]).1 = .wrote 2 ∧ (q.read 2).2.1 = [1, 2] ∧
      (r.read 2).2.1 = [1] ∧ (r.read 2).2.2.data = [] := by
  decide +kernel

end Session
end Ferrix.Vfs.Pipes

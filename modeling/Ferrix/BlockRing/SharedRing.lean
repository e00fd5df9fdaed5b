import Ferrix.BlockRing.Kernel
import Ferrix.BlockRing.Driver

/-!
The memory beside the history of what was put into it, and what each side may do to it.  Entries
are counted from the start of the ring, so the free-running indices are these counts modulo a
word.
-/

namespace Ferrix.BlockRing.SharedRing

open Foundations.Accesses Layout Indices Kernel Function List

inductive Side
  | kernel
  | driver
deriving DecidableEq

def Side.other : Side → Side
  | .kernel => .driver
  | .driver => .kernel

def producer : Ring → Side
  | .submissions => .kernel
  | .completions => .driver

def Side.consumes : Side → Ring
  | .kernel => .completions
  | .driver => .submissions

def Side.produces : Side → Ring
  | .kernel => .submissions
  | .driver => .completions

/-- What stays the same for a ring's life; indices may start anywhere. -/
structure Setting where
  layout : RingLayout
  device : Device
  start : Ring → Nat

namespace Setting

def index (cfg : Setting) (ring : Ring) (i : Nat) : BitVec 32 :=
  BitVec.ofNat 32 (cfg.start ring + i)

def slot (cfg : Setting) (ring : Ring) (i : Nat) : Nat :=
  (cfg.start ring + i) % cfg.layout.entries

end Setting

structure Answer where
  submission : Submission
  status : Status
  bytesDone : BitVec 64
  deviceTicks : BitVec 32

namespace Answer

def raw (answer : Answer) : RawCompletion :=
  ⟨answer.submission.id, answer.bytesDone, answer.status.raw, answer.deviceTicks⟩

def judged (device : Device) (answer : Answer) : Completed where
  submission := answer.submission
  status :=
    if answer.status = .ok && (answer.submission.op ≠ .read &&
      answer.bytesDone.toNat < device.payloadLen answer.submission.count) then .ioError
    else answer.status
  bytesDone := answer.bytesDone
  deviceTicks := answer.deviceTicks

end Answer

structure Shared where
  memory : (place : Place) → Word place
  sent : List Submission
  consumed : List Submission
  holding : List Submission
  answers : List Answer
  polled : List Completed
  published : Ring → Nat
  heads : Ring → Nat
  asleep : Ring → Bool
  rung : Ring → Bool
  ringing : Ring → Bool
  since : Side → Nat

namespace Shared

def staged (s : Shared) : Ring → Nat
  | .submissions => s.sent.length
  | .completions => s.answers.length

def words (s : Shared) (cfg : Setting) : Ring → Nat → List ((place : Place) × Word place)
  | .submissions, i =>
    s.sent[i]?.elim [] fun submission => submission.raw.words (cfg.slot .submissions i)
  | .completions, i =>
    s.answers[i]?.elim [] fun answer => answer.raw.words (cfg.slot .completions i)

/-- Nothing is left for a sleeper, or someone is about to ring or has rung. -/
def Awake (s : Shared) (ring : Ring) : Prop :=
  s.heads ring = s.published ring ∨ s.rung ring = true ∨ s.ringing ring = true

end Shared

def asks (word : BitVec 32) : Bool := word = WANT_BELL

/-- A read tells a producer whether to ring; a write publishes a tail, steps past an entry, or asks
for a bell. -/
def view : View Place Word Shared where
  look s place := s.memory place
  read s place :=
    match place with
    | .wantBell ring =>
      if asks (s.memory (.wantBell ring)) then s
      else { s with ringing := update s.ringing ring false }
    | _ => s
  write s place word :=
    match place, word with
    | .tail ring, word =>
      { s with
        memory := update s.memory (.tail ring) word
        published := update s.published ring (s.staged ring)
        ringing := update s.ringing ring true }
    | .head ring, word =>
      { s with
        memory := update s.memory (.head ring) word
        heads := update s.heads ring (s.heads ring + 1) }
    | .wantBell ring, word =>
      { s with
        memory := update s.memory (.wantBell ring) word
        rung := if asks word then update s.rung ring false else s.rung }
    | place, word => { s with memory := update s.memory place word }
  look_write s place word := by
    cases place <;> rfl

structure Inv (cfg : Setting) (s : Shared) : Prop where
  tails : ∀ ring, s.memory (.tail ring) = cfg.index ring (s.published ring)
  indices : ∀ ring, s.memory (.head ring) = cfg.index ring (s.heads ring)
  taken : ∀ ring, s.heads ring ≤ s.published ring
  visible : ∀ ring, s.published ring ≤ s.staged ring
  answered : s.answers.length ≤ s.heads .submissions
  room : s.sent.length ≤ s.heads .completions + cfg.layout.entries
  filled : ∀ ring i, s.heads ring ≤ i → Has view (s.words cfg ring i) s
  drawn : (s.answers.map Answer.submission).Subperm (s.sent.take (s.heads .submissions))
  checked : ∀ submission ∈ s.sent, checkSubmission submission.raw cfg.device = .ok submission
  honest : ∀ answer ∈ s.answers,
    answer.bytesDone.toNat ≤ cfg.device.payloadLen answer.submission.count
  wake : ∀ ring, s.asleep ring = true → asks (s.memory (.wantBell ring)) = true ∧ s.Awake ring

/-- What a side leaves alone of the ring it fills. -/
structure Fills (s s' : Shared) (ring : Ring) : Prop where
  heads : s'.heads ring = s.heads ring
  head : s'.memory (.head ring) = s.memory (.head ring)
  wantBell : s'.memory (.wantBell ring) = s.memory (.wantBell ring)
  asleep : s'.asleep ring = s.asleep ring
  published : s.published ring ≤ s'.published ring
  awake : asks (s.memory (.wantBell ring)) = true → s.Awake ring → s'.Awake ring

/-- What a side leaves alone of the ring it takes from. -/
structure Takes (s s' : Shared) (ring : Ring) : Prop where
  published : s'.published ring = s.published ring
  ringing : s'.ringing ring = s.ringing ring
  tail : s'.memory (.tail ring) = s.memory (.tail ring)
  heads : s.heads ring ≤ s'.heads ring

/-- What a side leaves alone of the other's entries and records. -/
def Respects : Side → Shared → Shared → Prop
  | .kernel, s, s' => s'.consumed = s.consumed ∧ s'.holding = s.holding ∧ s'.answers = s.answers ∧
      s.sent <+: s'.sent ∧ s'.since .driver = s.since .driver ∧
      ∀ slot field, s'.memory (.completion slot field) = s.memory (.completion slot field)
  | .driver, s, s' => s'.sent = s.sent ∧ s'.polled = s.polled ∧ s.answers <+: s'.answers ∧
      s'.since .kernel = s.since .kernel ∧
      ∀ slot field, s'.memory (.submission slot field) = s.memory (.submission slot field)

/-- What a side may do in one step. -/
structure Acts (cfg : Setting) (side : Side) (s s' : Shared) : Prop where
  inv : Inv cfg s'
  fills : Fills s s' side.produces
  takes : Takes s s' side.consumes
  respects : Respects side s s'

/-- What a side does in one step of a call; only a call that publishes begins to ring. -/
structure Does (cfg : Setting) (side : Side) (loud : Bool) (s s' : Shared) : Prop where
  acts : Acts cfg side s s'
  silent : loud = false → s'.ringing side.produces = s.ringing side.produces

section

variable {cfg : Setting} {ring : Ring} {i j : Nat}

lemma index_succ (cfg : Setting) (ring : Ring) (i : Nat) :
    cfg.index ring i + 1 = cfg.index ring (i + 1) := by
  rw [Setting.index, Setting.index, ← Nat.add_assoc]
  exact BitVec.ofNat_add_ofNat (cfg.start ring + i) 1

lemma index_sub (hle : i ≤ j) :
    cfg.index ring j - cfg.index ring i = BitVec.ofNat 32 (j - i) := by
  apply BitVec.eq_of_toNat_eq
  rw [Setting.index, Setting.index, BitVec.toNat_sub, BitVec.toNat_ofNat, BitVec.toNat_ofNat,
    BitVec.toNat_ofNat]
  omega

lemma entries_lt (cfg : Setting) : cfg.layout.entries < 2 ^ 32 :=
  cfg.layout.inRange.2.1.trans_lt (by decide)

lemma slot_index (cfg : Setting) (ring : Ring) (i : Nat) :
    cfg.layout.slot (cfg.index ring i) = cfg.slot ring i :=
  RingLayout.slot_ofNat _ _

lemma slot_ne (hlt : i < j) (hnear : j < i + cfg.layout.entries) :
    cfg.slot ring i ≠ cfg.slot ring j := by
  intro heq
  have hmod : (cfg.start ring + j - (cfg.start ring + i)) % cfg.layout.entries = 0 :=
    Nat.sub_mod_eq_zero_of_mod_eq heq.symm
  rw [Nat.add_sub_add_left, Nat.mod_eq_of_lt (by omega)] at hmod
  omega

end

variable {place : Place} {slot : Nat}

section

variable {cfg : Setting} {s s' : Shared} {ring : Ring} {i : Nat}

def entryOf : Place → Option (Ring × Nat)
  | .submission slot _ => some (.submissions, slot)
  | .completion slot _ => some (.completions, slot)
  | .tail _ | .head _ | .wantBell _ => none

variable {word : (place : Place) × Word place}

lemma entryOf_rawSubmission {raw : RawSubmission} (hw : word ∈ raw.words slot) :
    entryOf word.1 = some (.submissions, slot) := by
  simp only [RawSubmission.words, mem_cons, not_mem_nil, or_false] at hw
  rcases hw with rfl | rfl | rfl | rfl | rfl | rfl | rfl <;> rfl

lemma entryOf_rawCompletion {raw : RawCompletion} (hw : word ∈ raw.words slot) :
    entryOf word.1 = some (.completions, slot) := by
  simp only [RawCompletion.words, mem_cons, not_mem_nil, or_false] at hw
  rcases hw with rfl | rfl | rfl | rfl <;> rfl

lemma entryOf_words (hw : word ∈ s.words cfg ring i) :
    entryOf word.1 = some (ring, cfg.slot ring i) := by
  cases ring with
  | submissions =>
    rw [Shared.words] at hw
    cases hsent : s.sent[i]? with
    | none => simp [hsent] at hw
    | some submission =>
      rw [hsent] at hw
      exact entryOf_rawSubmission hw
  | completions =>
    rw [Shared.words] at hw
    cases hanswer : s.answers[i]? with
    | none => simp [hanswer] at hw
    | some b =>
      rw [hanswer] at hw
      exact entryOf_rawCompletion hw

lemma has_update {words : List ((place : Place) × Word place)} {v : Word place}
    (hmemory : s'.memory = update s.memory place v) (hhas : Has view words s)
    (helse : ∀ word ∈ words, entryOf word.1 ≠ entryOf place) : Has view words s' := by
  intro word hw
  change s'.memory word.1 = word.2
  have hne : word.1 ≠ place := fun h => helse word hw (congrArg entryOf h)
  rw [hmemory, update_of_ne hne]
  exact hhas word hw

lemma Inv.staged_le (hinv : Inv cfg s) (ring : Ring) :
    s.staged ring ≤ s.heads ring + cfg.layout.entries := by
  have h1 := hinv.taken .completions
  have h2 := hinv.visible .completions
  have h3 := hinv.answered
  have h4 := hinv.taken .submissions
  have h5 := hinv.visible .submissions
  have h6 := hinv.room
  cases ring <;> simp only [Shared.staged] at * <;> omega

end

variable {ring : Ring}

variable {cfg : Setting} {side : Side} {loud : Bool} {s : Shared} {i : Nat}

lemma Fills.refl (s : Shared) (ring : Ring) : Fills s s ring :=
  ⟨rfl, rfl, rfl, rfl, le_rfl, fun _ h => h⟩

lemma Takes.refl (s : Shared) (ring : Ring) : Takes s s ring := ⟨rfl, rfl, rfl, le_rfl⟩

lemma Respects.refl (side : Side) (s : Shared) : Respects side s s := by
  cases side
  · exact ⟨rfl, rfl, rfl, prefix_rfl, rfl, fun _ _ => rfl⟩
  · exact ⟨rfl, rfl, prefix_rfl, rfl, fun _ _ => rfl⟩

lemma Does.refl (hinv : Inv cfg s) : Does cfg side loud s s :=
  ⟨⟨hinv, .refl s _, .refl s _, .refl side s⟩, fun _ => rfl⟩

lemma memory_write (s : Shared) (place : Place) (word : Word place) :
    (view.write s place word).memory = update s.memory place word :=
  view.look_write s place word

lemma heads_write (s : Shared) (ring : Ring) (word : BitVec 32) :
    (view.write s (.head ring) word).heads = update s.heads ring (s.heads ring + 1) := rfl

lemma memory_write_of_ne {other : Place} (hne : other ≠ place) (word : Word place) :
    (view.write s place word).memory other = s.memory other := by
  rw [memory_write, update_of_ne hne]

lemma respects_header (word : Word place) (hp : entryOf place = none) (side : Side) :
    Respects side s (view.write s place word) := by
  have he : ∀ o, entryOf o ≠ none → (view.write s place word).memory o = s.memory o := fun o ho =>
    memory_write_of_ne (fun h => ho (by rw [h, hp])) word
  cases place with
  | submission | completion => cases hp
  | tail ring | head ring | wantBell ring =>
    cases side
    · exact ⟨rfl, rfl, rfl, prefix_rfl, rfl, fun _ _ => he _ (by simp [entryOf])⟩
    · exact ⟨rfl, rfl, prefix_rfl, rfl, fun _ _ => he _ (by simp [entryOf])⟩

lemma filled_header (word : Word place) (hp : entryOf place = none) (hinv : Inv cfg s)
    (hi : s.heads ring ≤ i) :
    Has view (s.words cfg ring i) (view.write s place word) := by
  refine has_update (memory_write s place word) (hinv.filled ring i hi) fun o ho => ?_
  rw [entryOf_words ho, hp]
  simp

lemma consumes_ne_produces (side : Side) : side.consumes ≠ side.produces := by
  cases side <;> decide

lemma words_of_staged_le (hle : s.staged ring ≤ i) : s.words cfg ring i = [] := by
  cases ring with
  | submissions | completions => rw [Shared.words, List.getElem?_eq_none hle, Option.elim_none]

lemma write_entry (he : entryOf place = some (ring, slot)) (word : Word place) :
    view.write s place word = { s with memory := update s.memory place word } := by
  cases place with
  | submission | completion => rfl
  | tail | head | wantBell => cases he

lemma has_concat {α : Type} {entries : List α} {e : α}
    {words : α → List ((place : Place) × Word place)}
    (hold : Has view (entries[i]?.elim [] words) s)
    (hnew : i = entries.length → Has view (words e) s) :
    Has view ((entries ++ [e])[i]?.elim [] words) s := by
  rcases Nat.lt_trichotomy i entries.length with hlt | heq | hgt
  · rwa [List.getElem?_append_left hlt]
  · rw [heq, List.getElem?_concat_length]
    exact hnew heq
  · rw [List.getElem?_eq_none (by simp; omega)]
    exact forall_mem_nil _

variable (hinv : Inv cfg s)
include hinv

lemma Inv.tail (ring : Ring) :
    Inv cfg (view.write s (.tail ring) (cfg.index ring (s.staged ring))) := by
  refine { hinv with
    tails := fun o => ?_
    indices := fun o => ?_
    taken := ?_
    visible := ?_
    filled := fun o i hi => filled_header _ rfl hinv hi
    wake := fun o hasleep => ?_ }
  · rcases eq_or_ne o ring with rfl | hne
    · rw [memory_write, update_self]
      change _ = cfg.index o (update s.published o _ o)
      rw [update_self]
    · rw [memory_write_of_ne (by simpa using hne)]
      change _ = cfg.index o (update s.published ring _ o)
      rw [update_of_ne hne]
      exact hinv.tails o
  · rw [memory_write_of_ne (by simp)]
    exact hinv.indices o
  · exact (forall_update_iff s.published fun o n => s.heads o ≤ n).mpr
      ⟨(hinv.taken ring).trans (hinv.visible ring), fun o _ => hinv.taken o⟩
  · exact (forall_update_iff s.published fun o n => n ≤ s.staged o).mpr
      ⟨le_rfl, fun o _ => hinv.visible o⟩
  · obtain ⟨hasks, hawake⟩ := hinv.wake o hasleep
    refine ⟨hasks, ?_⟩
    rcases eq_or_ne o ring with rfl | hne
    · exact .inr (.inr (update_self _ _ _))
    · change s.heads o = update s.published ring _ o ∨ _ ∨ update s.ringing ring true o = true
      rw [update_of_ne hne, update_of_ne hne]
      exact hawake

lemma does_tail (side : Side) : Does cfg side true s (view.write s (.tail side.produces)
      (cfg.index side.produces (s.staged side.produces))) := by
  have hne := consumes_ne_produces side
  refine ⟨⟨hinv.tail _, ⟨rfl, ?_, ?_, rfl, ?_, fun _ _ => ?_⟩, ⟨?_, ?_, ?_, le_rfl⟩,
    respects_header _ rfl side⟩, nofun⟩
  · exact memory_write_of_ne (by simp) _
  · exact memory_write_of_ne (by simp) _
  · change _ ≤ update s.published _ _ _
    rw [update_self]
    exact hinv.visible _
  · exact .inr (.inr (update_self _ _ _))
  · exact update_of_ne hne _ _
  · exact update_of_ne hne _ _
  · exact memory_write_of_ne (by simpa using hne) _

lemma does_look (side : Side) : Does cfg side true s (view.read s (.wantBell side.produces)) := by
  have hne := consumes_ne_produces side
  change Does cfg side true s (if asks (s.memory (.wantBell side.produces)) then s
    else { s with ringing := update s.ringing side.produces false })
  split_ifs with hasks
  · exact Does.refl hinv
  · refine ⟨⟨{ hinv with wake := ?_ }, ⟨rfl, rfl, rfl, rfl, le_rfl, fun h => absurd h hasks⟩,
      ⟨rfl, update_of_ne hne _ _, rfl, le_rfl⟩, ?_⟩, nofun⟩
    · intro ring hasleep
      obtain ⟨hasks', hawake⟩ := hinv.wake ring hasleep
      refine ⟨hasks', ?_⟩
      have ho : ring ≠ side.produces := by
        rintro rfl
        exact hasks hasks'
      change s.heads ring = s.published ring ∨ _ ∨ update s.ringing side.produces false ring = true
      rw [update_of_ne ho]
      exact hawake
    · have hrefl := Respects.refl side s
      cases side <;> exact hrefl

lemma Inv.head (hlt : s.heads ring < s.published ring) :
    Inv cfg (view.write s (.head ring) (cfg.index ring (s.heads ring + 1))) := by
  have hgrows : ∀ o, s.heads o ≤ update s.heads ring (s.heads ring + 1) o :=
    (forall_update_iff s.heads fun o n => s.heads o ≤ n).mpr ⟨Nat.le_succ _, fun _ _ => le_rfl⟩
  refine { hinv with
    tails := fun o => ?_
    indices := fun o => ?_
    taken := ?_
    answered := hinv.answered.trans (hgrows .submissions)
    room := hinv.room.trans (Nat.add_le_add_right (hgrows .completions) _)
    filled := fun o i hi => filled_header _ rfl hinv ((hgrows o).trans hi)
    drawn := hinv.drawn.trans (take_sublist_take_left (hgrows .submissions)).subperm
    wake := fun o hasleep => ?_ }
  · rw [memory_write_of_ne (by simp)]
    exact hinv.tails o
  · rcases eq_or_ne o ring with rfl | hne
    · rw [memory_write, update_self]
      change _ = cfg.index o (update s.heads o _ o)
      rw [update_self]
    · rw [memory_write_of_ne (by simpa using hne)]
      change _ = cfg.index o (update s.heads ring _ o)
      rw [update_of_ne hne]
      exact hinv.indices o
  · exact (forall_update_iff s.heads fun o n => n ≤ s.published o).mpr
      ⟨hlt, fun o _ => hinv.taken o⟩
  · obtain ⟨hasks, hawake⟩ := hinv.wake o hasleep
    refine ⟨hasks, ?_⟩
    rcases eq_or_ne o ring with rfl | hne
    · rcases hawake with h | h
      · omega
      · exact .inr h
    · change update s.heads ring _ o = s.published o ∨ _
      rw [update_of_ne hne]
      exact hawake

lemma does_head (side : Side) (loud : Bool)
    (hlt : s.heads side.consumes < s.published side.consumes) :
    Does cfg side loud s (view.write s (.head side.consumes)
      (cfg.index side.consumes (s.heads side.consumes + 1))) := by
  have hne := (consumes_ne_produces side).symm
  refine ⟨⟨hinv.head hlt, ⟨?_, ?_, ?_, rfl, le_rfl, fun _ hawake => ?_⟩, ⟨rfl, rfl, ?_, ?_⟩,
    respects_header _ rfl side⟩, fun _ => rfl⟩
  · exact update_of_ne hne _ _
  · exact memory_write_of_ne (by simpa using hne) _
  · exact memory_write_of_ne (by simp) _
  · change update s.heads _ _ _ = _ ∨ _
    rw [update_of_ne hne]
    exact hawake
  · exact memory_write_of_ne (by simp) _
  · change _ ≤ update s.heads _ _ _
    rw [update_self]
    exact Nat.le_succ _

lemma Inv.wantBell (hawake : s.asleep ring = false) (word : BitVec 32) :
    Inv cfg (view.write s (.wantBell ring) word) := by
  refine { hinv with
    tails := fun o => ?_
    indices := fun o => ?_
    filled := fun o i hi => filled_header _ rfl hinv hi
    wake := fun o hasleep => ?_ }
  · rw [memory_write_of_ne (by simp)]
    exact hinv.tails o
  · rw [memory_write_of_ne (by simp)]
    exact hinv.indices o
  · have hne : o ≠ ring := by
      rintro rfl
      exact absurd (hasleep.symm.trans hawake) (by simp)
    obtain ⟨hasks, hwoken⟩ := hinv.wake o hasleep
    rw [memory_write_of_ne (by simpa using hne)]
    refine ⟨hasks, ?_⟩
    change _ ∨ (if asks word then update s.rung ring false else s.rung) o = true ∨ _
    split_ifs
    · rw [update_of_ne hne]
      exact hwoken
    · exact hwoken

lemma does_wantBell (side : Side) (loud : Bool)
    (hawake : s.asleep side.consumes = false) (word : BitVec 32) :
    Does cfg side loud s (view.write s (.wantBell side.consumes) word) := by
  have hne := (consumes_ne_produces side).symm
  refine ⟨⟨hinv.wantBell hawake word, ⟨rfl, ?_, ?_, rfl, le_rfl, fun _ hwoken => ?_⟩,
    ⟨rfl, rfl, ?_, le_rfl⟩, respects_header _ rfl side⟩, fun _ => rfl⟩
  · exact memory_write_of_ne (by simp) _
  · exact memory_write_of_ne (by simpa using hne) _
  · change _ ∨ (if asks word then update s.rung side.consumes false else s.rung) _ = true ∨ _
    split_ifs
    · rw [update_of_ne hne]
      exact hwoken
    · exact hwoken
  · exact memory_write_of_ne (by simp) _

lemma does_entry (word : Word place)
    (hentry : entryOf place = some (side.produces, cfg.slot side.produces (s.staged side.produces)))
    (hroom : s.staged side.produces < s.heads side.produces + cfg.layout.entries) :
    Does cfg side false s (view.write s place word) := by
  have hheader : ∀ other, entryOf other ≠ some (side.produces,
      cfg.slot side.produces (s.staged side.produces)) →
      (view.write s place word).memory other = s.memory other := fun other hother =>
    memory_write_of_ne (fun h => hother (by rw [h, hentry])) word
  have hfilled : ∀ ring i, s.heads ring ≤ i →
      Has view (s.words cfg ring i) (view.write s place word) := by
    intro ring i hi
    refine has_update (memory_write s place word) (hinv.filled ring i hi) fun other hother => ?_
    rw [entryOf_words hother, hentry]
    intro heq
    obtain ⟨rfl, hslot⟩ := Prod.mk.inj (Option.some.inj heq)
    rcases lt_or_ge i (s.staged side.produces) with hlt | hge
    · exact slot_ne hlt (by omega) hslot
    · rw [words_of_staged_le hge] at hother
      cases hother
  have hstate := write_entry (s := s) hentry word
  rw [hstate] at hheader hfilled ⊢
  refine ⟨⟨{ hinv with
      tails := fun ring => ?_
      indices := fun ring => ?_
      filled := hfilled
      wake := fun ring hasleep => ?_ },
    ⟨rfl, hheader _ (by simp [entryOf]), hheader _ (by simp [entryOf]), rfl, le_rfl, fun _ h => h⟩,
    ⟨rfl, rfl, hheader _ (by simp [entryOf]), le_rfl⟩, ?_⟩, fun _ => rfl⟩
  · exact (hheader _ (by simp [entryOf])).trans (hinv.tails ring)
  · exact (hheader _ (by simp [entryOf])).trans (hinv.indices ring)
  · refine ⟨?_, (hinv.wake ring hasleep).2⟩
    rw [hheader _ (by simp [entryOf])]
    exact (hinv.wake ring hasleep).1
  · cases side with
    | kernel =>
      exact ⟨rfl, rfl, rfl, prefix_rfl, rfl,
        fun _ _ => hheader _ (by simp [entryOf, Side.produces])⟩
    | driver =>
      exact ⟨rfl, rfl, prefix_rfl, rfl, fun _ _ => hheader _ (by simp [entryOf, Side.produces])⟩

end Ferrix.BlockRing.SharedRing

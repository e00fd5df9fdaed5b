import Ferrix.Locks.Records

/-!
`fcntl`'s record-lock commands, `flock`, the close of a descriptor and the death of an owner, over
both tables.
-/

namespace Ferrix.Locks.LockCalls

open List Relation Records Function

section

inductive Errno where
  | badf
  | inval
  | overflow
  | again
  | nolck
deriving DecidableEq

inductive Kind where
  | rdlck
  | wrlck
  | unlck
  | other
deriving DecidableEq

inductive Whence where
  | set
  | cur
  | fin
  | other
deriving DecidableEq

structure Flock where
  kind : Kind
  whence : Whence
  start : Int
  len : Int
  pid : Int
deriving DecidableEq

/-- What a lock call reads of an open file; `offset` is where a seek says it is, if it can. -/
structure OpenFile where
  key : Key
  readable : Bool
  writable : Bool
  offset : Option Nat
  size : Nat

def checkedAdd (a b : Int) (err : Errno) : Except Errno Int :=
  if -2 ^ 63 ≤ a + b ∧ a + b < 2 ^ 63 then .ok (a + b) else .error err

/-- The bytes from `start` on for a positive length, before it for a negative one, to the end of the
file for 0. -/
def span (start len : Int) : Except Errno (Nat × Nat) :=
  if start < 0 then .error .inval
  else if len = 0 then .ok (start.toNat, offsetMax)
  else if 0 < len then do
    let last ← checkedAdd start (len - 1) .overflow
    .ok (start.toNat, last.toNat)
  else do
    let first ← checkedAdd start len .inval
    if first < 0 then .error .inval else .ok (first.toNat, (start - 1).toNat)

def base (file : OpenFile) : Whence → Except Errno Int
  | .set => .ok 0
  | .cur => .ok ((file.offset.filter (· ≤ offsetMax)).getD 0 : Nat)
  | .fin => .ok (min file.size offsetMax : Nat)
  | .other => .error .inval

def range (file : OpenFile) (flock : Flock) : Except Errno (Nat × Nat) := do
  let start ← checkedAdd (← base file flock.whence) flock.start .overflow
  span start flock.len

structure Holder where
  key : Key
  owner : Nat
  exclusive : Bool

/-- `RECORDS`, `HOLDERS` and which owners still exist. -/
structure State where
  records : List Record
  holders : List Holder
  alive : Ref → Bool

def boot : State := ⟨[], [], fun _ => true⟩

variable (s : State) (file : OpenFile) (owner : Owner) (flock : Flock) (ofd : Bool)

def wanted : Kind → Except Errno (Option Bool)
  | .rdlck => if file.readable then .ok (some false) else .error .badf
  | .wrlck => if file.writable then .ok (some true) else .error .badf
  | .unlck => .ok none
  | .other => .error .inval

/-- What `set_lock` checks before it looks at the table; `charged` is how many records may still be
charged to the caller's job. -/
def checked (charged : Nat) : Except Errno (Option Bool × Nat × Nat) := do
  let bytes ← range file flock
  let mode ← wanted file flock.kind
  if ofd ∧ flock.pid ≠ 0 then .error .inval
  else if charged < 1 + mode.toList.length then .error .nolck
  else .ok (mode, bytes)

def State.place (key : Key) (exclusive : Bool) (start last : Nat) : Bool × State :=
  let (placed, records) := Records.place key owner exclusive start last s.alive s.records
  (placed, { s with records })

def State.setLock (charged : Nat) : Except Errno Unit × State :=
  match checked file flock ofd charged with
  | .error err => (.error err, s)
  | .ok (none, start, last) =>
    (.ok (), { s with records := carve file.key owner start last s.records })
  | .ok (some exclusive, start, last) =>
    let (placed, s') := s.place owner file.key exclusive start last
    (if placed then .ok () else .error .again, s')

def pid (showPid : Nat → Nat) : Owner → Int
  | .table _ pid =>
    if pid < 2 ^ 31 then (if showPid pid < 2 ^ 31 then showPid pid else 0) else -1
  | .description _ => -1

/-- The lock that stops a request, described in a `struct flock` of 64-bit or 32-bit offsets. -/
def describe (wide : Bool) (showPid : Nat → Nat) (r : Record) : Except Errno Flock :=
  if !wide ∧ (2 ^ 31 - 1 < r.start ∨ r.last ≠ offsetMax ∧ 2 ^ 31 - 1 < r.last) then
    .error .overflow
  else .ok
    { kind := if r.exclusive then .wrlck else .rdlck
      whence := .set
      start := r.start
      len := if r.last = offsetMax then 0 else r.last - r.start + 1
      pid := pid showPid r.owner }

def Kind.probe : Kind → Except Errno Bool
  | .rdlck => .ok false
  | .wrlck => .ok true
  | _ => .error .inval

def asked : Except Errno (Bool × Nat × Nat) := do
  let exclusive ← flock.kind.probe
  let bytes ← range file flock
  if ofd ∧ flock.pid ≠ 0 then .error .inval else .ok (exclusive, bytes)

def State.getLock (wide : Bool) (showPid : Nat → Nat) : Except Errno Flock × State :=
  match asked file flock ofd with
  | .error err => (.error err, s)
  | .ok (exclusive, start, last) =>
    let records := s.records.filter (s.alive ·.owner.ref)
    (match records.find? (·.conflicts file.key owner exclusive start last) with
      | none => .ok { flock with kind := .unlck }
      | some r => describe wide showPid r, { s with records })

def State.closed (table : Nat) (key : Key) : State :=
  { s with
    records := s.records.filter fun r =>
      s.alive r.owner.ref && !(r.owner.ref == .table table && r.key == key) }

def State.die (ref : Ref) : State := { s with alive := update s.alive ref false }

/-- The end of `attempt`: the mode is taken if no holder left in the table conflicts. -/
def State.take (key : Key) (owner : Nat) (exclusive : Bool) (holders : List Holder) :
    Bool × State :=
  if holders.any fun h => h.key == key && (exclusive || h.exclusive) then
    (false, { s with holders })
  else (true, { s with holders := holders ++ [⟨key, owner, exclusive⟩] })

def State.attempt (key : Key) (owner : Nat) (exclusive : Bool) : Bool × State :=
  let holders := s.holders.filter (s.alive <| .description ·.owner)
  match holders.findIdx? (·.owner == owner) with
  | none => s.take key owner exclusive holders
  | some i =>
    if (holders[i]?.map (·.exclusive)) = some exclusive then (true, { s with holders })
    else s.take key owner exclusive (swapRemove holders i)

def State.release (owner : Nat) : State :=
  { s with
    holders := s.holders.filter fun h => s.alive (.description h.owner) && !(h.owner == owner) }

inductive Step (s : State) : State → Prop
  | set (file : OpenFile) (owner : Owner) (flock : Flock) (ofd : Bool) (charged : Nat)
      (halive : s.alive owner.ref = true) : Step s (s.setLock file owner flock ofd charged).2
  | retry (owner : Owner) (key : Key) (exclusive : Bool) (start last : Nat) (hle : start ≤ last)
      (hmax : last ≤ offsetMax) (halive : s.alive owner.ref = true) :
      Step s (s.place owner key exclusive start last).2
  | get (file : OpenFile) (owner : Owner) (flock : Flock) (ofd wide : Bool) (showPid : Nat → Nat) :
      Step s (s.getLock file owner flock ofd wide showPid).2
  | close (table : Nat) (key : Key) : Step s (s.closed table key)
  | die (ref : Ref) : Step s (s.die ref)
  | flock (key : Key) (owner : Nat) (exclusive : Bool) : Step s (s.attempt key owner exclusive).2
  | unlock (owner : Nat) : Step s (s.release owner)

end

/-- The table as a map: how a live owner holds a byte of a file. -/
def State.locks (s : State) (key : Key) (ref : Ref) (byte : Nat) : Option Bool :=
  if s.alive ref then
    (s.records.find? fun r =>
      r.key == key && r.owner.ref == ref && r.start ≤ byte && byte ≤ r.last).map (·.exclusive)
  else none

def State.Conflict (s : State) (key : Key) (ref : Ref) (exclusive : Bool) (start last : Nat) :
    Prop :=
  ∃ other byte held, other ≠ ref ∧ start ≤ byte ∧ byte ≤ last ∧
    s.locks key other byte = some held ∧ (exclusive = true ∨ held = true)

variable {s : State} {key : Key} {ref : Ref} {byte start last : Nat} {e exclusive : Bool}
  {owner : Owner}

def Shares (alive : Ref → Bool) (a b : Holder) : Prop :=
  alive (.description a.owner) = true → alive (.description b.owner) = true → a.key = b.key →
    a.exclusive = false ∧ b.exclusive = false

lemma Shares.symm {alive : Ref → Bool} {a b : Holder} (h : Shares alive a b) : Shares alive b a :=
  fun ha hb hk => (h hb ha hk.symm).symm

structure Inv (s : State) : Prop where
  tidy : Tidy s.records
  agree : ∀ key a b byte e e', s.alive a = true → s.alive b = true → a ≠ b →
    Covers s.records key a e byte → Covers s.records key b e' byte → e = false ∧ e' = false
  holders : s.holders.Pairwise (Shares s.alive)

lemma locks_eq_some (h : Tidy s.records) : s.locks key ref byte = some e ↔
    s.alive ref = true ∧ Covers s.records key ref e byte := by
  rw [State.locks]
  split_ifs with halive
  · rw [and_iff_right halive, Option.map_eq_some_iff]
    constructor
    · rintro ⟨r, hr, rfl⟩
      have hp := find?_some hr
      simp only [Bool.and_eq_true, beq_iff_eq, decide_eq_true_eq] at hp
      exact ⟨r, mem_of_find?_eq_some hr, hp.1.1.1, hp.1.1.2, rfl, hp.1.2, hp.2⟩
    · rintro ⟨r, hr, hc⟩
      cases hfind : s.records.find? fun r =>
          r.key == key && r.owner.ref == ref && r.start ≤ byte && byte ≤ r.last with
      | none =>
        have := find?_eq_none.1 hfind r hr
        simp [hc.1, hc.2.1, hc.2.2.2] at this
      | some r' =>
        have hp := find?_some hfind
        simp only [Bool.and_eq_true, beq_iff_eq, decide_eq_true_eq] at hp
        refine ⟨r', rfl, h.unique ⟨r', mem_of_find?_eq_some hfind, hp.1.1.1, hp.1.1.2, rfl,
          hp.1.2, hp.2⟩ ⟨r, hr, hc⟩⟩
  · simp [halive]

lemma covers_filter {p : Record → Bool} : Covers (s.records.filter p) key ref e byte ↔
    ∃ r ∈ s.records, p r = true ∧ r.key = key ∧ r.owner.ref = ref ∧ r.exclusive = e ∧
      r.start ≤ byte ∧ byte ≤ r.last := by
  simp only [Covers, mem_filter, and_assoc]

lemma covers_live (ha : s.alive ref = true) :
    Covers (s.records.filter (s.alive ·.owner.ref)) key ref e byte ↔
      Covers s.records key ref e byte := by
  rw [covers_filter]
  refine exists_congr fun r => and_congr_right fun _ => and_iff_right_of_imp fun h => ?_
  rw [h.2.1, ha]

lemma conflict_iff (h : Tidy s.records) (hle : start ≤ last) :
    s.Conflict key owner.ref exclusive start last ↔ ∃ r ∈ s.records.filter (s.alive ·.owner.ref),
        r.conflicts key owner exclusive start last = true := by
  simp only [State.Conflict, locks_eq_some h, mem_filter, Record.conflicts, Owner.same,
    Bool.and_eq_true, Bool.or_eq_true, Bool.not_eq_true', beq_iff_eq, beq_eq_false_iff_ne,
    decide_eq_true_eq]
  constructor
  · rintro ⟨o, byte, held, hne, hstart, hl, ⟨ha, r, hr, hk, rfl, rfl, hf, hend⟩, hmode⟩
    exact ⟨r, ⟨hr, ha⟩, ⟨⟨⟨hk, hne⟩, hf.trans hl⟩, hstart.trans hend⟩, hmode⟩
  · rintro ⟨r, ⟨hr, ha⟩, ⟨⟨⟨hk, hne⟩, hf⟩, hend⟩, hmode⟩
    have := (h.bounded r hr).1
    exact ⟨r.owner.ref, max start r.start, r.exclusive, hne, by omega, by omega,
      ⟨ha, r, hr, hk, rfl, rfl, by omega, by omega⟩, hmode⟩

variable {s' : State} {k : Key} {charged : Nat} {ofd : Bool} {file : OpenFile} {flock : Flock}
  {mode : Option Bool}

lemma exists_of_bind_eq_ok {ε α β : Type} {x : Except ε α} {f : α → Except ε β} {y : β}
    (h : x >>= f = .ok y) : ∃ a, x = .ok a ∧ f a = .ok y := by
  cases x with
  | error err => cases h
  | ok a => exact ⟨a, rfl, h⟩

lemma checkedAdd_eq_ok {a b c : Int} {err : Errno} (h : checkedAdd a b err = .ok c) :
    c = a + b ∧ c < 2 ^ 63 := by
  rw [checkedAdd] at h
  split_ifs at h with hin
  cases h
  exact ⟨rfl, hin.2⟩

lemma span_bounded {at' len : Int} (hmax : at' < 2 ^ 63) (h : span at' len = .ok (start, last)) :
    start ≤ last ∧ last ≤ offsetMax := by
  rw [span] at h
  split_ifs at h with hneg hzero hpos
  · cases h
    rw [offsetMax]
    omega
  · obtain ⟨c, hc, h⟩ := exists_of_bind_eq_ok h
    obtain ⟨rfl, hlt⟩ := checkedAdd_eq_ok hc
    cases h
    rw [offsetMax]
    omega
  · obtain ⟨c, hc, h⟩ := exists_of_bind_eq_ok h
    obtain ⟨rfl, -⟩ := checkedAdd_eq_ok hc
    split_ifs at h
    cases h
    rw [offsetMax]
    omega

lemma range_bounded (h : range file flock = .ok (start, last)) :
    start ≤ last ∧ last ≤ offsetMax := by
  obtain ⟨from', -, h⟩ := exists_of_bind_eq_ok h
  obtain ⟨c, hc, h⟩ := exists_of_bind_eq_ok h
  exact span_bounded (checkedAdd_eq_ok hc).2 h

lemma checked_bounded (h : checked file flock ofd charged = .ok (mode, start, last)) :
    start ≤ last ∧ last ≤ offsetMax := by
  obtain ⟨bs, hr, h⟩ := exists_of_bind_eq_ok h
  obtain ⟨mode', -, h⟩ := exists_of_bind_eq_ok h
  split_ifs at h
  cases h
  exact range_bounded hr

lemma asked_bounded (h : asked file flock ofd = .ok (exclusive, start, last)) :
    start ≤ last ∧ last ≤ offsetMax := by
  obtain ⟨mode, -, h⟩ := exists_of_bind_eq_ok h
  obtain ⟨bs, hr, h⟩ := exists_of_bind_eq_ok h
  split_ifs at h
  cases h
  exact range_bounded hr

lemma inv_of_covers (h : Inv s) (htidy : Tidy s'.records)
    (hc : ∀ k ref e byte, Covers s'.records k ref e byte → Covers s.records k ref e byte)
    (hholders : s'.holders = s.holders) (halive : ∀ ref, s'.alive ref = true → s.alive ref = true) :
    Inv s' := by
  refine ⟨htidy, ?_, ?_⟩
  · intro key a b byte e e' ha hb hne hcover hcover'
    exact h.agree key a b byte e e' (halive a ha) (halive b hb) hne (hc _ _ _ _ hcover)
      (hc _ _ _ _ hcover')
  · rw [hholders]
    exact h.holders.imp fun h ha hb => h (halive _ ha) (halive _ hb)

lemma inv_filter (h : Inv s) (p : Record → Bool) :
    Inv { s with records := s.records.filter p } := by
  refine inv_of_covers h (h.tidy.filter p) ?_ rfl fun _ => id
  rintro k ref e byte ⟨r, hr, hc⟩
  exact ⟨r, (mem_filter.1 hr).1, hc⟩

lemma locks_sweep (h : Inv s) :
    State.locks { s with records := s.records.filter (s.alive ·.owner.ref) } = s.locks := by
  funext k ref byte
  refine Option.ext fun e => ?_
  rw [locks_eq_some (h.tidy.filter _), locks_eq_some h.tidy]
  exact and_congr_right fun ha => covers_live ha

/-- A request for `mode`, none to unlock, was met or refused as it should be: refused exactly when
another live owner conflicts on a byte of the range, and then nothing changed; met by a change of
exactly the owner's bytes of the range. -/
def Served (s s' : State) (key : Key) (ref : Ref) (mode : Option Bool) (start last : Nat)
    (met : Bool) : Prop :=
  (met = false ↔ ∃ exclusive, mode = some exclusive ∧ s.Conflict key ref exclusive start last) ∧
    ∀ k r byte, s'.locks k r byte =
      if met = true ∧ k = key ∧ r = ref ∧ start ≤ byte ∧ byte ≤ last then mode
      else s.locks k r byte

lemma agree_place {placed : List Record} (h : Inv s)
    (hf : ¬ s.Conflict key owner.ref exclusive start last)
    (hc : ∀ k r e byte, s.alive r = true → (Covers placed k r e byte ↔
      if k = key ∧ r = owner.ref ∧ start ≤ byte ∧ byte ≤ last then exclusive = e
      else Covers s.records k r e byte)) (k : Key) (a b : Ref) (byte : Nat) (e e' : Bool)
    (ha : s.alive a = true) (hb : s.alive b = true) (hne : a ≠ b)
    (hcover : Covers placed k a e byte) (hcover' : Covers placed k b e' byte) :
    e = false ∧ e' = false := by
  have ho : ∀ r e, r ≠ owner.ref → s.alive r = true → k = key → start ≤ byte → byte ≤ last →
      Covers s.records k r e byte → exclusive = false ∧ e = false := by
    rintro r e hr hlive rfl hstart hl hc
    by_contra hmode
    refine hf ⟨r, byte, e, hr, hstart, hl, (locks_eq_some h.tidy).2 ⟨hlive, hc⟩, ?_⟩
    cases exclusive <;> cases e <;> simp_all
  rw [hc k a e byte ha] at hcover
  rw [hc k b e' byte hb] at hcover'
  split_ifs at hcover hcover' with hin hin' hin'
  · exact absurd (hin.2.1.trans hin'.2.1.symm) hne
  · subst hcover
    exact ho b e' (hin.2.1 ▸ hne.symm) hb hin.1 hin.2.2.1 hin.2.2.2 hcover'
  · subst hcover'
    exact (ho a e (hin'.2.1 ▸ hne) ha hin'.1 hin'.2.2.1 hin'.2.2.2 hcover).symm
  · exact h.agree k a b byte e e' ha hb hne hcover hcover'

lemma inv_place (key : Key) (exclusive : Bool) (h : Inv s) (hle : start ≤ last)
    (hmax : last ≤ offsetMax) (ha : s.alive owner.ref = true) :
    Inv (s.place owner key exclusive start last).2 ∧
      Served s (s.place owner key exclusive start last).2 key owner.ref (some exclusive) start last
        (s.place owner key exclusive start last).1 := by
  by_cases hconflict : s.Conflict key owner.ref exclusive start last
  · have hp : s.place owner key exclusive start last =
        (false, { s with records := s.records.filter (s.alive ·.owner.ref) }) := by
      rw [State.place, Records.place,
        if_pos (any_eq_true.2 ((conflict_iff h.tidy hle).1 hconflict))]
    rw [hp]
    refine ⟨inv_filter h _, iff_of_true rfl ⟨exclusive, rfl, hconflict⟩, fun k r byte => ?_⟩
    rw [locks_sweep h, if_neg (fun h => Bool.false_ne_true h.1)]
  · have hf : (s.records.filter (s.alive ·.owner.ref)).any
        (·.conflicts key owner exclusive start last) = false := by
      rw [← Bool.not_eq_true, any_eq_true]
      exact fun h' => hconflict ((conflict_iff h.tidy hle).2 h')
    obtain ⟨placed, heq, htidy, hc⟩ := place_spec h.tidy hle hmax hf
    have hp : s.place owner key exclusive start last = (true, { s with records := placed }) := by
      rw [State.place, heq]
    have hwrites : ∀ k r e byte, s.alive r = true → (Covers placed k r e byte ↔
        if k = key ∧ r = owner.ref ∧ start ≤ byte ∧ byte ≤ last then exclusive = e
        else Covers s.records k r e byte) := by
      intro k r e byte hr
      rw [hc, covers_live hr]
    have hagree := agree_place h hconflict hwrites
    rw [hp]
    refine ⟨⟨htidy, hagree, h.holders⟩, iff_of_false (fun h => by cases h) ?_, ?_⟩
    · rintro ⟨_, ⟨⟩, hno⟩
      exact hconflict hno
    intro k r byte
    refine Option.ext fun e => ?_
    rw [locks_eq_some htidy]
    simp only [true_and]
    split_ifs with hin
    · rw [Option.some.injEq]
      have hr : s.alive r = true := hin.2.1 ▸ ha
      exact (and_iff_right hr).trans (by rw [hwrites k r e byte hr, if_pos hin])
    · rw [locks_eq_some h.tidy]
      exact and_congr_right fun hr => by rw [hwrites k r e byte hr, if_neg hin]

lemma inv_carve (key : Key) (owner : Owner) (h : Inv s) (hle : start ≤ last) :
    Inv { s with records := carve key owner start last s.records } ∧
      Served s { s with records := carve key owner start last s.records } key owner.ref none start
        last true := by
  have htidy := tidy_carve key owner h.tidy hle
  refine ⟨inv_of_covers h htidy (fun _ _ _ _ hc => (covers_carve.1 hc).1) rfl fun _ => id, ?_, ?_⟩
  · simp
  intro k r byte
  refine Option.ext fun e => ?_
  rw [locks_eq_some htidy]
  simp only [true_and]
  split_ifs with hin
  · exact iff_of_false (fun hc => (covers_carve.1 hc.2).2 hin) (fun h => by cases h)
  · rw [locks_eq_some h.tidy]
    exact and_congr_right fun _ => covers_carve.trans (and_iff_left hin)

lemma setLock_error {err : Errno} (hchecked : checked file flock ofd charged = .error err) :
    s.setLock file owner flock ofd charged = (.error err, s) := by
  rw [State.setLock, hchecked]

lemma setLock_ok (h : Inv s) (ha : s.alive owner.ref = true)
    (hchecked : checked file flock ofd charged = .ok (mode, start, last)) :
    Inv (s.setLock file owner flock ofd charged).2 ∧
      ∃ met : Bool, (s.setLock file owner flock ofd charged).1 =
          (if met then .ok () else .error .again) ∧
        Served s (s.setLock file owner flock ofd charged).2 file.key owner.ref mode start last
          met := by
  obtain ⟨hle, hmax⟩ := checked_bounded hchecked
  rw [State.setLock, hchecked]
  cases mode with
  | none =>
    obtain ⟨hi, hserved⟩ := inv_carve file.key owner h hle
    exact ⟨hi, true, rfl, hserved⟩
  | some exclusive =>
    obtain ⟨hi, hserved⟩ := inv_place file.key exclusive h hle hmax ha
    exact ⟨hi, _, rfl, hserved⟩

lemma inv_setLock (h : Inv s) (ha : s.alive owner.ref = true) :
    Inv (s.setLock file owner flock ofd charged).2 := by
  cases hchecked : checked file flock ofd charged with
  | error err => rwa [setLock_error hchecked]
  | ok asked => exact (setLock_ok h ha hchecked).1

lemma inv_getLock (h : Inv s) (wide : Bool) (showPid : Nat → Nat) :
    Inv (s.getLock file owner flock ofd wide showPid).2 ∧
      (s.getLock file owner flock ofd wide showPid).2.locks = s.locks := by
  rw [State.getLock]
  cases asked file flock ofd with
  | error err => exact ⟨h, rfl⟩
  | ok asked => exact ⟨inv_filter h _, locks_sweep h⟩

lemma locks_closed (h : Inv s) (table : Nat) : (s.closed table key).locks k ref byte =
    if ref = .table table ∧ k = key then none else s.locks k ref byte := by
  refine Option.ext fun e => ?_
  rw [locks_eq_some (h.tidy.filter _), State.closed, covers_filter]
  split_ifs with hin
  · refine iff_of_false ?_ (fun h => by cases h)
    rintro ⟨-, r, -, hp, hk, href, -⟩
    simp [href, hk, hin] at hp
  · rw [locks_eq_some h.tidy]
    refine and_congr_right fun hlive => ?_
    refine exists_congr fun r => and_congr_right fun _ => and_iff_right_of_imp ?_
    rintro ⟨hk, href, -⟩
    change s.alive ref = true at hlive
    rw [href, hk, hlive, Bool.true_and, Bool.not_eq_true', Bool.and_eq_false_iff,
      beq_eq_false_iff_ne, beq_eq_false_iff_ne]
    exact not_and_or.1 hin

lemma alive_die {dead : Ref} (h : (s.die dead).alive ref = true) :
    ref ≠ dead ∧ s.alive ref = true := by
  change update s.alive dead false ref = true at h
  rw [update_apply] at h
  split_ifs at h with hne
  exact ⟨hne, h⟩

lemma locks_die (s : State) (dead : Ref) :
    (s.die dead).locks k ref byte = if ref = dead then none else s.locks k ref byte := by
  have ha : (s.die dead).alive ref = if ref = dead then false else s.alive ref :=
    update_apply ..
  rw [State.locks, State.locks, ha]
  by_cases hdead : ref = dead
  · simp only [hdead, ↓reduceIte, Bool.false_eq_true]
  · simp only [hdead, ↓reduceIte]
    rfl

lemma inv_take (h : Inv s) {holders : List Holder} (hshares : holders.Pairwise (Shares s.alive))
    (owner : Nat) : Inv (s.take key owner exclusive holders).2 := by
  rw [State.take]
  split_ifs with hany
  · exact ⟨h.tidy, h.agree, hshares⟩
  · refine ⟨h.tidy, h.agree, pairwise_append.2 ⟨hshares, pairwise_singleton _ _, ?_⟩⟩
    intro a ha b hb _ _ hk
    obtain rfl := mem_singleton.1 hb
    have := any_eq_false.1 (Bool.not_eq_true _ ▸ hany) a ha
    rw [hk] at this
    simpa [and_comm] using this

lemma inv_attempt (h : Inv s) (owner : Nat) : Inv (s.attempt key owner exclusive).2 := by
  have hlive := h.holders.filter (s.alive <| .description ·.owner)
  rw [State.attempt]
  split
  · exact inv_take h hlive owner
  · rename_i i hi
    split_ifs
    · exact ⟨h.tidy, h.agree, hlive⟩
    · obtain ⟨hlt, -⟩ := findIdx?_eq_some_iff_getElem.1 hi
      refine inv_take h ?_ owner
      exact ((swapRemove_perm hlt).symm.pairwise hlive Shares.symm).of_cons

lemma inv_boot : Inv boot :=
  ⟨⟨forall_mem_nil _, Pairwise.nil, Pairwise.nil⟩,
    fun _ _ _ _ _ _ _ _ _ h _ => absurd h.choose_spec.1 not_mem_nil, Pairwise.nil⟩

lemma inv_step (h : Inv s) (hs : Step s s') : Inv s' := by
  cases hs with
  | set file owner flock ofd charged ha => exact inv_setLock h ha
  | retry owner key exclusive start last hle hmax ha => exact (inv_place _ _ h hle hmax ha).1
  | get file owner flock ofd wide showPid => exact (inv_getLock h wide showPid).1
  | close table key => exact inv_filter h _
  | die ref => exact inv_of_covers h h.tidy (fun _ _ _ _ => id) rfl fun _ hr => (alive_die hr).2
  | flock key owner exclusive => exact inv_attempt h owner
  | unlock owner => exact ⟨h.tidy, h.agree, h.holders.filter _⟩

lemma inv_run (hrun : ReflTransGen Step boot s) : Inv s := by
  induction hrun with
  | refl => exact inv_boot
  | tail _ hs ih => exact inv_step ih hs

structure Posix (s : State) : Prop where
  requested : ∀ file owner flock ofd charged mode start last, s.alive owner.ref = true →
    checked file flock ofd charged = .ok (mode, start, last) →
    ∃ met : Bool, (s.setLock file owner flock ofd charged).1 =
        (if met then .ok () else .error .again) ∧
      Served s (s.setLock file owner flock ofd charged).2 file.key owner.ref mode start last met
  rejected : ∀ file owner flock ofd charged err, checked file flock ofd charged = .error err →
    s.setLock file owner flock ofd charged = (.error err, s)
  tried : ∀ owner key exclusive start last, s.alive owner.ref = true → start ≤ last →
    last ≤ offsetMax → Served s (s.place owner key exclusive start last).2 key owner.ref
      (some exclusive) start last (s.place owner key exclusive start last).1
  agree : ∀ key a b byte e e', a ≠ b → s.locks key a byte = some e → s.locks key b byte = some e' →
    e = false ∧ e' = false
  apart : s.records.Pairwise fun a b => a.Disjoint b ∧ a.Apart b
  reported : ∀ file owner flock ofd wide showPid exclusive start last,
    asked file flock ofd = .ok (exclusive, start, last) →
    s.Conflict file.key owner.ref exclusive start last → ∃ r ∈ s.records,
      s.alive r.owner.ref = true ∧ r.conflicts file.key owner exclusive start last = true ∧
        (s.getLock file owner flock ofd wide showPid).1 = describe wide showPid r
  unreported : ∀ file owner flock ofd wide showPid exclusive start last,
    asked file flock ofd = .ok (exclusive, start, last) →
    ¬ s.Conflict file.key owner.ref exclusive start last →
    (s.getLock file owner flock ofd wide showPid).1 = .ok { flock with kind := .unlck }
  asking : ∀ file owner flock ofd wide showPid,
    (s.getLock file owner flock ofd wide showPid).2.locks = s.locks
  closed : ∀ table key k ref byte, (s.closed table key).locks k ref byte =
    if ref = .table table ∧ k = key then none else s.locks k ref byte
  died : ∀ dead k ref byte, (s.die dead).locks k ref byte =
    if ref = dead then none else s.locks k ref byte
  shared : s.holders.Pairwise (Shares s.alive)

section

variable {file : OpenFile} {owner : Owner} {flock : Flock} {ofd exclusive : Bool} {start last : Nat}

lemma getLock_spec (h : Inv s) (wide : Bool) (showPid : Nat → Nat)
    (hasked : asked file flock ofd = .ok (exclusive, start, last)) :
    (s.Conflict file.key owner.ref exclusive start last → ∃ r ∈ s.records,
      s.alive r.owner.ref = true ∧ r.conflicts file.key owner exclusive start last = true ∧
        (s.getLock file owner flock ofd wide showPid).1 = describe wide showPid r) ∧
    (¬ s.Conflict file.key owner.ref exclusive start last →
      (s.getLock file owner flock ofd wide showPid).1 = .ok { flock with kind := .unlck }) := by
  rw [conflict_iff h.tidy (asked_bounded hasked).1, State.getLock, hasked]
  dsimp only
  cases hfind : (s.records.filter (s.alive ·.owner.ref)).find?
      (·.conflicts file.key owner exclusive start last) with
  | none =>
    refine ⟨?_, fun _ => rfl⟩
    rintro ⟨r, hr, hconflicts⟩
    exact absurd hconflicts (find?_eq_none.1 hfind r hr)
  | some r =>
    have hr := mem_of_find?_eq_some hfind
    have hconflicts := find?_some hfind
    refine ⟨fun _ => ⟨r, (mem_filter.1 hr).1, (mem_filter.1 hr).2, hconflicts, rfl⟩, fun hno => ?_⟩
    exact absurd ⟨r, hr, hconflicts⟩ hno

end

/-- Record locks follow the POSIX model, and a `flock` file has no exclusive holder beside another
live one, in every state the calls reach. -/
theorem record_locks_follow_posix (hrun : ReflTransGen Step boot s) : Posix s := by
  have h := inv_run hrun
  refine ⟨?_, ?_, ?_, ?_, h.tidy.disjoint.and h.tidy.apart, ?_, ?_, ?_, ?_, ?_, h.holders⟩
  · intro file owner flock ofd charged mode start last halive hchecked
    exact (setLock_ok h halive hchecked).2
  · exact fun file owner flock ofd charged err hchecked => setLock_error hchecked
  · intro owner key exclusive start last halive hle hmax
    exact (inv_place _ _ h hle hmax halive).2
  · intro key a b byte e e' hne ha hb
    obtain ⟨ha, hcover⟩ := (locks_eq_some h.tidy).1 ha
    obtain ⟨hb, hcover'⟩ := (locks_eq_some h.tidy).1 hb
    exact h.agree key a b byte e e' ha hb hne hcover hcover'
  · intro file owner flock ofd wide showPid exclusive start last hasked hconflict
    exact (getLock_spec h wide showPid hasked).1 hconflict
  · intro file owner flock ofd wide showPid exclusive start last hasked hconflict
    exact (getLock_spec h wide showPid hasked).2 hconflict
  · exact fun file owner flock ofd wide showPid => (inv_getLock h wide showPid).2
  · exact fun table key k ref byte => locks_closed h table
  · exact fun dead k ref byte => locks_die s dead

/-- A write lock on bytes 0 to 9 and then an unlock of bytes 3 to 5. -/
theorem record_locks_follow_posix_split :
    ∃ s, ReflTransGen Step boot s ∧ s.records.map (fun r => (r.start, r.last)) = [(0, 2), (6, 9)] ∧
      Posix s := by
  have h : ReflTransGen Step boot _ := .refl
  replace h := h.tail (.set ⟨⟨0, 1⟩, true, true, none, 0⟩ (.table 0 1) ⟨.wrlck, .set, 0, 10, 0⟩
    false 2 rfl)
  replace h := h.tail (.set ⟨⟨0, 1⟩, true, true, none, 0⟩ (.table 0 1) ⟨.unlck, .set, 6, -3, 0⟩
    false 1 rfl)
  exact ⟨_, h, by decide +kernel, record_locks_follow_posix h⟩

end Ferrix.Locks.LockCalls

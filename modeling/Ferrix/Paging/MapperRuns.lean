import Ferrix.Paging.Ranges

/-!
A run is any sequence of calls on one root, each with its own block-size setting and each free to
fail.  A call that fails part of the way counts for the part it did.
-/

namespace Ferrix.Paging.MapperRuns

open Encodings Tables Tables.PhysMem Trees MapperCalls Ranges

inductive Call where
  | map (largestBlock virt phys len : Nat) (flags : MapFlags)
  | unmap (virt len : Nat)
  | protect (virt len : Nat) (flags : MapFlags)
  | prune (virt len : Nat)
deriving DecidableEq

inductive Event where
  | installed (virt phys len : Nat)
  | removed (virt len : Nat)
  | nothing
deriving DecidableEq

/-- Where an address leads after a history of events, the newest first. -/
def latest : List Event → Nat → Option Nat
  | [], _ => none
  | .installed virt phys len :: events, v =>
    if virt ≤ v ∧ v < virt + len then some (phys + (v - virt)) else latest events v
  | .removed virt len :: events, v =>
    if virt ≤ v ∧ v < virt + len then none else latest events v
  | .nothing :: events, v => latest events v

inductive Explains : Call × Except MapError Unit → Event → Prop
  | map {largestBlock virt phys len : Nat} {flags : MapFlags} :
      Explains (.map largestBlock virt phys len flags, .ok ()) (.installed virt phys len)
  | mapFailed {largestBlock virt phys len : Nat} {flags : MapFlags} {error : MapError}
      {upTo : Nat} : upTo ≤ len →
      Explains (.map largestBlock virt phys len flags, .error error) (.installed virt phys upTo)
  | unmap {virt len : Nat} : Explains (.unmap virt len, .ok ()) (.removed virt len)
  | unmapFailed {virt len : Nat} {error : MapError} {upTo : Nat} : upTo ≤ len →
      Explains (.unmap virt len, .error error) (.removed virt upTo)
  | protect {virt len : Nat} {flags : MapFlags} {answer : Except MapError Unit} :
      Explains (.protect virt len flags, answer) .nothing
  | prune {virt len : Nat} {answer : Except MapError Unit} :
      Explains (.prune virt len, answer) .nothing

/-- The calls of a run: a block size the mapper can be set to, flags a leaf can carry, and a
canonical range to unmap. -/
def Proper (arch : Architecture) : Call → Prop
  | .map largestBlock _ _ _ flags => largestBlock ≤ Level.gigabyte ∧ arch.Grants flags
  | .unmap virt len => CanonicalRange arch virt len
  | .protect _ _ flags => arch.Grants flags
  | .prune _ _ => True

section

variable {σ : Type} [PhysMem σ]

def perform (arch : Architecture) (root : Nat) (memory : σ) :
    Call → Except MapError Unit × σ
  | .map largestBlock virt phys len flags =>
    mapRange arch.encoding ⟨root, largestBlock⟩ virt phys len flags memory
  | .unmap virt len =>
    let (answer, memory) := unmapRange arch.encoding (Mapper.new root) virt len memory
    (answer.map fun _ => (), memory)
  | .protect virt len flags =>
    protectRange arch.encoding (Mapper.new root) virt len flags memory
  | .prune virt len => pruneRange arch.encoding (Mapper.new root) virt len memory

/-- The frames a call is handed for tables. -/
def handed (arch : Architecture) (root : Nat) (memory : σ) (call : Call) : List Nat :=
  (perform arch root (Recorded.mk memory []) call).2.handed

/-- The memory after a sequence of calls, with the calls and their answers and with the frames
they were handed, the newest first. -/
inductive Run (arch : Architecture) (root : Nat) (memory : σ) :
    List (Call × Except MapError Unit) → List Nat → σ → Prop
  | start : Run arch root memory [] [] memory
  | call {log : List (Call × Except MapError Unit)} {frames : List Nat} {before after : σ}
      {call : Call} {answer : Except MapError Unit} : Run arch root memory log frames before →
      Proper arch call → perform arch root before call = (answer, after) →
      Run arch root memory ((call, answer) :: log) (handed arch root before call ++ frames) after

def Promise (arch : Architecture) (before after : Nat → Option Nat) :
    Call → Except MapError Unit → Prop
  | .map _ virt phys len _, .ok () =>
    CanonicalRange arch virt len ∧
      ∀ v, arch.encoding.isCanonical v = true →
        if virt ≤ v ∧ v < virt + len then before v = none ∧ after v = some (phys + (v - virt))
        else after v = before v
  | .map _ _ _ _ _, .error _ =>
    ∀ v, arch.encoding.isCanonical v = true → ∀ phys, before v = some phys →
      after v = some phys
  | .unmap virt len, .ok () =>
    ∀ v, arch.encoding.isCanonical v = true →
      after v = if virt ≤ v ∧ v < virt + len then none else before v
  | .unmap _ _, .error _ =>
    ∀ v, arch.encoding.isCanonical v = true → after v = before v ∨ after v = none
  | .protect _ _ _, _ => after = before
  | .prune _ _, _ => after = before

variable {arch : Architecture} {C : Contract σ} {root : Nat}
  {m before after : σ} {tables : Nat → Nat → Option Nat} {call : Call}
  {answer : Except MapError Unit} {log : List (Call × Except MapError Unit)} {frames : List Nat}

lemma tree_of_empty (arch : Architecture) (hroot : root ∈ C.used m)
    (he : ∀ i < entries, word m root i = 0) : Tree arch C root m
      (setTable (fun _ _ => none) arch.encoding.rootLevel 0 (some root)) := by
  have hcases : ∀ {l r f : Nat},
      setTable (fun _ _ => none) arch.encoding.rootLevel 0 (some root) l r = some f →
      l = arch.encoding.rootLevel ∧ r = 0 ∧ f = root := by
    intro l r f ht
    rw [setTable] at ht
    split_ifs at ht with heq
    exact ⟨heq.1, heq.2, (Option.some.inj ht).symm⟩
  have habsent : ∀ i < 512, ∀ l, arch.encoding.decode l (word m root i) = .absent := by
    intro i hi l
    rw [he i hi, decode_zero]
  constructor
  · exact setTable_self ..
  · intro l r f ht
    obtain ⟨hlevel, hr, -⟩ := hcases ht
    exact .inl ⟨hlevel, hr⟩
  · intro l r f ht i hi child hd
    obtain ⟨-, -, rfl⟩ := hcases ht
    rw [habsent i hi] at hd
    cases hd
  · intro l r f ht i hi phys hd
    obtain ⟨-, -, rfl⟩ := hcases ht
    rw [habsent i hi] at hd
    cases hd
  · intro l r l' r' f ht ht'
    obtain ⟨rfl, rfl, -⟩ := hcases ht
    obtain ⟨rfl, rfl, -⟩ := hcases ht'
    exact ⟨rfl, rfl⟩
  · intro l r f ht
    obtain ⟨-, -, rfl⟩ := hcases ht
    exact hroot

structure Performs (arch : Architecture) (C : Contract σ) (root : Nat)
    (before after : σ) (call : Call) (answer : Except MapError Unit) : Prop where
  tree : ∃ tables, Tree arch C root after tables
  explained : ∃ event, Explains (call, answer) event ∧
    ∀ v, arch.encoding.isCanonical v = true → ∀ events,
      look arch root before v = latest events v →
        look arch root after v = latest (event :: events) v
  promise : Promise arch (look arch root before) (look arch root after)
    call answer

lemma map_performs (ht : Tree arch C root before tables) {largestBlock virt phys len : Nat}
    {flags : MapFlags} (hproper : Proper arch (.map largestBlock virt phys len flags))
    (hfits : Fits arch (handed arch root before (.map largestBlock virt phys len flags)))
    (hc : perform arch root before (.map largestBlock virt phys len flags) = (answer, after)) :
    Performs arch C root before after (.map largestBlock virt phys len flags) answer := by
  rw [perform] at hc
  obtain ⟨upTo, -, hupTo, hok, hf, hchanges⟩ := mapRange_spec ⟨root, largestBlock⟩ virt phys len
    hproper.2 hproper.1 ht hfits
  rw [hc] at hok hchanges
  rw [Nat.add_zero] at hf hchanges
  obtain ⟨ht', hlook⟩ := hchanges
  have hexplained : ∀ v, arch.encoding.isCanonical v = true → ∀ es,
      look arch root before v = latest es v →
        look arch root after v = latest (.installed virt phys upTo :: es) v := by
    intro v hv es hbefore
    rw [hlook v hv, latest, hbefore]
  rcases answer with e | ⟨⟩
  · refine ⟨ht', ⟨_, .mapFailed hupTo, hexplained⟩, ?_⟩
    intro v hv t hbefore
    rw [hlook v hv, if_neg, hbefore]
    rintro ⟨hle, hlt⟩
    rw [hf v hv hle hlt] at hbefore
    cases hbefore
  · obtain rfl := hok rfl
    refine ⟨ht', ⟨_, .map, hexplained⟩, canonicalRange_of_mapRange hc, ?_⟩
    intro v hv
    have hafter := hlook v hv
    split_ifs at hafter ⊢ with hin
    · exact ⟨hf v hv hin.1 hin.2, hafter⟩
    · exact hafter

lemma unmap_performs (ht : Tree arch C root before tables) {virt len : Nat}
    (hproper : Proper arch (.unmap virt len))
    (hc : perform arch root before (.unmap virt len) = (answer, after)) :
    Performs arch C root before after (.unmap virt len) answer := by
  have hremoves : Removes arch C root before virt len 0
      (unmapRange arch.encoding (Mapper.new root) virt len before) :=
    unmapRange_spec ht hproper
  rw [perform] at hc
  generalize unmapRange arch.encoding (Mapper.new root) virt len before = r at *
  rcases r with ⟨unmapped, after'⟩
  obtain ⟨rfl, rfl⟩ := Prod.mk.inj hc
  obtain ⟨upTo, -, hupTo, hok, hchanges⟩ := hremoves
  rw [Nat.add_zero] at hchanges
  obtain ⟨ht', hlook⟩ := hchanges
  have hexplained : ∀ v, arch.encoding.isCanonical v = true → ∀ es,
      look arch root before v = latest es v →
        look arch root after' v = latest (.removed virt upTo :: es) v := by
    intro v hv es hbefore
    rw [hlook v hv, latest, hbefore]
  rcases unmapped with e | removed
  · refine ⟨ht', ⟨_, .unmapFailed hupTo, hexplained⟩, fun v hv => ?_⟩
    rw [hlook v hv]
    split_ifs
    · exact .inr rfl
    · exact .inl rfl
  · obtain rfl := hok removed rfl
    exact ⟨ht', ⟨_, .unmap, hexplained⟩, hlook⟩

lemma performs_of_keeps (hexplains : Explains (call, answer) .nothing)
    (hpromise : Promise arch (look arch root before) (look arch root before) call answer)
    (hkeeps : Keeps arch C root before after) :
    Performs arch C root before after call answer := by
  obtain ⟨ht', hlook⟩ := hkeeps
  refine ⟨ht', ⟨.nothing, hexplains, fun v _ es hbefore => ?_⟩, ?_⟩
  · rw [hlook v, latest, hbefore]
  · rwa [funext hlook]

lemma perform_spec (ht : Tree arch C root before tables) (hproper : Proper arch call)
    (hfits : Fits arch (handed arch root before call))
    (hc : perform arch root before call = (answer, after)) :
    Performs arch C root before after call answer := by
  cases call with
  | map largestBlock virt phys len flags => exact map_performs ht hproper hfits hc
  | unmap virt len => exact unmap_performs ht hproper hc
  | protect virt len flags =>
    obtain rfl : _ = after := congrArg Prod.snd hc
    exact performs_of_keeps .protect rfl (protectRange_keeps (.new root) ht hproper virt len)
  | prune virt len =>
    obtain rfl : _ = after := congrArg Prod.snd hc
    exact performs_of_keeps .prune rfl (pruneRange_keeps (.new root) ht virt len)

lemma run_spec (hroot : root ∈ C.used m) (he : ∀ i < entries, word m root i = 0)
    (hrun : Run arch root m log frames after) (hfits : Fits arch frames) :
    (∃ tables, Tree arch C root after tables) ∧
      ∃ events, List.Forall₂ Explains log events ∧ ∀ v, arch.encoding.isCanonical v = true →
          look arch root after v = latest events v := by
  induction hrun with
  | start =>
    have htree := tree_of_empty arch hroot he
    refine ⟨⟨_, htree⟩, [], .nil, fun v _ => ?_⟩
    have ht : setTable (fun _ _ => none) arch.encoding.rootLevel 0 (some root)
        arch.encoding.rootLevel
        (regionOf arch arch.encoding.rootLevel v) = some root := by
      rw [regionOf_root, setTable_self]
    refine look_absent htree ht ?_
    rw [he _ (index_lt _ _), decode_zero]
  | call hrun hproper hcall ih =>
    obtain ⟨⟨tables, htree⟩, events, hexplain, hlook⟩ :=
      ih (hfits.of_subset (List.subset_append_right _ _))
    obtain ⟨htree', ⟨event, hevent, hlatest⟩, -⟩ := perform_spec htree hproper
      (hfits.of_subset (List.subset_append_left _ _)) hcall
    exact ⟨htree', event :: events, .cons hevent hexplain,
      fun v hv => hlatest v hv events (hlook v hv)⟩

end

/-- Memory as a function, with frames handed out one after another up to a limit. -/
structure Flat (limit : Nat) where
  words : Nat → Word
  fresh : Nat

variable {arch : Architecture}

namespace Flat

variable {limit : Nat}

def allocate (memory : Flat limit) : Option Nat × Flat limit :=
  if memory.fresh < limit then
    let frame := memory.fresh * pageSize
    (some frame, ⟨fun address => if frame ≤ address ∧ address < frame + pageSize then 0
      else memory.words address, memory.fresh + 1⟩)
  else (none, memory)

instance : PhysMem (Flat limit) where
  read memory address := memory.words address
  write memory address value :=
    { memory with words := fun other => if other = address then value else memory.words other }
  allocateTable := allocate
  released memory _ := memory

lemma allocate_some {m after : Flat limit} {fresh : Nat}
    (hallocate : allocateTable m = (some fresh, after)) :
    m.fresh < limit ∧ fresh = m.fresh * pageSize ∧ after.fresh = m.fresh + 1 ∧
      after.words = fun a => if fresh ≤ a ∧ a < fresh + pageSize then 0
        else m.words a := by
  change allocate m = _ at hallocate
  rw [allocate] at hallocate
  split_ifs at hallocate with hlt
  · obtain ⟨hfresh, rfl⟩ := Prod.mk.inj hallocate
    obtain rfl := Option.some.inj hfresh
    exact ⟨hlt, rfl, rfl, rfl⟩
  · cases hallocate

def contract (limit : Nat) : Contract (Flat limit) where
  used memory := {frame | ∃ n < memory.fresh, frame = n * pageSize}
  aligned := by
    rintro memory frame ⟨n, -, rfl⟩
    exact Nat.dvd_mul_left _ _
  allocate_none := by
    intro memory after hallocate
    change allocate memory = _ at hallocate
    rw [allocate] at hallocate
    split_ifs at hallocate
    · cases hallocate
    · obtain ⟨-, rfl⟩ := Prod.mk.inj hallocate
      exact ⟨subset_rfl, fun _ _ _ _ => rfl⟩
  allocate_some := by
    intro memory after fresh hallocate
    obtain ⟨-, rfl, hfresh, hwords⟩ := allocate_some hallocate
    refine ⟨?_, ⟨memory.fresh, by omega, rfl⟩, ?_, ?_, ?_⟩
    · rintro ⟨n, hn, heq⟩
      simp only [pageSize] at heq
      omega
    · rintro frame ⟨n, hn, rfl⟩
      exact ⟨n, by omega, rfl⟩
    · intro i hi
      change after.words _ = 0
      rw [hwords]
      refine if_pos ?_
      simp only [descriptorAddress, entries, pageSize] at *
      omega
    · rintro frame ⟨n, hn, rfl⟩ i hi
      change after.words _ = memory.words _
      rw [hwords]
      refine if_neg ?_
      simp only [descriptorAddress, entries, pageSize] at *
      omega
  write := by
    rintro memory frame i value ⟨n, hn, rfl⟩ hi
    refine ⟨subset_rfl, if_pos rfl, ?_⟩
    rintro frame' ⟨n', hn', rfl⟩ i' hi' hne
    refine if_neg ?_
    simp only [descriptorAddress, entries, pageSize] at *
    omega
  released_page _ _ := ⟨subset_rfl, fun _ _ _ _ => rfl⟩
  released_table _ := ⟨Set.sdiff_subset, fun _ _ _ _ => rfl⟩

end Flat

/-- Over every run of calls from a zeroed root that is handed frames a descriptor can hold: what an
address leads to is what the latest event covering it says, and the next call keeps its
promise. -/
theorem translates_what_was_mapped {σ : Type} [PhysMem σ] {arch : Architecture}
    {C : Contract σ} {root : Nat} {memory before : σ}
    {log : List (Call × Except MapError Unit)} {frames : List Nat}
    (hroot : root ∈ C.used memory) (hempty : ∀ i < entries, word memory root i = 0)
    (hrun : Run arch root memory log frames before) (hfits : Fits arch frames) :
    (∃ events, List.Forall₂ Explains log events ∧
        ∀ mapper : Mapper, mapper.root = root → ∀ v, arch.encoding.isCanonical v = true →
            translate arch.encoding mapper before v = latest events v) ∧
      ∀ call answer after, Proper arch call → Fits arch (handed arch root before call) →
        perform arch root before call = (answer, after) →
        Promise arch (translate arch.encoding (Mapper.new root) before)
          (translate arch.encoding (Mapper.new root) after) call answer := by
  obtain ⟨⟨tables, htree⟩, events, hexplains, hlook⟩ := run_spec hroot hempty hrun hfits
  constructor
  · refine ⟨events, hexplains, ?_⟩
    rintro mapper rfl v hv
    exact hlook v hv
  · intro call answer after hproper hhanded hcall
    exact (perform_spec htree hproper hhanded hcall).promise

def readWrite : MapFlags := ⟨true, true, false, false, false, false, false, false⟩

lemma Run.answered {σ : Type} [PhysMem σ] {root : Nat} {m before : σ}
    {log : List (Call × Except MapError Unit)} {call : Call} {answer : Except MapError Unit}
    {frames frames' : List Nat} (hrun : Run arch root m log frames before)
    (hproper : Proper arch call) (hanswer : (perform arch root before call).1 = answer)
    (hframes : handed arch root before call ++ frames = frames') :
    Run arch root m ((call, answer) :: log) frames' (perform arch root before call).2 :=
  hframes ▸ .call hrun hproper (Prod.ext hanswer rfl)

/-- Two pages are mapped, through three new tables, and the first is unmapped again. -/
theorem translates_what_was_mapped_pages : ∃ after : Flat 16,
      Run .x86_64 0 ⟨fun _ => 0, 1⟩ [(.unmap 0 4096, .ok ()),
        (.map Level.page 0 0x10000 8192 readWrite, .ok ())] [0x3000, 0x2000, 0x1000] after ∧
      ∃ events, List.Forall₂ Explains [(.unmap 0 4096, .ok ()),
        (.map Level.page 0 0x10000 8192 readWrite, .ok ())] events ∧
        ∀ mapper : Mapper, mapper.root = 0 → ∀ v, X86.encoding.isCanonical v = true →
          translate X86.encoding mapper after v = latest events v := by
  have hmap : Run .x86_64 0 (⟨fun _ => 0, 1⟩ : Flat 16)
      [(.map Level.page 0 0x10000 8192 readWrite, .ok ())] [0x3000, 0x2000, 0x1000] _ :=
    Run.answered .start ⟨by decide, by decide⟩ rfl rfl
  have hcanonical : CanonicalRange .x86_64 0 4096 := by
    intro v hle hlt
    have hcheck : checkRange Architecture.x86_64.encoding 0 0x10000 8192 = .ok () := rfl
    exact (of_checkRange hcheck).2.2.2.1 v hle (by omega)
  have hrun : Run .x86_64 0 (⟨fun _ => 0, 1⟩ : Flat 16) [(.unmap 0 4096, .ok ()),
      (.map Level.page 0 0x10000 8192 readWrite, .ok ())] [0x3000, 0x2000, 0x1000] _ :=
    Run.answered hmap hcanonical (by decide +kernel) (by decide +kernel)
  have hroot : 0 ∈ (Flat.contract 16).used ⟨fun _ => 0, 1⟩ := ⟨0, by decide, rfl⟩
  have hfits : Fits .x86_64 [0x3000, 0x2000, 0x1000] := by
    unfold Fits
    decide
  exact ⟨_, hrun, (translates_what_was_mapped hroot (fun _ _ => rfl) hrun hfits).1⟩

/-- A table frame wider than a descriptor is not refused: on VT-d the frame just past the last one
a descriptor holds is entered as frame zero, here the root, and the page mapped at `0x1000` is
found at zero. -/
theorem wide_table_maps_low_memory : ∃ after : Flat (2 ^ 28),
      0 ∈ (Flat.contract (2 ^ 28)).used ⟨fun _ => 0, 2 ^ 27⟩ ∧
      (∀ i < entries, word (⟨fun _ => 0, 2 ^ 27⟩ : Flat (2 ^ 28)) 0 i = 0) ∧
      Run .vtd 0 ⟨fun _ => 0, 2 ^ 27⟩ [(.map Level.page 0 0x1000 4096 readWrite, .ok ())]
        [2 ^ 39 + 0x1000, 2 ^ 39] after ∧
      Vtd.encoding.isCanonical 0 = true ∧ translate Vtd.encoding (Mapper.new 0) after 0 = some 0 ∧
      ¬ ∃ events, List.Forall₂ Explains [(.map Level.page 0 0x1000 4096 readWrite, .ok ())] events ∧
          translate Vtd.encoding (Mapper.new 0) after 0 = latest events 0 := by
  have hrun : Run .vtd 0 (⟨fun _ => 0, 2 ^ 27⟩ : Flat (2 ^ 28))
      [(.map Level.page 0 0x1000 4096 readWrite, .ok ())] [2 ^ 39 + 0x1000, 2 ^ 39] _ :=
    Run.answered .start ⟨by decide, by decide⟩ rfl rfl
  have hzero : translate Vtd.encoding (Mapper.new 0)
      (perform .vtd 0 (⟨fun _ => 0, 2 ^ 27⟩ : Flat (2 ^ 28))
        (.map Level.page 0 0x1000 4096 readWrite)).2 0 = some 0 := by decide +kernel
  refine ⟨_, ⟨0, by decide, rfl⟩, fun _ _ => rfl, hrun, rfl, hzero, ?_⟩
  rintro ⟨events, hexplains, hlatest⟩
  rw [hzero] at hlatest
  cases hexplains with
  | cons hfirst hrest =>
    cases hfirst
    cases hrest
    simp [latest] at hlatest

end Ferrix.Paging.MapperRuns

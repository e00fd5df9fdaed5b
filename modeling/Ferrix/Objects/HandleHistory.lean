import Ferrix.Objects.HandleTable

/-!
What a handle table has issued and what has ended, over every run.  One invariant relates this
history to the generations in the slots.
-/

namespace Ferrix.Objects.HandleHistory

open HandleTable List

variable {generation index : Nat}

lemma encode_value (hi : index < maxSlots) (hgeneration : generation < 2 ^ 12) :
    (encode index generation).value = index * 2 ^ 12 + generation := by
  have hslots : maxSlots = 2 ^ 19 := by decide
  have hw : index <<< 12 % 2 ^ 32 = index <<< 12 := by
    apply Nat.mod_eq_of_lt
    omega
  change index <<< 12 % 2 ^ 32 ||| generation = _
  rw [hw, ← Nat.shiftLeft_add_eq_or_of_lt hgeneration, Nat.shiftLeft_eq]

lemma decode_eq (x : Handle) : decode x = (x.value / 2 ^ 12, x.value % 2 ^ 12) := by
  have hmask : generationMask = 2 ^ 12 - 1 := by decide
  simp only [decode, generationBits, hmask, Nat.and_two_pow_sub_one_eq_mod,
    Nat.shiftRight_eq_div_pow]

lemma decode_encode (hi : index < maxSlots) (hgeneration : generation ≤ maxGeneration) :
    decode (encode index generation) = (index, generation) := by
  have hmax : maxGeneration = 2 ^ 12 - 1 := by decide
  rw [decode_eq, encode_value hi (by omega), Prod.mk.injEq]
  omega

lemma encode_decode {x : Handle} (hi : (decode x).1 < maxSlots) :
    encode (decode x).1 (decode x).2 = x := by
  obtain ⟨v⟩ := x
  rw [decode_eq] at hi ⊢
  rw [Handle.mk.injEq, encode_value hi (Nat.mod_lt _ (by decide))]
  change v / 2 ^ 12 * 2 ^ 12 + v % 2 ^ 12 = v
  omega

lemma encode_lt (hi : index < maxSlots)
    (hgeneration : generation ≤ maxGeneration) : (encode index generation).value < 2 ^ 31 := by
  have hslots : maxSlots = 2 ^ 19 := by decide
  have hmax : maxGeneration = 2 ^ 12 - 1 := by decide
  rw [encode_value hi (by omega)]
  omega

section

variable {T : Type*}

lemma bounded_of_lt {len : Nat} (h : index < len) : bounded index len = some index := by
  rw [bounded, if_neg (by omega)]

lemma mod_of_lt (h : index < maxSlots) : index % 2 ^ 32 = index :=
  Nat.mod_eq_of_lt (h.trans (by decide))

/-- A handle resolves exactly when its slot is occupied at its generation. -/
theorem get_eq_ok_iff (t : HandleTable T) (x : Handle) (obj : T) (rs : Rights) :
    t.get x = .ok (obj, rs) ↔ t.slots[(decode x).1]? = some (.occupied (decode x).2 rs obj) := by
  by_cases hi : (decode x).1 < t.slots.length
  · simp only [HandleTable.get, bounded_of_lt hi]
    rcases hslot : t.slots[(decode x).1]? with _ | slot
    · simp
    · cases slot with
      | occupied generation held named =>
        by_cases hgeneration : generation = (decode x).2
        · simp [hgeneration, and_comm]
        · simp [hgeneration]
      | vacant generation => simp
      | retired => simp
  · have hb : bounded (decode x).1 t.slots.length = none := by
      rw [bounded, if_pos (by omega)]
    have hnone : t.slots[(decode x).1]? = none :=
      List.getElem?_eq_none (by omega)
    simp [HandleTable.get, hb, hnone]

lemma get_eq_badHandle_of_forall (t : HandleTable T) (x : Handle)
    (hnot : ∀ obj rs, t.get x ≠ .ok (obj, rs)) :
    t.get x = .error .badHandle := by
  rw [HandleTable.get] at hnot ⊢
  rcases hb : bounded (decode x).1 t.slots.length with _ | index
  · rfl
  · simp only [hb] at hnot ⊢
    rcases hslot : t.slots[index]? with _ | slot
    · rfl
    · cases slot with
      | occupied generation held named =>
        simp only [hslot] at hnot ⊢
        split
        · rename_i heq
          exact absurd (if_pos heq) (hnot named held)
        · rfl
      | vacant generation => rfl
      | retired => rfl

end

structure Issue (T : Type*) where
  handle : Handle
  object : T
  rights : Rights
  deriving DecidableEq

structure History (T : Type*) where
  table : HandleTable T
  issued : List (Issue T)
  ended : List Handle

def Given {T : Type*} (slot : Slot T) (generation : Nat) : Prop :=
  match slot with
  | .occupied current _ _ => generation ≤ current
  | .vacant next => generation < next
  | .retired => True

/-- The generation a slot stands at, while it may still be used. -/
def standing {T : Type*} : Slot T → Option Nat
  | .occupied generation _ _ | .vacant generation => some generation
  | .retired => none

structure Fits {T : Type*} (t : HandleTable T) : Prop where
  slots_le : t.slots.length ≤ maxSlots
  slot_capacity : t.slots.length ≤ t.slotCapacity
  free_capacity : t.slots.length ≤ t.freeCapacity

structure Sound {T : Type*} (s : History T) : Prop extends Fits s.table where
  closed_empty : s.table.closed = true → s.table.slots = [] ∧ s.table.free = []
  free_nodup : s.table.free.Nodup
  free_vacant : ∀ i ∈ s.table.free, ∃ g, s.table.slots[i]? = some (.vacant g)
  range : ∀ (i g : Nat) (slot : Slot T), s.table.slots[i]? = some slot →
    standing slot = some g → 1 ≤ g ∧ g ≤ maxGeneration
  occupied_issued : ∀ (i g : Nat) (r : Rights) (obj : T),
    s.table.slots[i]? = some (.occupied g r obj) →
      ⟨encode i g, obj, r⟩ ∈ s.issued ∧ encode i g ∉ s.ended
  issued_given : ∀ p ∈ s.issued, s.table.closed = true ∨
    ∃ slot, s.table.slots[(decode p.handle).1]? = some slot ∧
      Given slot (decode p.handle).2
  issued_live : ∀ p ∈ s.issued, p.handle ∈ s.ended ∨
    s.table.slots[(decode p.handle).1]? =
      some (.occupied (decode p.handle).2 p.rights p.object)
  ended_issued : ∀ h ∈ s.ended, ∃ p ∈ s.issued, p.handle = h
  issued_nodup : (s.issued.map Issue.handle).Nodup
  issued_lt : ∀ p ∈ s.issued, p.handle.value < 2 ^ 31

structure Replaced {T : Type*} (slots slots' : List (Slot T)) (i : Nat) (new : Slot T) : Prop where
  self : slots'[i]? = some new
  other : ∀ j, j ≠ i → slots'[j]? = slots[j]?

section

variable {T : Type*} {slots slots' : List (Slot T)} {i j : Nat} {new slot : Slot T}

lemma replaced_set (hlt : i < slots.length) (new : Slot T) :
    Replaced slots (slots.set i new) i new :=
  ⟨List.getElem?_set_self hlt, fun _ hj => List.getElem?_set_ne (Ne.symm hj)⟩

lemma Replaced.cases (hreplaced : Replaced slots slots' i new) (hslot : slots'[j]? = some slot) :
    j = i ∧ slot = new ∨ j ≠ i ∧ slots[j]? = some slot := by
  by_cases hji : j = i
  · subst hji
    exact .inl ⟨rfl, Option.mem_unique hslot hreplaced.self⟩
  · exact .inr ⟨hji, hreplaced.other j hji ▸ hslot⟩

lemma Fits.of_length {t t' : HandleTable T} (hfits : Fits t)
    (hlen : t'.slots.length = t.slots.length) (hslots : t'.slotCapacity = t.slotCapacity)
    (hf : t'.freeCapacity = t.freeCapacity) : Fits t' := by
  obtain ⟨hle, hslotRoom, hfreeRoom⟩ := hfits
  constructor <;> omega

end

namespace Sound

variable {T : Type*} {s : History T} {i g : Nat} {slot : Slot T} {r : Rights} {obj : T}

lemma index_lt (hs : Sound s) (hslot : s.table.slots[i]? = some slot) : i < maxSlots := by
  have := (List.getElem?_eq_some_iff.mp hslot).1
  have := hs.slots_le
  omega

lemma open_of_slot (hs : Sound s)
    (hslot : s.table.slots[i]? = some slot) : s.table.closed = false := by
  rcases hclosed : s.table.closed with _ | _
  · rfl
  · simp [(hs.closed_empty hclosed).1] at hslot

lemma not_mem_issued (hs : Sound s) {p : Issue T} (hi : i < maxSlots)
    (hgeneration : g ≤ maxGeneration) (hopen : s.table.closed = false)
    (hnew : ∀ slot, s.table.slots[i]? = some slot → ¬ Given slot g) :
    p ∈ s.issued → p.handle ≠ encode i g := by
  intro hissued heq
  rcases hs.issued_given p hissued with hclosed | ⟨slot, hslot, hgiven⟩
  · simp [hopen] at hclosed
  · rw [heq, decode_encode hi hgeneration] at hslot hgiven
    exact hnew slot hslot hgiven

lemma issue (hs : Sound s) {t : HandleTable T}
    (hi : i < maxSlots) (hr : 1 ≤ g ∧ g ≤ maxGeneration) (hopen : s.table.closed = false)
    (hclosed : t.closed = false) (hold : ∀ slot, s.table.slots[i]? = some slot → slot = .vacant g)
    (hfits : Fits t) (hreplaced : Replaced s.table.slots t.slots i (.occupied g r obj))
    (hf : t.free.Sublist s.table.free) (hnot : i ∉ t.free) :
    Sound ⟨t, s.issued ++ [⟨encode i g, obj, r⟩], s.ended⟩ := by
  have hdecode := decode_encode hi hr.2
  obtain ⟨hself, ho⟩ := id hreplaced
  -- The slot is vacant at `g`, so the values it has given out had smaller generations.
  have hnew : ∀ slot, s.table.slots[i]? = some slot → ¬ Given slot g := by
    intro slot hslot
    rw [hold slot hslot]
    exact Nat.lt_irrefl g
  have hended : encode i g ∉ s.ended := by
    intro hm
    obtain ⟨p, hissued, hhandle⟩ := hs.ended_issued _ hm
    exact hs.not_mem_issued hi hr.2 hopen hnew hissued hhandle
  constructor
  · exact hfits
  · intro hclose
    simp [hclosed] at hclose
  · exact hs.free_nodup.sublist hf
  · intro j hj
    obtain ⟨n, hslot⟩ := hs.free_vacant j (hf.subset hj)
    refine ⟨n, ?_⟩
    rw [ho j (by rintro rfl; exact hnot hj)]
    exact hslot
  · intro j g' slot hslot hstands
    rcases hreplaced.cases hslot with ⟨-, rfl⟩ | ⟨-, hslot⟩
    · exact Option.some.inj hstands ▸ hr
    · exact hs.range j g' slot hslot hstands
  · intro j g' r' o' hslot
    rcases hreplaced.cases hslot with ⟨rfl, heq⟩ | ⟨hji, hslot⟩
    · simp only [Slot.occupied.injEq] at heq
      obtain ⟨rfl, rfl, rfl⟩ := heq
      exact ⟨by simp, hended⟩
    · obtain ⟨hm, hlive⟩ := hs.occupied_issued j g' r' o' hslot
      exact ⟨mem_append_left _ hm, hlive⟩
  · intro p hissued
    right
    rcases mem_append.mp hissued with hissued | hissued
    · rcases hs.issued_given p hissued with hclose | ⟨slot, hslot, hgiven⟩
      · simp [hopen] at hclose
      · by_cases hji : (decode p.handle).1 = i
        · rw [hji] at hslot
          rw [hold slot hslot] at hgiven
          exact ⟨.occupied g r obj, hji ▸ hself, Nat.le_of_lt hgiven⟩
        · exact ⟨slot, (ho _ hji).trans hslot, hgiven⟩
    · rw [mem_singleton.mp hissued, hdecode]
      exact ⟨.occupied g r obj, hself, Nat.le_refl g⟩
  · intro p hissued
    rcases mem_append.mp hissued with hissued | hissued
    · rcases hs.issued_live p hissued with hend | hslot
      · exact .inl hend
      · by_cases hji : (decode p.handle).1 = i
        · rw [hji] at hslot
          simpa using hold _ hslot
        · exact .inr ((ho _ hji).trans hslot)
    · rw [mem_singleton.mp hissued, hdecode]
      exact .inr hself
  · intro h hm
    obtain ⟨p, hissued, hhandle⟩ := hs.ended_issued h hm
    exact ⟨p, mem_append_left _ hissued, hhandle⟩
  · rw [map_append, nodup_append']
    refine ⟨hs.issued_nodup, by simp, ?_⟩
    simp only [map_cons, map_nil, disjoint_singleton]
    intro hm
    obtain ⟨p, hissued, heq⟩ := mem_map.mp hm
    exact hs.not_mem_issued hi hr.2 hopen hnew hissued heq
  · exact forall_mem_append.mpr ⟨hs.issued_lt, forall_mem_singleton.mpr (encode_lt hi hr.2)⟩

lemma finish (hs : Sound s) {t : HandleTable T} {n : Slot T}
    (hold : s.table.slots[i]? = some (.occupied g r obj))
    (hn : n = .retired ∨ n = .vacant (g + 1) ∧ g < maxGeneration)
    (hclosed : t.closed = s.table.closed) (hslotRoom : t.slotCapacity = s.table.slotCapacity)
    (hfreeRoom : t.freeCapacity = s.table.freeCapacity) (hslots : t.slots = s.table.slots.set i n)
    (hf : t.free = s.table.free ∨ t.free = s.table.free ++ [i] ∧ n = .vacant (g + 1)) :
    Sound ⟨t, s.issued, s.ended ++ [encode i g]⟩ := by
  have hr := hs.range i g _ hold rfl
  have hi := hs.index_lt hold
  have hdecode := decode_encode hi hr.2
  have hreplaced : Replaced s.table.slots t.slots i n :=
    hslots ▸ replaced_set (List.getElem?_eq_some_iff.mp hold).1 n
  obtain ⟨hself, ho⟩ := id hreplaced
  have hnotFree : ∀ j ∈ s.table.free, j ≠ i := by
    rintro j hj rfl
    obtain ⟨g', hvacant⟩ := hs.free_vacant j hj
    simp [hold] at hvacant
  -- Retired or with the next generation, the slot never gives out one up to `g` again.
  have hgiven : ∀ g', g' ≤ g → Given n g' := by
    intro g' hle
    rcases hn with rfl | ⟨rfl, -⟩
    · trivial
    · exact Nat.lt_succ_of_le hle
  constructor
  · exact hs.toFits.of_length (by simp [hslots]) hslotRoom hfreeRoom
  · intro hclose
    have he := (hs.closed_empty (hclosed ▸ hclose)).1
    simp [he] at hold
  · rcases hf with hf | ⟨hf, -⟩
    · exact hf ▸ hs.free_nodup
    · change t.free.Nodup
      rw [hf, nodup_append']
      refine ⟨hs.free_nodup, by simp, ?_⟩
      simp only [disjoint_singleton]
      exact fun hm => hnotFree i hm rfl
  · intro j hj
    have hkeep : j ∈ s.table.free → ∃ g', t.slots[j]? = some (.vacant g') := by
      intro hm
      obtain ⟨g', hvacant⟩ := hs.free_vacant j hm
      exact ⟨g', (ho j (hnotFree j hm)).trans hvacant⟩
    rcases hf with hf | ⟨hf, hvacant⟩
    · exact hkeep (hf ▸ hj)
    · change j ∈ t.free at hj
      rw [hf] at hj
      rcases mem_append.mp hj with hj | hj
      · exact hkeep hj
      · rw [mem_singleton.mp hj]
        exact ⟨g + 1, hvacant ▸ hself⟩
  · intro j g' slot hslot hstands
    rcases hreplaced.cases hslot with ⟨-, rfl⟩ | ⟨-, hslot⟩
    · rcases hn with rfl | ⟨rfl, hlt⟩
      · cases hstands
      · obtain rfl := Option.some.inj hstands
        omega
    · exact hs.range j g' slot hslot hstands
  · intro j g' r' o' hslot
    rcases hreplaced.cases hslot with ⟨-, heq⟩ | ⟨hji, hslot⟩
    · rcases hn with rfl | ⟨rfl, -⟩ <;> simp at heq
    · obtain ⟨hm, hlive⟩ := hs.occupied_issued j g' r' o' hslot
      refine ⟨hm, ?_⟩
      intro hend
      rcases mem_append.mp hend with hend | hend
      · exact hlive hend
      · have hsame := congrArg decode (mem_singleton.mp hend)
        rw [decode_encode (hs.index_lt hslot) (hs.range j g' _ hslot rfl).2, hdecode,
          Prod.mk.injEq] at hsame
        exact hji hsame.1
  · intro p hissued
    rcases hs.issued_given p hissued with hclose | ⟨slot, hslot, hpast⟩
    · exact .inl (hclosed.trans hclose)
    · by_cases hji : (decode p.handle).1 = i
      · rw [hji, hold] at hslot
        obtain rfl := Option.some.inj hslot
        exact .inr ⟨n, hji ▸ hself, hgiven _ hpast⟩
      · exact .inr ⟨slot, (ho _ hji).trans hslot, hpast⟩
  · intro p hissued
    rcases hs.issued_live p hissued with hend | hslot
    · exact .inl (mem_append_left _ hend)
    · by_cases hji : (decode p.handle).1 = i
      · left
        have hgeneration : (decode p.handle).2 = g := by
          rw [hji, hold] at hslot
          simp only [Option.some.injEq, Slot.occupied.injEq] at hslot
          exact hslot.1.symm
        have heq := encode_decode (hs.index_lt hslot)
        rw [hji, hgeneration] at heq
        simp [heq]
      · exact .inr ((ho _ hji).trans hslot)
  · exact forall_mem_append.mpr ⟨hs.ended_issued, forall_mem_singleton.mpr
      ⟨_, (hs.occupied_issued i g r obj hold).1, rfl⟩⟩
  · exact hs.issued_nodup
  · exact hs.issued_lt

end Sound

end Ferrix.Objects.HandleHistory

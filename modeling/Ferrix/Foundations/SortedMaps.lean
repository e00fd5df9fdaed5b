import Mathlib.Tactic

/-!
A map kept as its entries in ascending order of their keys: what a `BTreeMap` means.
-/

namespace Ferrix.Foundations.SortedMaps

open List

variable {K V : Type} [LinearOrder K]

def Ascending (entries : List (K × V)) : Prop := entries.Pairwise fun a b => a.1 < b.1

def lookup (key : K) (entries : List (K × V)) : Option V :=
  (entries.find? fun entry => entry.1 = key).map Prod.snd

def insertEntry (key : K) (value : V) : List (K × V) → List (K × V)
  | [] => [(key, value)]
  | entry :: entries =>
    if key < entry.1 then (key, value) :: entry :: entries
    else if key = entry.1 then (key, value) :: entries
    else entry :: insertEntry key value entries

def eraseEntry (key : K) (entries : List (K × V)) : List (K × V) :=
  entries.filter fun entry => entry.1 ≠ key

def ceilingEntry (key : K) (entries : List (K × V)) : Option (K × V) :=
  entries.find? fun entry => key ≤ entry.1

section

variable {key : K} {value : V} {entries : List (K × V)} {entry : K × V}

section

variable (hsorted : Ascending entries)
include hsorted

lemma Ascending.injective {a b : K × V} (ha : a ∈ entries)
    (hb : b ∈ entries) (heq : a.1 = b.1) : a = b :=
  inj_on_of_nodup_map (pairwise_map.mpr (hsorted.imp ne_of_lt)) ha hb heq

lemma Ascending.nodup : entries.Nodup :=
  hsorted.imp fun hlt heq => hlt.ne (congrArg Prod.fst heq)

lemma lookup_eq_some : lookup key entries = some value ↔ (key, value) ∈ entries := by
  rw [lookup, Option.map_eq_some_iff]
  constructor
  · rintro ⟨entry, hfind, rfl⟩
    have hk : entry.1 = key := by simpa using List.find?_some hfind
    rw [← hk]
    exact mem_of_find?_eq_some hfind
  · intro hm
    cases hfind : entries.find? fun entry => decide (entry.1 = key) with
    | none =>
      have hnone := List.find?_eq_none.mp hfind _ hm
      simp at hnone
    | some entry =>
      have hk : entry.1 = key := by simpa using List.find?_some hfind
      refine ⟨entry, rfl, ?_⟩
      rw [hsorted.injective (mem_of_find?_eq_some hfind) hm hk]

omit hsorted in
lemma lookup_eq_none : lookup key entries = none ↔ ∀ entry ∈ entries, entry.1 ≠ key := by
  rw [lookup, Option.map_eq_none_iff, List.find?_eq_none]
  simp

lemma mem_insertEntry : entry ∈ insertEntry key value entries ↔
      entry = (key, value) ∨ entry ∈ entries ∧ entry.1 ≠ key := by
  induction entries with
  | nil => simp [insertEntry]
  | cons f entries ih =>
    obtain ⟨hf, hr⟩ := pairwise_cons.mp hsorted
    rw [insertEntry]
    split_ifs with hlt heq
    · have hne : ∀ e ∈ f :: entries, e.1 ≠ key :=
        forall_mem_cons.mpr ⟨hlt.ne', fun e he => (hlt.trans (hf e he)).ne'⟩
      rw [mem_cons]
      exact or_congr_right ⟨fun he => ⟨he, hne _ he⟩, And.left⟩
    · have hne : ∀ e ∈ entries, e.1 ≠ key := fun e he => heq ▸ (hf e he).ne'
      rw [mem_cons, mem_cons]
      constructor
      · rintro (rfl | he)
        · exact .inl rfl
        · exact .inr ⟨.inr he, hne _ he⟩
      · rintro (rfl | ⟨rfl | he, hk⟩)
        · exact .inl rfl
        · exact absurd heq.symm hk
        · exact .inr he
    · rw [mem_cons, mem_cons, ih hr]
      constructor
      · rintro (rfl | rfl | he)
        · exact .inr ⟨.inl rfl, Ne.symm heq⟩
        · exact .inl rfl
        · exact .inr ⟨.inr he.1, he.2⟩
      · rintro (rfl | ⟨rfl | he, hk⟩)
        · exact .inr (.inl rfl)
        · exact .inl rfl
        · exact .inr (.inr ⟨he, hk⟩)

lemma Ascending.insertEntry (key : K) (value : V) :
    Ascending (insertEntry key value entries) := by
  induction entries with
  | nil => exact pairwise_singleton _ _
  | cons f entries ih =>
    obtain ⟨hf, hr⟩ := pairwise_cons.mp hsorted
    rw [SortedMaps.insertEntry]
    split_ifs with hlt heq
    · refine pairwise_cons.mpr ⟨?_, hsorted⟩
      exact forall_mem_cons.mpr ⟨hlt, fun e he => hlt.trans (hf e he)⟩
    · refine pairwise_cons.mpr ⟨?_, hr⟩
      intro e he
      rw [heq]
      exact hf e he
    · refine pairwise_cons.mpr ⟨?_, ih hr⟩
      intro e he
      rcases (mem_insertEntry hr).mp he with rfl | ⟨he, -⟩
      · exact lt_of_le_of_ne (not_lt.mp hlt) (Ne.symm heq)
      · exact hf e he

lemma Ascending.eraseEntry (key : K) : Ascending (eraseEntry key entries) :=
  hsorted.sublist filter_sublist

end

lemma mem_eraseEntry : entry ∈ eraseEntry key entries ↔ entry ∈ entries ∧ entry.1 ≠ key := by
  rw [eraseEntry, mem_filter]
  simp

end

structure SortedMap (K V : Type) [LinearOrder K] where
  entries : List (K × V)
  sorted : Ascending entries

namespace SortedMap

variable {key other : K} {value : V} {map map' : SortedMap K V}

instance : EmptyCollection (SortedMap K V) := ⟨⟨[], List.Pairwise.nil⟩⟩

instance [DecidableEq V] : DecidableEq (SortedMap K V) := fun map map' =>
  decidable_of_iff (map.entries = map'.entries) (by cases map; cases map'; simp)

def get? (map : SortedMap K V) (key : K) : Option V := lookup key map.entries

def insert (map : SortedMap K V) (key : K) (value : V) : SortedMap K V :=
  ⟨insertEntry key value map.entries, map.sorted.insertEntry key value⟩

def erase (map : SortedMap K V) (key : K) : SortedMap K V :=
  ⟨eraseEntry key map.entries, map.sorted.eraseEntry key⟩

def size (map : SortedMap K V) : Nat := map.entries.length

def ceiling (map : SortedMap K V) (key : K) : Option (K × V) := ceilingEntry key map.entries

lemma get?_eq_some : map.get? key = some value ↔ (key, value) ∈ map.entries :=
  lookup_eq_some map.sorted

@[simp] theorem get?_empty (key : K) : (∅ : SortedMap K V).get? key = none := rfl

@[simp] theorem get?_insert (map : SortedMap K V) (key other : K) (value : V) :
    (map.insert key value).get? other = if other = key then some value else map.get? other := by
  apply Option.ext
  intro found
  rw [get?_eq_some, insert, mem_insertEntry map.sorted]
  split_ifs with heq
  · subst heq
    simp [eq_comm]
  · simp [get?_eq_some, heq]

@[simp] theorem get?_erase (map : SortedMap K V) (key other : K) :
    (map.erase key).get? other = if other = key then none else map.get? other := by
  apply Option.ext
  intro found
  rw [get?_eq_some, erase, mem_eraseEntry]
  split_ifs with heq
  · simp [heq]
  · simp [get?_eq_some, heq]

lemma of_get?_insert {found : V} (hg : (map.insert key value).get? other = some found) :
    other = key ∧ value = found ∨ map.get? other = some found := by
  rw [get?_insert] at hg
  split_ifs at hg with heq
  · exact .inl ⟨heq, Option.some.inj hg⟩
  · exact .inr hg

lemma of_get?_erase (hg : (map.erase key).get? other = some value) :
    map.get? other = some value := by
  rw [get?_erase] at hg
  split_ifs at hg
  exact hg

/-- What holds of any two values, under different keys. -/
def AnyTwo (p : V → V → Prop) (map : SortedMap K V) : Prop :=
  ∀ ⦃i j a b⦄, map.get? i = some a → map.get? j = some b → i ≠ j → p a b

lemma anyTwo_empty (p : V → V → Prop) : (∅ : SortedMap K V).AnyTwo p :=
  fun i _ _ _ ha => nomatch (get?_empty i).symm.trans ha

lemma anyTwo_insert {p : V → V → Prop} (hsymm : ∀ ⦃a b⦄, p a b → p b a) (hp : map.AnyTwo p)
    (hnew : ∀ ⦃other found⦄, map.get? other = some found → other ≠ key → p value found) :
    (map.insert key value).AnyTwo p := by
  intro i j a b ha hb hne
  rw [get?_insert] at ha hb
  split_ifs at ha hb with hi hj hj
  · exact absurd (hi.trans hj.symm) hne
  · cases ha
    exact hnew hb hj
  · cases hb
    exact hsymm (hnew ha hi)
  · exact hp ha hb hne

lemma anyTwo_erase {p : V → V → Prop} (hp : map.AnyTwo p) : (map.erase key).AnyTwo p :=
  fun _ _ _ _ ha hb => hp (of_get?_erase ha) (of_get?_erase hb)

lemma head?_le {entry : K × V} (he : map.entries.head? = some entry)
    (hg : map.get? key = some value) : entry.1 ≤ key := by
  obtain ⟨r, hr⟩ := List.head?_eq_some_iff.mp he
  have hsorted := map.sorted
  have hm := get?_eq_some.mp hg
  rw [hr] at hsorted hm
  rcases mem_cons.mp hm with rfl | hm
  · exact le_rfl
  · exact (rel_of_pairwise_cons hsorted hm).le

lemma entries_ne_nil (hg : map.get? key = some value) : map.entries ≠ [] :=
  ne_nil_of_mem (get?_eq_some.mp hg)

lemma ext_get? (hg : ∀ key, map.get? key = map'.get? key) : map = map' := by
  have hperm : map.entries.Perm map'.entries := by
    refine (perm_ext_iff_of_nodup map.sorted.nodup map'.sorted.nodup).mpr ?_
    rintro ⟨key, value⟩
    rw [← get?_eq_some, ← get?_eq_some, hg]
  have hentries : map.entries = map'.entries := by
    refine hperm.eq_of_pairwise ?_ map.sorted map'.sorted
    intro a b _ _ hab hba
    exact absurd hab hba.not_gt
  cases map
  cases map'
  cases hentries
  rfl

lemma insert_perm (hfresh : map.get? key = none) :
    (map.insert key value).entries.Perm ((key, value) :: map.entries) := by
  have hne : ∀ entry ∈ map.entries, entry.1 ≠ key := lookup_eq_none.mp hfresh
  have hnodup : ((key, value) :: map.entries).Nodup :=
    nodup_cons.mpr ⟨fun hm => hne _ hm rfl, map.sorted.nodup⟩
  refine (perm_ext_iff_of_nodup (map.insert key value).sorted.nodup hnodup).mpr fun entry => ?_
  rw [insert, mem_insertEntry map.sorted, mem_cons]
  exact or_congr_right ⟨And.left, fun hm => ⟨hm, hne _ hm⟩⟩

lemma erase_insert (hfresh : map.get? key = none) : (map.insert key value).erase key = map := by
  refine ext_get? fun other => ?_
  rw [get?_erase, get?_insert]
  split_ifs with h
  · rw [h, hfresh]
  · rfl

lemma perm_erase (hg : map.get? key = some value) :
    map.entries.Perm ((key, value) :: (map.erase key).entries) := by
  have hsame : (map.erase key).insert key value = map := by
    refine ext_get? fun other => ?_
    rw [get?_insert, get?_erase]
    split_ifs with h
    · rw [h, hg]
    · rfl
  have hperm : ((map.erase key).insert key value).entries.Perm _ := insert_perm (by simp)
  rwa [hsame] at hperm

end SortedMap

end Ferrix.Foundations.SortedMaps

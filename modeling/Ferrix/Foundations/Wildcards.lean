import Mathlib.Tactic

/-!
A star takes any piece of the string, and every other token takes one element.
-/

namespace Ferrix.Foundations.Wildcards

open List

variable {T α : Type} (star : T → Prop) (takes : T → α → Prop)

def Takes (t : T) (piece : List α) : Prop := star t ∨ ∃ a, piece = [a] ∧ takes t a

/-- The string can be cut into pieces that the tokens take in turn. -/
def Fits (ts : List T) (s : List α) : Prop :=
  ∃ pieces : List (List α), pieces.flatten = s ∧ Forall₂ (Takes star takes) ts pieces

variable {star takes} {t t' : T} {ts ts' c : List T} {s u v : List α} {a : α}

lemma fits_nil : Fits star takes [] s ↔ s = [] := by
  constructor
  · rintro ⟨ps, rfl, hpieces⟩
    cases hpieces
    rfl
  · rintro rfl
    exact ⟨[], rfl, .nil⟩

lemma fits_cons : Fits star takes (t :: ts) s ↔
    ∃ u v, s = u ++ v ∧ Takes star takes t u ∧ Fits star takes ts v := by
  constructor
  · rintro ⟨ps, rfl, hpieces⟩
    cases hpieces with
    | cons htake hr => exact ⟨_, _, rfl, htake, _, rfl, hr⟩
  · rintro ⟨u, _, rfl, htake, ps, rfl, hr⟩
    exact ⟨u :: ps, rfl, .cons htake hr⟩

lemma fits_star (ht : star t) :
    Fits star takes (t :: ts) s ↔ ∃ u v, s = u ++ v ∧ Fits star takes ts v := by
  simp only [fits_cons, Takes, ht, true_or, true_and]

lemma fits_one (ht : ¬ star t) :
    Fits star takes (t :: ts) (a :: s) ↔ takes t a ∧ Fits star takes ts s := by
  rw [fits_cons]
  constructor
  · rintro ⟨u, v, heq, htake, hv⟩
    obtain ⟨b, rfl, hb⟩ := htake.resolve_left ht
    cases heq
    exact ⟨hb, hv⟩
  · rintro ⟨ha, hs⟩
    exact ⟨[a], s, rfl, .inr ⟨a, rfl, ha⟩, hs⟩

lemma not_fits_nil (ht : ¬ star t) : ¬ Fits star takes (t :: ts) [] := by
  intro h
  obtain ⟨u, v, heq, htake, -⟩ := fits_cons.mp h
  obtain ⟨a, rfl, -⟩ := htake.resolve_left ht
  cases heq

lemma fits_append : Fits star takes (ts ++ ts') s ↔
    ∃ u v, s = u ++ v ∧ Fits star takes ts u ∧ Fits star takes ts' v := by
  induction ts generalizing s with
  | nil => simp [fits_nil]
  | cons t ts ih =>
    simp only [cons_append, fits_cons, ih]
    constructor
    · rintro ⟨u, _, rfl, htake, v, w, rfl, hv, hw⟩
      exact ⟨u ++ v, w, by simp, ⟨u, v, rfl, htake, hv⟩, hw⟩
    · rintro ⟨_, w, rfl, ⟨u, v, rfl, htake, hv⟩, hw⟩
      exact ⟨u, v ++ w, by simp, htake, v, w, rfl, hv, hw⟩

lemma fits_of_forall₂ (h : Forall₂ takes ts s) : Fits star takes ts s := by
  induction h with
  | nil => exact fits_nil.mpr rfl
  | cons htake _ ih => exact fits_cons.mpr ⟨[_], _, rfl, .inr ⟨_, rfl, htake⟩, ih⟩

lemma fits_iff_forall₂ (h : ∀ t ∈ ts, ¬ star t) : Fits star takes ts s ↔ Forall₂ takes ts s := by
  refine ⟨fun hfits => ?_, fits_of_forall₂⟩
  induction ts generalizing s with
  | nil => exact fits_nil.mp hfits ▸ .nil
  | cons t ts ih =>
    obtain ⟨ht, hr⟩ := forall_mem_cons.mp h
    cases s with
    | nil => exact absurd hfits (not_fits_nil ht)
    | cons a s =>
      obtain ⟨ha, hs⟩ := (fits_one ht).mp hfits
      exact .cons ha (ih hr hs)

lemma fits_tail (h : ∀ t ∈ ts', ¬ star t) (hlen : ts'.length = v.length) :
    Fits star takes (ts ++ ts') (u ++ v) ↔ Fits star takes ts u ∧ Forall₂ takes ts' v := by
  rw [fits_append]
  constructor
  · rintro ⟨u', v', heq, hu, hv⟩
    rw [fits_iff_forall₂ h] at hv
    obtain ⟨rfl, rfl⟩ := append_inj' heq (hlen.symm.trans hv.length_eq)
    exact ⟨hu, hv⟩
  · rintro ⟨hu, hv⟩
    exact ⟨u, v, rfl, hu, fits_of_forall₂ hv⟩

lemma Fits.length_le (h : ∀ t ∈ ts', ¬ star t) (hfits : Fits star takes (ts ++ ts') s) :
    ts'.length ≤ s.length := by
  obtain ⟨u, v, rfl, -, hv⟩ := fits_append.mp hfits
  rw [((fits_iff_forall₂ h).mp hv).length_eq, length_append]
  exact Nat.le_add_left _ _

lemma Fits.starred (ht : star t) (h : Fits star takes ts s) : Fits star takes (t :: ts) s :=
  (fits_star ht).mpr ⟨[], s, rfl, h⟩

/-- What a star takes can be longer at the front. -/
theorem Fits.longer (ht : star t) (h : Fits star takes (t :: ts) v) (u : List α) :
    Fits star takes (t :: ts) (u ++ v) := by
  obtain ⟨w, x, rfl, hx⟩ := (fits_star ht).mp h
  exact (fits_star ht).mpr ⟨u ++ w, x, by simp, hx⟩

lemma fits_skip (ht : star t) (h : ¬ Fits star takes ts (a :: s)) :
    Fits star takes (t :: ts) (a :: s) ↔ Fits star takes (t :: ts) s := by
  refine ⟨fun hfits => ?_, fun hfits => hfits.longer ht [a]⟩
  obtain ⟨u, v, heq, hv⟩ := (fits_star ht).mp hfits
  cases u with
  | nil => exact absurd (heq ▸ hv) h
  | cons b u =>
    rw [cons_append, cons.injEq] at heq
    exact (fits_star ht).mpr ⟨u, v, heq.2, hv⟩

/-- A token after a star takes a byte at the front or one behind it. -/
theorem Fits.shorter (ht : star t) (ht' : ¬ star t')
    (h : Fits star takes (t :: t' :: ts) (a :: s)) : Fits star takes (t :: ts) s := by
  obtain ⟨u, v, heq, hv⟩ := (fits_star ht).mp h
  cases v with
  | nil => exact absurd hv (not_fits_nil ht')
  | cons b v =>
    have hts := ((fits_one ht').mp hv).2
    cases u with
    | nil =>
      cases heq
      exact hts.starred ht
    | cons c u =>
      cases heq
      exact (fits_star ht).mpr ⟨u ++ [b], v, by simp, hts⟩

variable (hc : Forall₂ takes c u) (hsingle : ∀ t ∈ c, ¬ star t)
include hc hsingle

lemma fits_after : Fits star takes (c ++ ts) (u ++ s) ↔ Fits star takes ts s := by
  rw [fits_append]
  constructor
  · rintro ⟨v, w, heq, hv, hw⟩
    have hlen := hc.length_eq.symm.trans ((fits_iff_forall₂ hsingle).mp hv).length_eq
    exact (append_inj heq hlen).2 ▸ hw
  · intro hs
    exact ⟨u, s, rfl, fits_of_forall₂ hc, hs⟩

/-- Tokens between two stars may be taken where they fit first. -/
theorem fits_first (ht : star t) (ht' : star t') :
    Fits star takes (t :: (c ++ t' :: ts)) (u ++ s) ↔ Fits star takes (t' :: ts) s := by
  constructor
  · intro h
    obtain ⟨skipped, _, heq, hrest⟩ := (fits_star ht).mp h
    obtain ⟨v, w, rfl, hv, hw⟩ := fits_append.mp hrest
    -- The place chosen first leaves the longest rest of the string.
    have hlen := hc.length_eq.symm.trans ((fits_iff_forall₂ hsingle).mp hv).length_eq
    obtain ⟨x, rfl⟩ : w <:+ s := by
      refine suffix_of_suffix_length_le ⟨skipped ++ v, ?_⟩ (suffix_append u s) ?_
      · rw [heq, append_assoc]
      · have := congrArg length heq
        simp only [length_append] at this
        omega
    exact hw.longer ht' x
  · intro h
    exact ((fits_after hc hsingle).mpr h).starred ht

end Ferrix.Foundations.Wildcards

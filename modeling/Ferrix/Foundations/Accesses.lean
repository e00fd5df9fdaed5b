import Mathlib.Logic.Relation
import Mathlib.Tactic

/-!
A program is the tree of its accesses.  Under `Runs` a read answers anything; under `Holds` the
program takes its steps between those of others, relying on what they leave alone.
-/

namespace Ferrix.Foundations.Accesses

open Relation List Function

/-- A program that reads and writes places and ends with a value. -/
inductive Access (L : Type) (W : L → Type) (α : Type)
  | done (value : α)
  | read (place : L) (next : W place → Access L W α)
  | write (place : L) (word : W place) (next : Access L W α)
  | barrier (next : Access L W α)

namespace Access

variable {L : Type} {W : L → Type} {α β : Type}

def bind (tree : Access L W α) (f : α → Access L W β) : Access L W β :=
  match tree with
  | .done value => f value
  | .read place next => .read place fun word => (next word).bind f
  | .write place word next => .write place word (next.bind f)
  | .barrier next => .barrier (next.bind f)

instance : Monad (Access L W) where
  pure := .done
  bind := bind

def get (place : L) : Access L W (W place) := .read place .done

def put (place : L) (word : W place) : Access L W Unit := .write place word (.done ())

def fence : Access L W Unit := .barrier (.done ())

def puts : List ((place : L) × W place) → Access L W Unit
  | [] => .done ()
  | ⟨place, word⟩ :: rest => .write place word (puts rest)

end Access

variable {L : Type} {W : L → Type} {α β : Type}

/-- The program ends with a value after reading some places, whatever they answered. -/
inductive Runs : Access L W α → List L → α → Prop
  | done (value : α) : Runs (.done value) [] value
  | read {place : L} {next : W place → Access L W α} (word : W place) {places : List L} {value : α}
      (rest : Runs (next word) places value) : Runs (.read place next) (place :: places) value
  | write {place : L} {word : W place} {next : Access L W α} {places : List L} {value : α}
      (rest : Runs next places value) : Runs (.write place word next) places value
  | barrier {next : Access L W α} {places : List L} {value : α} (rest : Runs next places value) :
      Runs (.barrier next) places value

variable {places : List L} {b : α}

lemma runs_done {a : α} : Runs (.done a : Access L W α) places b ↔ places = [] ∧ b = a := by
  constructor
  · rintro ⟨⟩
    exact ⟨rfl, rfl⟩
  · rintro ⟨rfl, rfl⟩
    exact .done _

lemma runs_read {p : L} {n : W p → Access L W α} : Runs (.read p n) places b ↔
      ∃ w r, places = p :: r ∧ Runs (n w) r b := by
  constructor
  · rintro ⟨⟩
    exact ⟨_, _, rfl, by assumption⟩
  · rintro ⟨w, r, rfl, h⟩
    exact .read w h

lemma runs_write {p : L} {w : W p} {n : Access L W α} :
    Runs (.write p w n) places b ↔ Runs n places b :=
  ⟨fun | .write r => r, .write⟩

lemma runs_barrier {n : Access L W α} : Runs (.barrier n) places b ↔ Runs n places b :=
  ⟨fun | .barrier r => r, .barrier⟩

lemma runs_bind {tree : Access L W α} {f : α → Access L W β} {b : β}
    (hruns : Runs (tree >>= f) places b) :
    ∃ l after a, Runs tree l a ∧ Runs (f a) after b ∧ places = l ++ after := by
  change Runs (tree.bind f) places b at hruns
  induction tree generalizing places with
  | done a => exact ⟨[], places, a, .done a, hruns, rfl⟩
  | read p n ih =>
    obtain ⟨w, r, rfl, hr⟩ := runs_read.mp hruns
    obtain ⟨l, after, a, ht, hn, rfl⟩ := ih w hr
    exact ⟨p :: l, after, a, .read w ht, hn, rfl⟩
  | write p w n ih =>
    obtain ⟨l, after, a, ht, hn, rfl⟩ := ih (runs_write.mp hruns)
    exact ⟨l, after, a, .write ht, hn, rfl⟩
  | barrier n ih =>
    obtain ⟨l, after, a, ht, hn, rfl⟩ := ih (runs_barrier.mp hruns)
    exact ⟨l, after, a, .barrier ht, hn, rfl⟩

variable [DecidableEq L] {S : Type} {rely : S → S → Prop}

/-- How the accesses of a program are seen in a state: what a place holds, and what a read and a
write leave. -/
structure View (L : Type) [DecidableEq L] (W : L → Type) (S : Type) where
  look : S → (place : L) → W place
  read : S → L → S
  write : S → (place : L) → W place → S
  look_write : ∀ s place word, look (write s place word) = update (look s) place word

inductive Moves (view : View L W S) : Access L W α → S → Access L W α → S → Prop
  | read (place : L) (next : W place → Access L W α) (s : S) :
      Moves view (.read place next) s (next (view.look s place)) (view.read s place)
  | write (place : L) (word : W place) (next : Access L W α) (s : S) :
      Moves view (.write place word next) s next (view.write s place word)
  | barrier (next : Access L W α) (s : S) : Moves view (.barrier next) s next s

/-- What the program comes to while nobody else takes a step. -/
def Access.alone (view : View L W S) : Access L W α → S → α × S
  | .done value, s => (value, s)
  | .read place next, s => (next (view.look s place)).alone view (view.read s place)
  | .write place word next, s => next.alone view (view.write s place word)
  | .barrier next, s => next.alone view s

def Stable (rely : S → S → Prop) (P : S → Prop) : Prop := ∀ s s', P s → rely s s' → P s'

lemma Stable.chain {P : S → Prop} (hstable : Stable rely P) {s s' : S}
    (hP : P s) (hrely : ReflTransGen rely s s') : P s' := by
  induction hrely with
  | refl => exact hP
  | tail _ hs ih => exact hstable _ _ ih hs

lemma Stable.and {P Q : S → Prop} (hP : Stable rely P)
    (hQ : Stable rely Q) : Stable rely fun s => P s ∧ Q s :=
  fun s s' h hrely => ⟨hP s s' h.1 hrely, hQ s s' h.2 hrely⟩

variable (view : View L W S) (rely guarantee : S → S → Prop)

/-- Between any steps of others that keep to `rely`, every step of the program keeps to
`guarantee`, and the program ends in a state with the value it ends with. -/
def Holds (post : α → S → Prop) : Access L W α → S → Prop
  | .done value, s => ∀ s', ReflTransGen rely s s' → post value s'
  | .read place next, s => ∀ s', ReflTransGen rely s s' →
      guarantee s' (view.read s' place) ∧
        Holds post (next (view.look s' place)) (view.read s' place)
  | .write place word next, s => ∀ s', ReflTransGen rely s s' →
      guarantee s' (view.write s' place word) ∧ Holds post next (view.write s' place word)
  | .barrier next, s => ∀ s', ReflTransGen rely s s' →
      guarantee s' s' ∧ Holds post next s'

variable {view rely guarantee} {post : α → S → Prop} {P : S → Prop} {s s' : S} {tree : Access L W α}
variable {words : List ((p : L) × W p)} {value : α}

lemma Holds.disturbed (hholds : Holds view rely guarantee post tree s) (hrely : rely s s') :
    Holds view rely guarantee post tree s' := by
  cases tree <;> exact fun s'' hchain => hholds s'' (.head hrely hchain)

lemma Holds.moves {tree' : Access L W α} (hholds : Holds view rely guarantee post tree s)
    (hmoves : Moves view tree s tree' s') :
    guarantee s s' ∧ Holds view rely guarantee post tree' s' := by
  cases hmoves <;> exact hholds s .refl

lemma Holds.done (hholds : Holds view rely guarantee post (.done value) s) :
    post value s := hholds s .refl

section

variable (hstable : Stable rely P)
include hstable

lemma holds_done (hP : P s)
    (hpost : ∀ s, P s → post value s) : Holds view rely guarantee post (.done value) s :=
  fun s' hchain => hpost s' (hstable.chain hP hchain)

lemma holds_read {p : L} {n : W p → Access L W α} (hP : P s)
    (hn : ∀ s, P s → guarantee s (view.read s p) ∧
      Holds view rely guarantee post (n (view.look s p)) (view.read s p)) :
    Holds view rely guarantee post (.read p n) s :=
  fun s' hchain => hn s' (hstable.chain hP hchain)

lemma holds_write {p : L} {w : W p} {n : Access L W α}
    (hP : P s) (hn : ∀ s, P s → guarantee s (view.write s p w) ∧
      Holds view rely guarantee post n (view.write s p w)) :
    Holds view rely guarantee post (.write p w n) s :=
  fun s' hchain => hn s' (hstable.chain hP hchain)

lemma holds_barrier {n : Access L W α} (hP : P s)
    (hn : ∀ s, P s → guarantee s s ∧ Holds view rely guarantee post n s) :
    Holds view rely guarantee post (.barrier n) s :=
  fun s' hchain => hn s' (hstable.chain hP hchain)

end

lemma holds_bind {f : α → Access L W β} {post : β → S → Prop}
    (hholds : Holds view rely guarantee (fun value s => Holds view rely guarantee post (f value) s)
      tree s) : Holds view rely guarantee post (tree >>= f) s := by
  change Holds view rely guarantee post (tree.bind f) s
  induction tree generalizing s with
  | done value => exact hholds s .refl
  | read p n ih =>
    exact fun s' hchain => ⟨(hholds s' hchain).1, ih _ (hholds s' hchain).2⟩
  | write p w n ih =>
    exact fun s' hchain => ⟨(hholds s' hchain).1, ih (hholds s' hchain).2⟩
  | barrier n ih => exact fun s' hchain => ⟨(hholds s' hchain).1, ih (hholds s' hchain).2⟩

lemma holds_map {f : α → β} {post : β → S → Prop}
    (hholds : Holds view rely guarantee (fun value => post (f value)) tree s) :
    Holds view rely guarantee post (f <$> tree) s := by
  change Holds view rely guarantee post (tree >>= fun value => .done (f value)) s
  refine holds_bind ?_
  induction tree generalizing s with
  | done value => exact fun s' hchain s'' hr => hholds s'' (hchain.trans hr)
  | read p n ih =>
    exact fun s' hchain => ⟨(hholds s' hchain).1, ih _ (hholds s' hchain).2⟩
  | write p w n ih =>
    exact fun s' hchain => ⟨(hholds s' hchain).1, ih (hholds s' hchain).2⟩
  | barrier n ih => exact fun s' hchain => ⟨(hholds s' hchain).1, ih (hholds s' hchain).2⟩

def Has (view : View L W S) (words : List ((place : L) × W place)) (s : S) : Prop :=
  ∀ word ∈ words, view.look s word.1 = word.2

lemma has_append {l r : List ((p : L) × W p)} :
    Has view (l ++ r) s ↔ Has view l s ∧ Has view r s := by
  simp only [Has, forall_mem_append]

lemma Has.write {p : L} (hhas : Has view words s) (hfresh : p ∉ words.map Sigma.fst) (w : W p) :
    Has view (words ++ [⟨p, w⟩]) (view.write s p w) := by
  rw [has_append]
  constructor
  · intro o ho
    have hne : o.1 ≠ p := by
      rintro rfl
      exact hfresh (mem_map_of_mem ho)
    rw [view.look_write, update_of_ne hne]
    exact hhas o ho
  · intro o ho
    rw [mem_singleton.mp ho, view.look_write]
    exact update_self _ _ _

lemma holds_puts (own : L → Prop) (written : List ((p : L) × W p))
    {f : Unit → Access L W β} {post : β → S → Prop}
    (hstable : ∀ words, (∀ w ∈ words, own w.1) → Stable rely fun s => P s ∧ Has view words s)
    (hwrite : ∀ p w s, own p → P s → guarantee s (view.write s p w) ∧ P (view.write s p w))
    (hown : ∀ w ∈ written ++ words, own w.1)
    (hnodup : ((written ++ words).map Sigma.fst).Nodup) (hP : P s) (hwritten : Has view written s)
    (hn : ∀ s, P s → Has view (written ++ words) s → Holds view rely guarantee post (f ()) s) :
    Holds view rely guarantee post (Access.puts words >>= f) s := by
  induction words generalizing written s with
  | nil =>
    rw [append_nil] at hn
    exact hn s hP hwritten
  | cons w words ih =>
    obtain ⟨p, value⟩ := w
    have hsplit : written ++ ⟨p, value⟩ :: words = written ++ [⟨p, value⟩] ++ words := by
      simp
    have hfresh : p ∉ written.map Sigma.fst := by
      rw [map_append, nodup_append'] at hnodup
      exact fun hm => hnodup.2.2 hm mem_cons_self
    have hmine : ∀ w ∈ written, own w.1 := fun w hw =>
      hown w (mem_append_left _ hw)
    rw [hsplit] at hown hnodup hn
    refine holds_write (hstable written hmine) ⟨hP, hwritten⟩ fun s' hs' => ?_
    obtain ⟨hdoes, hP'⟩ := hwrite p value s' (hown ⟨p, value⟩ (by simp)) hs'.1
    exact ⟨hdoes, ih _ hown hnodup hP' (hs'.2.write hfresh value) hn⟩

end Ferrix.Foundations.Accesses

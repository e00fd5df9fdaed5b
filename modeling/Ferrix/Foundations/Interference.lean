import Mathlib.Tactic

/-!
A program ends with an answer, or changes the state at once and goes on.  Between two of its
actions others may move the state along a relation.
-/

namespace Ferrix.Foundations.Interference

inductive Program (σ α : Type) where
  | done (a : α)
  | act (change : σ → σ) (next : σ → Program σ α)

namespace Program

variable {σ α β : Type}

def bind (f : α → Program σ β) : Program σ α → Program σ β
  | .done a => f a
  | .act change next => .act change fun s => (next s).bind f

instance : Monad (Program σ) where
  pure := .done
  bind p f := p.bind f

def view (f : σ → α) : Program σ α := .act id fun s => .done (f s)

/-- Wherever the others, along `R`, take the state before each action, the action leads to a state
in `I`, and the program ends as `Q` says. -/
def Safe (R : σ → σ → Prop) (I : σ → Prop) (Q : α → σ → Prop) : Program σ α → σ → Prop
  | .done a, s => ∀ s', R s s' → Q a s'
  | .act change next, s =>
    ∀ s', R s s' → I (change s') ∧ Safe R I Q (next s') (change s')

variable {R : σ → σ → Prop} {I : σ → Prop} {Q : α → σ → Prop} {p : Program σ α} {s s' : σ}

lemma Safe.stable [IsTrans σ R] (hsafe : p.Safe R I Q s) (hmove : R s s') : p.Safe R I Q s' := by
  cases p with
  | done a => exact fun s'' h => hsafe s'' (IsTrans.trans _ _ _ hmove h)
  | act change n => exact fun s'' h => hsafe s'' (IsTrans.trans _ _ _ hmove h)

lemma Safe.bind [Std.Refl R] {Q' : β → σ → Prop} {f : α → Program σ β}
    (hsafe : p.Safe R I Q s) (hf : ∀ a s, Q a s → (f a).Safe R I Q' s) :
    (p >>= f).Safe R I Q' s := by
  induction p generalizing s with
  | done a => exact hf a s (hsafe s (Std.Refl.refl s))
  | act change n ih =>
    intro s' h
    obtain ⟨hchange, hn⟩ := hsafe s' h
    exact ⟨hchange, ih s' hn⟩

lemma Safe.mono {Q' : α → σ → Prop} (hsafe : p.Safe R I Q s) (hQ : ∀ a s, Q a s → Q' a s) :
    p.Safe R I Q' s := by
  induction p generalizing s with
  | done a => exact fun s' h => hQ a s' (hsafe s' h)
  | act change n ih =>
    intro s' h
    obtain ⟨hchange, hn⟩ := hsafe s' h
    exact ⟨hchange, ih s' hn⟩

end Program

end Ferrix.Foundations.Interference

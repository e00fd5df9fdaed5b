import Mathlib.Tactic

/-!
A program reads and changes a state and either answers or fails; what it changed before failing
stays changed.
-/

namespace Ferrix.Foundations.Programs

variable {σ ε α β : Type}

/-- A program over the state `σ` that answers an `α` or fails with an `ε`. -/
def Program (σ ε α : Type) : Type := σ → Except ε α × σ

namespace Program

instance : Monad (Program σ ε) where
  pure a := fun s => (.ok a, s)
  bind m f := fun s =>
    match m s with
    | (.ok a, s') => f a s'
    | (.error e, s') => (.error e, s')

def fail (e : ε) : Program σ ε α := fun s => (.error e, s)

def view (f : σ → α) : Program σ ε α := fun s => (.ok (f s), s)

def modify (f : σ → σ) : Program σ ε Unit := fun s => (.ok (), f s)

def ofOption (opt : Option α) (e : ε) : Program σ ε α :=
  match opt with
  | some a => pure a
  | none => fail e

def ofExcept (result : Except ε α) : Program σ ε α := fun s => (result, s)

def require (c : Bool) (e : ε) : Program σ ε Unit := if c then pure () else fail e

def each (body : β → Program σ ε Unit) : List β → Program σ ε Unit
  | [] => pure ()
  | b :: l => do
    body b
    each body l

variable {g : σ → σ}

section

variable {s s' : σ} {m : Program σ ε α} {f : α → Program σ ε β} {a : α} {e : ε}

@[simp] theorem pure_run (a : α) (s : σ) : (pure a : Program σ ε α) s = (.ok a, s) := rfl

@[simp] theorem view_run (f : σ → α) (s : σ) : (view f : Program σ ε α) s = (.ok (f s), s) := rfl

@[simp] theorem modify_run (f : σ → σ) (s : σ) :
    (modify f : Program σ ε Unit) s = (.ok (), f s) := rfl

lemma bind_run (m : Program σ ε α) (f : α → Program σ ε β) (s : σ) : (m >>= f) s = match m s with
      | (.ok a, s') => f a s'
      | (.error e, s') => (.error e, s') := rfl

lemma bind_of_ok (hm : m s = (.ok a, s')) : (m >>= f) s = f a s' := by
  rw [bind_run, hm]

lemma bind_modify_run {f : Unit → Program σ ε β} (hg : g s = s') :
    (modify g >>= f) s = f () s' := by
  rw [bind_run, modify_run, hg]

end

/-- From `s` the program ends with an answer and a state as `ok` says, or fails as `err` says. -/
def Ends (m : Program σ ε α) (s : σ) (ok : α → σ → Prop) (err : ε → σ → Prop) : Prop :=
  match m s with
  | (.ok a, s') => ok a s'
  | (.error e, s') => err e s'

variable {e : ε} {c : Bool}

namespace Ends

variable {s s' : σ} {m : Program σ ε α} {f : α → Program σ ε β} {ok ok' : α → σ → Prop}
variable {err err' : ε → σ → Prop} {mid : β → σ → Prop} {a : α}

lemma view {g : σ → α} (h : ok (g s) s) : Ends (Program.view g) s ok err := h

lemma of_run (hrun : m s = (.ok a, s')) (h : ok a s') : Ends m s ok err := by
  rw [Ends, hrun]
  exact h

lemma bind {mid : α → σ → Prop} {ok : β → σ → Prop} (hm : Ends m s mid err)
    (hf : ∀ a s', mid a s' → Ends (f a) s' ok err) : Ends (m >>= f) s ok err := by
  rw [Ends] at hm ⊢
  rw [bind_run]
  rcases hrun : m s with ⟨e | a, s'⟩
  · rw [hrun] at hm
    exact hm
  · rw [hrun] at hm
    exact hf a s' hm

lemma bind_view {γ : Type} {g : σ → γ} {f : γ → Program σ ε α} (h : Ends (f (g s)) s ok err) :
    Ends (Program.view g >>= f) s ok err := h

lemma bind_pure {γ : Type} {c : γ} {f : γ → Program σ ε α} (h : Ends (f c) s ok err) :
    Ends ((Pure.pure c : Program σ ε γ) >>= f) s ok err := h

lemma bind_modify {f : Unit → Program σ ε α} (h : Ends (f ()) (g s) ok err) :
    Ends (Program.modify g >>= f) s ok err := h

lemma bind_some {γ : Type} {opt : Option γ} {c : γ} {f : γ → Program σ ε α}
    (ho : opt = some c) (h : Ends (f c) s ok err) :
    Ends (Program.ofOption opt e >>= f) s ok err := by
  rw [ho]
  exact h

lemma guard {f : Unit → Program σ ε α} (hfalse : err e s)
    (htrue : c = true → Ends (f ()) s ok err) : Ends (Program.require c e >>= f) s ok err := by
  cases c with
  | false => exact hfalse
  | true => exact htrue rfl

lemma bind_option {γ : Type} {opt : Option γ} {f : γ → Program σ ε α} (hnone : err e s)
    (hsome : ∀ c, opt = some c → Ends (f c) s ok err) :
    Ends (Program.ofOption opt e >>= f) s ok err := by
  cases opt with
  | none => exact hnone
  | some c => exact hsome c rfl

lemma mono (hm : Ends m s ok err) (hok : ∀ a s', ok a s' → ok' a s')
    (herr : ∀ e s', err e s' → err' e s') : Ends m s ok' err' := by
  rw [Ends] at hm ⊢
  rcases hrun : m s with ⟨e | a, s'⟩
  · rw [hrun] at hm
    exact herr e s' hm
  · rw [hrun] at hm
    exact hok a s' hm

lemma mono_ok (hm : Ends m s ok err) (hok : ∀ a s', ok a s' → ok' a s') : Ends m s ok' err :=
  hm.mono hok fun _ _ h => h

lemma ofOption {opt : Option α} (hsome : ∀ a, opt = some a → ok a s)
    (hnone : opt = none → err e s) : Ends (Program.ofOption opt e) s ok err := by
  cases opt with
  | none => exact hnone rfl
  | some a => exact hsome a rfl

lemma ofExcept {result : Except ε α} (hok : ∀ a, result = .ok a → ok a s)
    (herr : ∀ e, result = .error e → err e s) : Ends (Program.ofExcept result) s ok err := by
  cases result with
  | error e => exact herr e rfl
  | ok a => exact hok a rfl

lemma require {ok : Unit → σ → Prop} (htrue : c = true → ok () s)
    (hfalse : c = false → err e s) : Ends (Program.require c e) s ok err := by
  cases c with
  | false => exact hfalse rfl
  | true => exact htrue rfl

lemma ok_of_run (hm : Ends m s ok err) (hrun : m s = (.ok a, s')) : ok a s' := by
  rw [Ends, hrun] at hm
  exact hm

end Ends

/-- Wherever the program starts, the relation leads from there to where it ends. -/
def Moves (R : σ → σ → Prop) (m : Program σ ε α) : Prop := ∀ s, R s (m s).2

namespace Moves

variable {R : σ → σ → Prop} {m : Program σ ε α} {f : α → Program σ ε β}

lemma modify (hg : ∀ s, R s (g s)) : Moves R (Program.modify g : Program σ ε Unit) := hg

lemma bind [IsTrans σ R] (hm : Moves R m) (hf : ∀ a, Moves R (f a)) : Moves R (m >>= f) := by
  intro s
  have hfirst := hm s
  rw [bind_run]
  rcases hrun : m s with ⟨e | a, s'⟩ <;> rw [hrun] at hfirst
  · exact hfirst
  · exact IsTrans.trans _ _ _ hfirst (hf a s')

variable [Std.Refl R]

lemma pure (a : α) : Moves R (Pure.pure a : Program σ ε α) := Std.Refl.refl

lemma view (g : σ → α) : Moves R (Program.view g : Program σ ε α) := Std.Refl.refl

lemma require (c : Bool) (e : ε) : Moves R (Program.require c e : Program σ ε Unit) := by
  cases c <;> exact Std.Refl.refl

lemma ofOption (opt : Option α) (e : ε) : Moves R (Program.ofOption opt e : Program σ ε α) := by
  cases opt <;> exact Std.Refl.refl

lemma each [IsTrans σ R] {body : β → Program σ ε Unit} (hbody : ∀ b, Moves R (body b))
    (l : List β) : Moves R (Program.each body l) := by
  induction l with
  | nil => exact pure ()
  | cons b l ih => exact bind (hbody b) fun _ => ih

end Moves

end Program

end Ferrix.Foundations.Programs

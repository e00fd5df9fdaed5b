import Ferrix.Foundations.Interference
import Ferrix.Foundations.Reachability

/-!
`EPOLL_CTL_ADD` and `EPOLL_CTL_DEL` of sets in sets, one set lock a step.
-/

namespace Ferrix.Epoll.Nesting

open Relation Function Foundations Interference Reachability

section

def MAX_NESTS : Nat := 4

inductive Errno where
  | EEXIST
  | ELOOP
  | ENOMEM

/-- `items` are a set's registrations, each a set and the number it was added under; `parents` the
notes of who holds a set.  Calls that have still to take back a note that the second set holds the
first are `forgetting`. -/
structure Sets where
  items : Nat → List (Nat × Nat)
  parents : Nat → List Nat
  forgetting : List (Nat × Nat)

def Sets.children (s : Sets) (set : Nat) : List Nat := (s.items set).map Prod.fst

def Sets.Holds (s : Sets) (outer inner : Nat) : Prop := inner ∈ s.children outer

def deepest (walk : Nat → Program Sets (Option Nat)) :
    List Nat → Nat → Program Sets (Option Nat)
  | [], depth => pure (some depth)
  | set :: rest, depth => do
    match ← walk set with
    | none => pure none
    | some further => deepest walk rest (max depth (further + 1))

/-- How far `look` leads from a set, or nothing past a set to `stop` at or `remaining` levels. -/
def depth (look : Sets → Nat → List Nat) (stop : Nat → Bool) :
    Nat → Nat → Program Sets (Option Nat)
  | 0, _ => pure none
  | remaining + 1, set =>
    if stop set then pure none else do
      let next ← .view fun s => look s set
      deepest (depth look stop remaining) next 0

def depthBelow (target set : Nat) : Program Sets (Option Nat) :=
  depth Sets.children (· == target) (MAX_NESTS + 1) set

def depthAbove (set : Nat) : Program Sets (Option Nat) :=
  depth Sets.parents (fun _ => false) (MAX_NESTS + 1) set

variable (self inner fd : Nat)

def checkNesting : Program Sets (Except Errno Unit) := do
  match ← depthBelow self inner with
  | none => pure (.error .ELOOP)
  | some below =>
    match ← depthAbove self with
    | none => pure (.error .ELOOP)
    | some above => pure (if below + 1 + above > MAX_NESTS then .error .ELOOP else .ok ())

def addParent : Program Sets Unit :=
  .act (fun s => { s with parents := update s.parents inner (s.parents inner ++ [self]) })
    fun _ => pure ()

/-- A refused registration leaves the note of its parent to be taken back. -/
def insert (room : Bool) : Program Sets (Except Errno Unit) :=
  .act
    (fun s => if (inner, fd) ∈ s.items self ∨ !room then
        { s with forgetting := (inner, self) :: s.forgetting }
      else { s with items := update s.items self (s.items self ++ [(inner, fd)]) })
    fun s => pure (if (inner, fd) ∈ s.items self then .error .EEXIST
      else if room then .ok () else .error .ENOMEM)

/-- `noted` and `listed` say whether there is memory for the note and the registration. -/
def add (noted listed : Bool) : Program Sets (Except Errno Unit) := do
  match ← checkNesting self inner with
  | .error error => pure (.error error)
  | .ok () =>
    if noted then do
      addParent self inner
      insert self inner fd listed
    else pure (.error .ENOMEM)

def Sets.remove (s : Sets) : Sets :=
  { s with
    items := update s.items self ((s.items self).erase (inner, fd))
    forgetting := (inner, self) :: s.forgetting }

def Sets.removeParent (s : Sets) : Sets :=
  { s with
    parents := update s.parents inner ((s.parents inner).erase self)
    forgetting := s.forgetting.erase (inner, self) }

structure State where
  sets : Sets
  adds : Nat → Program Sets (Except Errno Unit)

/-- Thread `t` begins an add, as the label says, or takes the next lock of one; or a call that
removes takes a lock. -/
inductive Step (s : State) (t : Nat) : Bool → State → Prop
  | add (self inner fd : Nat) (noted listed : Bool) (answer : Except Errno Unit)
      (h : s.adds t = .done answer) :
      Step s t true { s with adds := update s.adds t (add self inner fd noted listed) }
  | act (change : Sets → Sets) (next : Sets → Program Sets (Except Errno Unit))
      (h : s.adds t = .act change next) :
      Step s t false ⟨change s.sets, update s.adds t (next s.sets)⟩
  | remove (self inner fd : Nat) (h : (inner, fd) ∈ s.sets.items self) :
      Step s t false { s with sets := s.sets.remove self inner fd }
  | removeParent (self inner : Nat) (h : (inner, self) ∈ s.sets.forgetting) :
      Step s t false { s with sets := s.sets.removeParent self inner }

def new : State := ⟨⟨fun _ => [], fun _ => [], []⟩, fun _ => pure (.ok ())⟩

def Next (s s' : State) : Prop := ∃ t begins, Step s t begins s'

def OrderlyNext (s s' : State) : Prop :=
  ∃ t begins, Step s t begins s' ∧ (begins = true → ∀ u, ∃ answer, s.adds u = .done answer)

end

section

variable {s s' : Sets} {inner : Nat}

/-- How many notes of `outer` in `inner` no registration and no call to come accounts for. -/
def Sets.slack (s : Sets) (outer inner : Nat) : Int :=
  (s.parents inner).count outer - (s.children outer).count inner -
    s.forgetting.count (inner, outer)

structure Inv (s : Sets) : Prop where
  noted : ∀ outer inner, 0 ≤ s.slack outer inner
  acyclic : Acyclic s.Holds
  bounded : ∀ chain : List Nat, chain.IsChain s.Holds → chain.length ≤ MAX_NESTS + 1

/-- What others may do while an add is under way: registrations only go, with their notes. -/
structure Shrinks (s s' : Sets) : Prop where
  holds : ∀ outer inner, s'.Holds outer inner → s.Holds outer inner
  slack : ∀ outer inner, s'.slack outer inner = s.slack outer inner

instance : Std.Refl Shrinks := ⟨fun _ => ⟨fun _ _ => id, fun _ _ => rfl⟩⟩

lemma Shrinks.trans {s'' : Sets} (h : Shrinks s s') (h' : Shrinks s' s'') : Shrinks s s'' where
  holds outer inner hholds := h.holds outer inner (h'.holds outer inner hholds)
  slack outer inner := (h'.slack outer inner).trans (h.slack outer inner)

instance : IsTrans Sets Shrinks := ⟨fun _ _ _ => .trans⟩

lemma Inv.keep (h : Inv s) (hholds : ∀ a b, s'.Holds a b → s.Holds a b)
    (hnoted : ∀ outer inner, 0 ≤ s'.slack outer inner) : Inv s' :=
  ⟨hnoted, h.acyclic.mono hholds, fun chain hchain => h.bounded chain (hchain.imp hholds)⟩

lemma Inv.shrinks (hi : Inv s) (h : Shrinks s s') : Inv s' :=
  hi.keep h.holds fun outer inner => h.slack outer inner ▸ hi.noted outer inner

/-- Every chain of `edge`s from a set has at most `depth` further sets, and meets none to stop
at. -/
def Within (edge : Nat → Nat → Prop) (stop : Nat → Bool) (set depth : Nat) : Prop :=
  ∀ chain : List Nat, (set :: chain).IsChain edge →
    chain.length ≤ depth ∧ ∀ other ∈ set :: chain, stop other = false

lemma Within.mono {edge edge' : Nat → Nat → Prop} {stop : Nat → Bool} {set depth : Nat}
    (h : Within edge stop set depth) (hedge : ∀ a b, edge' a b → edge a b) :
    Within edge' stop set depth := fun chain hchain => h chain (hchain.imp hedge)

section

variable (edge : Sets → Nat → Nat → Prop) {look : Sets → Nat → List Nat} {stop : Nat → Bool}

def Walked (stop : Nat → Bool) (s : Sets) (set : Nat)
    (answer : Option Nat) (s' : Sets) : Prop :=
  Shrinks s s' ∧ ∀ depth ∈ answer, Within (edge s') stop set depth

variable (hedge : ∀ s s', Shrinks s s' → ∀ a b, edge s' a b → edge s a b)

include hedge

lemma deepest_safe {walk : Nat → Program Sets (Option Nat)}
    (hwalk : ∀ set s, Inv s → (walk set).Safe Shrinks Inv (Walked edge stop s set) s)
    (sets : List Nat) (depth : Nat) (h : Inv s) :
    (deepest walk sets depth).Safe Shrinks Inv (fun answer s' => Shrinks s s' ∧
      ∀ deeper ∈ answer, depth ≤ deeper ∧
        ∀ set ∈ sets, ∃ further < deeper, Within (edge s') stop set further) s := by
  induction sets generalizing depth s with
  | nil => exact fun s' h => ⟨h, by simp⟩
  | cons set r ih =>
    refine (hwalk set s h).bind ?_
    rintro (_ | further) s₁ ⟨hshrinks, hwithin⟩
    · exact fun s' h => ⟨hshrinks.trans h, by simp⟩
    · refine (ih _ (h.shrinks hshrinks)).mono ?_
      rintro answer s₂ ⟨hshrinks', hr⟩
      refine ⟨hshrinks.trans hshrinks', fun deeper hdeeper => ?_⟩
      obtain ⟨hle, hall⟩ := hr deeper hdeeper
      refine ⟨by omega, List.forall_mem_cons.mpr ⟨⟨further, by omega, ?_⟩, hall⟩⟩
      intro chain hchain
      exact hwithin further rfl chain (hchain.imp (hedge _ _ hshrinks'))

lemma depth_safe (hlook : ∀ s, Inv s → ∀ a b, edge s a b → b ∈ look s a)
    (remaining set : Nat) (h : Inv s) :
    (depth look stop remaining set).Safe Shrinks Inv (Walked edge stop s set) s := by
  induction remaining generalizing set s with
  | zero => exact fun s' h => ⟨h, by simp⟩
  | succ remaining ih =>
    rw [depth]
    split_ifs with hstop
    · exact fun s' h => ⟨h, by simp⟩
    · intro s₁ hshrinks
      have hinv₁ := h.shrinks hshrinks
      refine ⟨hinv₁, (deepest_safe edge hedge (fun _ _ => ih _) _ 0 hinv₁).mono ?_⟩
      rintro answer s₂ ⟨hshrinks', hall⟩
      refine ⟨hshrinks.trans hshrinks', fun deeper hdeeper chain hchain => ?_⟩
      cases chain with
      | nil => simpa using hstop
      | cons o chain =>
        rw [List.isChain_cons_cons] at hchain
        have hm := hlook s₁ hinv₁ set o (hedge _ _ hshrinks' _ _ hchain.1)
        obtain ⟨further, hlt, hwithin⟩ := (hall deeper hdeeper).2 o hm
        obtain ⟨hlen, hclear⟩ := hwithin chain hchain.2
        exact ⟨by simp; omega, List.forall_mem_cons.mpr ⟨by simpa using hstop, hclear⟩⟩

end

variable {self fd : Nat}

lemma isChain_addEdges {r : Nat → Nat → Prop} {chain : List Nat}
    (hchain : chain.IsChain (addEdges r self {inner})) :
    chain.IsChain r ∨ ∃ upper lower, chain = upper ++ inner :: lower ∧
      upper.getLast? = some self ∧ upper.IsChain (addEdges r self {inner}) ∧
        (inner :: lower).IsChain r := by
  induction chain with
  | nil => exact .inl .nil
  | cons a chain ih =>
    rcases ih hchain.tail with hr | ⟨upper, lower, rfl, hl, hupper, hlower⟩
    · cases chain with
      | nil => exact .inl (.singleton a)
      | cons b chain =>
        rcases (List.isChain_cons_cons.mp hchain).1 with hab | ⟨rfl, rfl⟩
        · exact .inl (.cons_cons hab hr)
        · exact .inr ⟨[a], chain, rfl, rfl, .singleton a, hr⟩
    · refine .inr ⟨a :: upper, lower, rfl, ?_, ?_, hlower⟩
      · cases upper <;> simp_all
      · exact (List.isChain_append.mp hchain).1

/-- The chains below `inner` avoid `self`, and with those above it leave room for one more. -/
def Fits (s : Sets) (self inner : Nat) : Prop :=
  ∃ below above, Within s.Holds (· == self) inner below ∧
    Within (fun a b => s.Holds b a) (fun _ => false) self above ∧ below + 1 + above ≤ MAX_NESTS

lemma Fits.mono (h : Fits s self inner) (hholds : ∀ a b, s'.Holds a b → s.Holds a b) :
    Fits s' self inner := by
  obtain ⟨below, above, hbelow, habove, hroom⟩ := h
  exact ⟨below, above, hbelow.mono hholds, habove.mono fun _ _ => hholds _ _, hroom⟩

lemma Inv.register (h : Inv s) (hfits : Fits s self inner)
    (hholds : ∀ a b, s'.Holds a b → addEdges s.Holds self {inner} a b)
    (hnoted : ∀ outer inner, 0 ≤ s'.slack outer inner) : Inv s' := by
  obtain ⟨below, above, hbelow, habove, hroom⟩ := hfits
  have hclear : ∀ lower, (inner :: lower).IsChain s.Holds → self ∉ inner :: lower :=
    fun lower hlower hm => by simpa using (hbelow lower hlower).2 self hm
  refine ⟨hnoted, (Acyclic.addEdges h.acyclic ?_).mono hholds, fun chain hchain => ?_⟩
  · rintro _ rfl hreach
    obtain ⟨lower, hlower, hl⟩ := List.exists_isChain_cons_of_relationReflTransGen hreach
    exact hclear lower hlower (hl ▸ List.getLast_mem _)
  · rcases isChain_addEdges (hchain.imp hholds) with
      hold | ⟨upper, lower, rfl, hl, hupper, hlower⟩
    · exact h.bounded chain hold
    · have hupper : upper.IsChain s.Holds := by
        refine (isChain_addEdges hupper).resolve_right ?_
        rintro ⟨f, second, rfl, -, -, hsecond⟩
        exact hclear second hsecond (List.mem_of_getLast? (by simpa using hl))
      obtain ⟨r, rfl⟩ := List.getLast?_eq_some_iff.mp hl
      have hr : (self :: r.reverse).IsChain fun a b => s.Holds b a := by
        rw [← List.reverse_concat]
        exact List.isChain_reverse.mpr hupper
      have hlong := (habove r.reverse hr).1
      have hdeep := (hbelow lower hlower).1
      simp only [List.length_append, List.length_cons, List.length_nil,
        List.length_reverse] at hlong ⊢
      omega

lemma insert_safe {room : Bool} (h : Inv s) (hfits : Fits s self inner)
    (hslack : 0 < s.slack self inner) :
    (insert self inner fd room).Safe Shrinks Inv (fun _ _ => True) s := by
  intro s₁ hshrinks
  refine ⟨?_, fun _ _ => trivial⟩
  have hinv₁ := h.shrinks hshrinks
  have hslack₁ := hshrinks.slack self inner ▸ hslack
  dsimp only
  split_ifs
  · refine hinv₁.keep (fun _ _ => id) fun outer o => ?_
    have := hinv₁.noted outer o
    simp only [Sets.slack, List.count_cons, Sets.children] at *
    grind
  · refine hinv₁.register (hfits.mono hshrinks.holds) ?_ ?_
    · intro a b hab
      simp only [Sets.Holds, Sets.children, update_apply, addEdges] at *
      grind
    · intro outer o
      have := hinv₁.noted outer o
      simp only [Sets.slack, Sets.children, update_apply] at *
      grind

lemma checkNesting_safe (h : Inv s) : (checkNesting self inner).Safe Shrinks Inv
    (fun answer s' => Shrinks s s' ∧ (answer = .ok () → Fits s' self inner)) s := by
  refine (depth_safe Sets.Holds (fun _ _ h => h.holds) (fun _ _ _ _ => id) _ _ h).bind ?_
  rintro (_ | below) s₁ ⟨hshrinks, hbelow⟩
  · exact fun s' h => ⟨hshrinks.trans h, nofun⟩
  · refine (depth_safe (fun s a b => s.Holds b a) (fun _ _ h _ _ => h.holds _ _) ?_ _ _
      (h.shrinks hshrinks)).bind ?_
    · intro s h inner outer hholds
      have hpos := List.count_pos_iff.mpr hholds
      have hnoted := h.noted outer inner
      rw [Sets.slack] at hnoted
      exact List.count_pos_iff.mp (by omega)
    · rintro (_ | above) s₂ ⟨hshrinks', habove⟩ s₃ h₃
      · exact ⟨hshrinks.trans (hshrinks'.trans h₃), nofun⟩
      · refine ⟨hshrinks.trans (hshrinks'.trans h₃), ?_⟩
        intro hok
        have hroom : below + 1 + above ≤ MAX_NESTS := by grind
        have hbelow' := (hbelow below rfl).mono hshrinks'.holds
        exact Fits.mono ⟨below, above, hbelow', habove above rfl, hroom⟩ h₃.holds

lemma add_safe {noted listed : Bool} (h : Inv s) :
    (add self inner fd noted listed).Safe Shrinks Inv (fun _ _ => True) s := by
  refine (checkNesting_safe h).bind ?_
  rintro (e | _) s₁ ⟨hshrinks, hfits⟩
  · exact fun _ _ => trivial
  · have hinv₁ := h.shrinks hshrinks
    cases noted with
    | false => exact fun _ _ => trivial
    | true =>
      intro s₂ hshrinks'
      have hinv₂ := hinv₁.shrinks hshrinks'
      have hinv₃ : Inv { s₂ with
          parents := update s₂.parents inner (s₂.parents inner ++ [self]) } := by
        refine hinv₂.keep (fun _ _ => id) fun outer o => ?_
        have := hinv₂.noted outer o
        simp only [Sets.slack, Sets.children, update_apply] at *
        grind
      refine ⟨hinv₃, insert_safe hinv₃ ((hfits rfl).mono hshrinks'.holds) ?_⟩
      have := hinv₂.noted self inner
      simp only [Sets.slack, Sets.children, update_apply] at *
      grind

end

variable {s s' : State} {sets : Sets} {t self inner fd : Nat} {begins : Bool}

lemma shrinks_remove (h : (inner, fd) ∈ sets.items self) :
    Shrinks sets (sets.remove self inner fd) := by
  have hperm := (List.perm_cons_erase h).map Prod.fst
  have hn := fun o => hperm.count_eq o
  refine ⟨fun outer o hholds => ?_, fun outer o => ?_⟩ <;>
    simp only [Sets.remove, Sets.Holds, Sets.slack, Sets.children, update_apply, List.map_cons,
      List.count_cons] at * <;>
    grind

lemma shrinks_removeParent (hi : Inv sets) (h : (inner, self) ∈ sets.forgetting) :
    Shrinks sets (sets.removeParent self inner) := by
  have hnoted := hi.noted self inner
  refine ⟨fun _ _ => id, fun outer o => ?_⟩
  simp only [Sets.removeParent, Sets.slack, Sets.children, update_apply] at *
  grind

structure Serial (s : State) (t : Nat) : Prop where
  inv : Inv s.sets
  others : ∀ u ≠ t, ∃ answer, s.adds u = .done answer
  safe : (s.adds t).Safe Shrinks Inv (fun _ _ => True) s.sets

lemma Serial.shrinks (h : Serial s t) (hshrinks : Shrinks s.sets sets) :
    Serial { s with sets := sets } t :=
  ⟨h.inv.shrinks hshrinks, h.others, h.safe.stable hshrinks⟩

lemma Serial.set {p : Program Sets (Except Errno Unit)} (h : Inv sets)
    (hothers : ∀ u ≠ t, ∃ answer, s.adds u = .done answer)
    (hsafe : p.Safe Shrinks Inv (fun _ _ => True) sets) : Serial ⟨sets, update s.adds t p⟩ t := by
  refine ⟨h, fun u hu => ?_, ?_⟩
  · change ∃ answer, update s.adds t p u = .done answer
    rw [update_of_ne hu]
    exact hothers u hu
  · change (update s.adds t p t).Safe _ _ _ _
    rwa [update_self]

lemma Serial.step (h : Serial s t) {u : Nat} (hs : Step s u begins s')
    (horder : begins = true → ∀ v, ∃ answer, s.adds v = .done answer) : ∃ t, Serial s' t := by
  cases hs with
  | add self inner fd noted listed answer hdone =>
    exact ⟨u, .set h.inv (fun v _ => horder rfl v) (add_safe h.inv)⟩
  | act change n hact =>
    obtain rfl : u = t := by
      by_contra hne
      obtain ⟨answer, hdone⟩ := h.others u hne
      rw [hdone] at hact
      cases hact
    have hsafe := h.safe
    rw [hact] at hsafe
    obtain ⟨hchange, hn⟩ := hsafe s.sets (Std.Refl.refl _)
    exact ⟨u, .set hchange h.others hn⟩
  | remove self inner fd hm => exact ⟨t, h.shrinks (shrinks_remove hm)⟩
  | removeParent self inner hm => exact ⟨t, h.shrinks (shrinks_removeParent h.inv hm)⟩

lemma inv_new : Inv new.sets where
  noted outer inner := by simp [new, Sets.slack, Sets.children]
  acyclic n hcycle := by
    obtain ⟨inner, hholds, -⟩ := TransGen.head'_iff.mp hcycle
    cases hholds
  bounded chain hchain := by
    rcases chain with _ | ⟨a, _ | ⟨b, chain⟩⟩
    · exact Nat.zero_le _
    · exact Nat.le_add_left ..
    · cases (List.isChain_cons_cons.mp hchain).1

/-- In a run whose adds do not overlap no set comes to hold itself through others, and no chain has
more than `MAX_NESTS` sets below its top. -/
theorem sets_nest (hrun : ReflTransGen OrderlyNext new s) : Acyclic s.sets.Holds ∧
      ∀ top below, (top :: below).IsChain s.sets.Holds → below.length ≤ MAX_NESTS := by
  have hserial : ∃ t, Serial s t := by
    induction hrun with
    | refl => exact ⟨0, inv_new, fun _ _ => ⟨_, rfl⟩, fun _ _ => trivial⟩
    | tail _ hnext ih =>
      obtain ⟨u, begins, hstep, horder⟩ := hnext
      obtain ⟨t, hserial⟩ := ih
      exact hserial.step hstep horder
  obtain ⟨t, hserial⟩ := hserial
  refine ⟨hserial.inv.acyclic, fun top below hchain => ?_⟩
  exact Nat.le_of_succ_le_succ (hserial.inv.bounded _ hchain)

/-- Two adds that both look before either registers: each set comes to hold the other. -/
theorem overlapping_adds_loop : ∃ s, ReflTransGen Next new s ∧ ¬ Acyclic s.sets.Holds := by
  have h : ReflTransGen Next new _ := .refl
  replace h := h.tail ⟨0, _, .add 0 1 7 true true _ rfl⟩
  replace h := h.tail ⟨1, _, .add 1 0 7 true true _ rfl⟩
  iterate 2 replace h := h.tail ⟨0, _, .act _ _ rfl⟩
  iterate 2 replace h := h.tail ⟨1, _, .act _ _ rfl⟩
  iterate 2 replace h := h.tail ⟨0, _, .act _ _ rfl⟩
  iterate 2 replace h := h.tail ⟨1, _, .act _ _ rfl⟩
  refine ⟨_, h, fun hacyclic => hacyclic 0 (.tail (b := 1) (.single ?_) ?_)⟩
  · exact (by decide : 1 ∈ [1])
  · exact (by decide : 0 ∈ [0])

/-- Set 1 is added to set 0 and set 2 to set 1; to add set 0 to set 2 is refused. -/
theorem sets_nest_added : ∃ s, ReflTransGen OrderlyNext new s ∧ s.sets.Holds 0 1 ∧
    s.sets.Holds 1 2 ∧ s.adds 0 = .done (.error .ELOOP) ∧ Acyclic s.sets.Holds := by
  have h : ReflTransGen OrderlyNext new _ := .refl
  replace h := h.tail ⟨0, _, .add 0 1 7 true true _ rfl, fun _ _ => ⟨_, rfl⟩⟩
  iterate 4 replace h := h.tail ⟨0, _, .act _ _ rfl, nofun⟩
  replace h := h.tail ⟨0, _, .add 1 2 7 true true _ rfl, fun _ u => ⟨.ok (), by
    by_cases hu : u = 0
    · subst hu
      rfl
    · simp only [update_of_ne hu, new]
      rfl⟩⟩
  iterate 5 replace h := h.tail ⟨0, _, .act _ _ rfl, nofun⟩
  replace h := h.tail ⟨0, _, .add 2 0 7 true true _ rfl, fun _ u => ⟨.ok (), by
    by_cases hu : u = 0
    · subst hu
      rfl
    · simp only [update_of_ne hu, new]
      rfl⟩⟩
  iterate 2 replace h := h.tail ⟨0, _, .act _ _ rfl, nofun⟩
  exact ⟨_, h, (by decide : 1 ∈ [1]), (by decide : 2 ∈ [2]), rfl, (sets_nest h).1⟩

end Ferrix.Epoll.Nesting

import Mathlib.Tactic

/-!
One list holds the record locks of every file and owner.  `carve`, `coalesce` and `place` change
it; `Covers` reads it byte by byte.
-/

namespace Ferrix.Locks.Records

open List

section

structure Key where
  filesystem : Nat
  ino : Nat
deriving DecidableEq

inductive Ref where
  | table (id : Nat)
  | description (id : Nat)
deriving DecidableEq

/-- Who holds a record lock: a descriptor table, with the pid reported for it, or a description. -/
inductive Owner where
  | table (id pid : Nat)
  | description (id : Nat)
deriving DecidableEq

def Owner.ref : Owner → Ref
  | .table id _ => .table id
  | .description id => .description id

def Owner.same (a b : Owner) : Bool := a.ref == b.ref

def offsetMax : Nat := 2 ^ 63 - 1

structure Record where
  key : Key
  owner : Owner
  exclusive : Bool
  start : Nat
  last : Nat
deriving DecidableEq

variable (key : Key) (owner : Owner) (exclusive : Bool) (start last : Nat)

def Record.conflicts (r : Record) : Bool :=
  r.key == key && !r.owner.same owner && r.start ≤ last && start ≤ r.last &&
    (exclusive || r.exclusive)

def Record.hit (r : Record) : Bool :=
  r.key == key && r.owner.same owner && !(r.last < start) && !(last < r.start)

def Record.pieces (r : Record) : List Record :=
  (if r.start < start then [{ r with last := start - 1 }] else []) ++
    if last < r.last then [{ r with start := last + 1 }] else []

def carve (records : List Record) : List Record :=
  records.filter (fun r => !r.hit key owner start last) ++
    (records.filter (·.hit key owner start last)).flatMap (·.pieces start last)

def saturatingSucc (n : Nat) : Nat := min (n + 1) (2 ^ 64 - 1)

def mergeable (a b : Record) : Bool :=
  a.key == key && b.key == key && a.owner.same owner && b.owner.same owner &&
    a.exclusive == b.exclusive && a.start ≤ saturatingSucc b.last && b.start ≤ saturatingSucc a.last

/-- The first record that merges with a later one, and the first such later one. -/
def findPair : List Record → Option (Nat × Nat)
  | [] => none
  | a :: l =>
    match l.findIdx? (mergeable key owner a) with
    | some j => some (0, j + 1)
    | none => (findPair l).map fun (i, j) => (i + 1, j + 1)

/-- `Vec::swap_remove`: the last entry moves into the place of the one removed. -/
def swapRemove {α : Type} (l : List α) (j : Nat) : List α :=
  l.take j ++ (l.drop (j + 1)).getLast?.toList ++ (l.drop (j + 1)).dropLast

def Record.widen (kept merged : Record) : Record :=
  { kept with start := min kept.start merged.start, last := max kept.last merged.last }

/-- One turn of the merging loop for each unit of fuel. -/
def coalesceLoop : Nat → List Record → List Record
  | 0, records => records
  | fuel + 1, records =>
    match findPair key owner records with
    | none => records
    | some (i, j) =>
      match records[j]? with
      | none => records
      | some merged => coalesceLoop fuel ((swapRemove records j).modify i (·.widen merged))

def coalesce (records : List Record) : List Record :=
  coalesceLoop key owner records.length records

variable (alive : Ref → Bool)

def place (records : List Record) : Bool × List Record :=
  let records := records.filter (alive ·.owner.ref)
  if records.any (·.conflicts key owner exclusive start last) then
    (false, records)
  else
    (true, coalesce key owner
      (carve key owner start last records ++ [⟨key, owner, exclusive, start, last⟩]))

end

/-- The table says that the owner holds the byte of the file in this mode. -/
def Covers (records : List Record) (key : Key) (ref : Ref) (exclusive : Bool) (byte : Nat) : Prop :=
  ∃ r ∈ records, r.key = key ∧ r.owner.ref = ref ∧ r.exclusive = exclusive ∧
    r.start ≤ byte ∧ byte ≤ r.last

def Record.Kin (a b : Record) : Prop := a.key = b.key ∧ a.owner.ref = b.owner.ref

def Record.Disjoint (a b : Record) : Prop := a.Kin b → a.last < b.start ∨ b.last < a.start

/-- Those of one type do not even touch. -/
def Record.Apart (a b : Record) : Prop :=
  a.Kin b → a.exclusive = b.exclusive → a.last + 1 < b.start ∨ b.last + 1 < a.start

def Record.Bounded (r : Record) : Prop := r.start ≤ r.last ∧ r.last ≤ offsetMax

structure Tidy (records : List Record) : Prop where
  bounded : ∀ r ∈ records, r.Bounded
  disjoint : records.Pairwise Record.Disjoint
  apart : records.Pairwise Record.Apart

variable {records l m : List Record} {key : Key} {e : Bool} {ref : Ref} {byte : Nat} {a b : Record}

instance : Std.Symm Record.Disjoint :=
  ⟨fun _ _ h hkin => (h ⟨hkin.1.symm, hkin.2.symm⟩).symm⟩

lemma Record.Apart.symm (h : a.Apart b) : b.Apart a :=
  fun hkin htype => (h ⟨hkin.1.symm, hkin.2.symm⟩ htype.symm).symm

lemma Tidy.filter (h : Tidy records) (p : Record → Bool) : Tidy (records.filter p) :=
  ⟨fun r hr => h.bounded r (mem_filter.1 hr).1, h.disjoint.filter p, h.apart.filter p⟩

lemma Tidy.unique (h : Tidy records) {e' : Bool} (he : Covers records key ref e byte)
    (he' : Covers records key ref e' byte) : e = e' := by
  obtain ⟨a, ha, hk, href, rfl, hstart, hl⟩ := he
  obtain ⟨b, hb, hk', href', rfl, hstart', hl'⟩ := he'
  by_contra hne
  have := h.disjoint.forall ha hb (fun hab => hne (congrArg Record.exclusive hab))
    ⟨hk.trans hk'.symm, href.trans href'.symm⟩
  omega

lemma covers_congr (h : ∀ r, r ∈ l ↔ r ∈ m) : Covers l key ref e byte ↔ Covers m key ref e byte :=
  exists_congr fun r => and_congr_left fun _ => h r

lemma covers_cons : Covers (a :: l) key ref e byte ↔
    (a.key = key ∧ a.owner.ref = ref ∧ a.exclusive = e ∧ a.start ≤ byte ∧ byte ≤ a.last) ∨
      Covers l key ref e byte := by
  simp only [Covers, mem_cons, or_and_right, exists_or, exists_eq_left]

variable {k : Key} {owner : Owner} {start last : Nat} {r x y : Record}

def Record.cut (key : Key) (owner : Owner) (start last : Nat) (r : Record) : List Record :=
  if r.hit key owner start last then r.pieces start last else [r]

lemma carve_perm :
    carve key owner start last records ~ records.flatMap (·.cut key owner start last) := by
  have hhit : (records.filter (·.hit key owner start last)).flatMap (·.pieces start last) =
      (records.filter (·.hit key owner start last)).flatMap (·.cut key owner start last) := by
    refine flatMap_congr fun r hr => ?_
    rw [Record.cut, if_pos (mem_filter.1 hr).2]
  have hmiss : records.filter (fun r => !r.hit key owner start last) =
      (records.filter (fun r => !r.hit key owner start last)).flatMap
        (·.cut key owner start last) := by
    conv_lhs => rw [← flatMap_singleton' (records.filter _)]
    refine flatMap_congr fun r hr => ?_
    have := (mem_filter.1 hr).2
    rw [Record.cut, if_neg]
    simpa using this
  rw [carve, hhit, hmiss, ← flatMap_append]
  exact Perm.flatMap_right _ (perm_append_comm.trans (filter_append_perm _ records))

lemma hit_iff : r.hit key owner start last = true ↔
    r.key = key ∧ r.owner.ref = owner.ref ∧ start ≤ r.last ∧ r.start ≤ last := by
  simp [Record.hit, Owner.same, and_assoc]

lemma mem_pieces : x ∈ r.pieces start last ↔ r.start < start ∧ x = { r with last := start - 1 } ∨
      last < r.last ∧ x = { r with start := last + 1 } := by
  rw [Record.pieces, mem_append]
  split_ifs <;> simp [*]

lemma of_mem_cut (hr : r.Bounded) (hx : x ∈ r.cut key owner start last) :
    x.key = r.key ∧ x.owner = r.owner ∧ x.exclusive = r.exclusive ∧ r.start ≤ x.start ∧
      x.start ≤ x.last ∧ x.last ≤ r.last := by
  have := hr.1
  rw [Record.cut] at hx
  split_ifs at hx with hhit
  · obtain ⟨-, -, hstart, hl⟩ := hit_iff.1 hhit
    rcases mem_pieces.1 hx with ⟨hlt, rfl⟩ | ⟨hlt, rfl⟩
    · refine ⟨rfl, rfl, rfl, le_rfl, ?_, ?_⟩ <;> dsimp only <;> omega
    · refine ⟨rfl, rfl, rfl, ?_, ?_, le_rfl⟩ <;> dsimp only <;> omega
  · obtain rfl := mem_singleton.1 hx
    exact ⟨rfl, rfl, rfl, le_rfl, this, le_rfl⟩

lemma cut_apart (hle : start ≤ last) :
    (r.cut key owner start last).Pairwise fun a b => a.Disjoint b ∧ a.Apart b := by
  rw [Record.cut]
  split_ifs
  · rw [Record.pieces]
    split_ifs with h h'
    · refine pairwise_pair.2 ⟨fun _ => Or.inl ?_, fun _ _ => Or.inl ?_⟩ <;> dsimp only <;> omega
    all_goals simp
  · exact pairwise_singleton _ _

lemma disjoint_of_cut (ha : a.Bounded) (hb : b.Bounded)
    (h : a.Disjoint b ∧ a.Apart b) (hx : x ∈ a.cut key owner start last)
    (hy : y ∈ b.cut key owner start last) : x.Disjoint y ∧ x.Apart y := by
  obtain ⟨hk, howner, htype, hf, -, hl⟩ := of_mem_cut ha hx
  obtain ⟨hk', howner', htype', hf', -, hl'⟩ := of_mem_cut hb hy
  have hkin : x.Kin y → a.Kin b := by
    rintro ⟨h, h'⟩
    exact ⟨by rw [← hk, ← hk', h], by rw [← howner, ← howner', h']⟩
  refine ⟨fun hxy => ?_, fun hxy ht => ?_⟩
  · have := h.1 (hkin hxy)
    omega
  · have := h.2 (hkin hxy) (by rw [← htype, ← htype', ht])
    omega

lemma tidy_carve (key : Key) (owner : Owner) (h : Tidy records) (hle : start ≤ last) :
    Tidy (carve key owner start last records) := by
  have hboth : (carve key owner start last records).Pairwise
      fun a b => a.Disjoint b ∧ a.Apart b := by
    refine carve_perm.symm.pairwise ?_ fun h => ⟨symm h.1, h.2.symm⟩
    refine pairwise_flatMap.2 ⟨fun r _ => cut_apart hle, ?_⟩
    refine (h.disjoint.and h.apart).imp_of_mem fun ha hb hab x hx y hy => ?_
    exact disjoint_of_cut (h.bounded _ ha) (h.bounded _ hb) hab hx hy
  refine ⟨fun x hx => ?_, hboth.imp And.left, hboth.imp And.right⟩
  obtain ⟨r, hr, hx⟩ := mem_flatMap.1 (carve_perm.mem_iff.1 hx)
  obtain ⟨-, -, -, -, hx, hl⟩ := of_mem_cut (h.bounded r hr) hx
  exact ⟨hx, hl.trans (h.bounded r hr).2⟩

lemma covers_carve : Covers (carve key owner start last records) k ref e byte ↔
      Covers records k ref e byte ∧ ¬ (k = key ∧ ref = owner.ref ∧ start ≤ byte ∧ byte ≤ last) := by
  rw [covers_congr fun r => carve_perm.mem_iff]
  constructor
  · rintro ⟨x, hx, rfl, rfl, rfl, hstart, hl⟩
    obtain ⟨r, hr, hx⟩ := mem_flatMap.1 hx
    rw [Record.cut] at hx
    split_ifs at hx with hhit
    · rcases mem_pieces.1 hx with ⟨hlt, rfl⟩ | ⟨hlt, rfl⟩
      · dsimp only at hstart hl ⊢
        have := hit_iff.1 hhit
        exact ⟨⟨r, hr, rfl, rfl, rfl, hstart, by omega⟩, by omega⟩
      · dsimp only at hstart hl ⊢
        have := hit_iff.1 hhit
        exact ⟨⟨r, hr, rfl, rfl, rfl, by omega, hl⟩, by omega⟩
    · obtain rfl := mem_singleton.1 hx
      refine ⟨⟨x, hr, rfl, rfl, rfl, hstart, hl⟩, ?_⟩
      rintro ⟨hk, href, hbyte, hbyte'⟩
      exact hhit (hit_iff.2 ⟨hk, href, by omega, by omega⟩)
  · rintro ⟨⟨r, hr, rfl, rfl, rfl, hstart, hl⟩, hout⟩
    by_cases hhit : r.hit key owner start last = true
    · obtain ⟨hk, href, hmeet, hmeet'⟩ := hit_iff.1 hhit
      have hbyte : byte < start ∨ last < byte := by
        by_contra h
        exact hout ⟨hk, href, by omega, by omega⟩
      rcases hbyte with hbyte | hbyte
      · refine ⟨{ r with last := start - 1 }, mem_flatMap.2 ⟨r, hr, ?_⟩, rfl, rfl, rfl, hstart, ?_⟩
        · rw [Record.cut, if_pos hhit]
          exact mem_pieces.2 (Or.inl ⟨by omega, rfl⟩)
        · dsimp only
          omega
      · refine ⟨{ r with start := last + 1 }, mem_flatMap.2 ⟨r, hr, ?_⟩, rfl, rfl, rfl, ?_, hl⟩
        · rw [Record.cut, if_pos hhit]
          exact mem_pieces.2 (Or.inr ⟨by omega, rfl⟩)
        · dsimp only
          omega
    · refine ⟨r, mem_flatMap.2 ⟨r, hr, ?_⟩, rfl, rfl, rfl, hstart, hl⟩
      rw [Record.cut, if_neg hhit]
      exact mem_singleton_self r

variable {rest : List Record} {fuel i j : Nat} {c : Record}

lemma mergeable_iff (ha : a.Bounded) (hb : b.Bounded) : mergeable key owner a b = true ↔
    a.key = key ∧ b.key = key ∧ a.owner.ref = owner.ref ∧ b.owner.ref = owner.ref ∧
      a.exclusive = b.exclusive ∧ a.start ≤ b.last + 1 ∧ b.start ≤ a.last + 1 := by
  have hsucc : ∀ {r : Record}, r.Bounded → saturatingSucc r.last = r.last + 1 := by
    intro r hr
    have := hr.2
    rw [offsetMax] at this
    rw [saturatingSucc]
    omega
  simp [mergeable, Owner.same, hsucc ha, hsucc hb, and_assoc]

lemma swapRemove_append {α : Type} (front : List α) (x : α) (back : List α) :
    swapRemove (front ++ x :: back) front.length =
      front ++ (back.getLast?.toList ++ back.dropLast) := by
  simp [swapRemove]

lemma rotate_perm {α : Type} (back : List α) : back.getLast?.toList ++ back.dropLast ~ back := by
  rcases eq_nil_or_concat back with rfl | ⟨front, x, rfl⟩
  · exact Perm.refl _
  · simp only [concat_eq_append, getLast?_concat, Option.toList_some, dropLast_concat]
    exact perm_append_comm

lemma swapRemove_perm {α : Type} {l : List α} {i : Nat} (h : i < l.length) :
    l[i] :: swapRemove l i ~ l := by
  have hl : l.take i ++ l[i] :: l.drop (i + 1) = l := by simp
  have hremoved := swapRemove_append (l.take i) l[i] (l.drop (i + 1))
  rw [hl, length_take_of_le h.le] at hremoved
  rw [hremoved]
  conv_rhs => rw [← hl]
  exact (((rotate_perm _).append_left _).cons _).trans perm_middle.symm

lemma modify_append {α : Type} (front : List α) (x : α) (back : List α) (f : α → α) :
    (front ++ x :: back).modify front.length f = front ++ f x :: back := by
  induction front with
  | nil => rfl
  | cons y front ih => exact congrArg (y :: ·) ih

lemma findPair_eq_some (h : findPair key owner l = some (i, j)) :
    ∃ front a mid b back, l = front ++ a :: (mid ++ b :: back) ∧ i = front.length ∧
      j = (front ++ a :: mid).length ∧ mergeable key owner a b = true := by
  induction l generalizing i j with
  | nil => cases h
  | cons a l ih =>
    rw [findPair] at h
    split at h
    · rename_i n hn
      obtain ⟨hlt, hm, -⟩ := findIdx?_eq_some_iff_getElem.1 hn
      cases h
      refine ⟨[], a, l.take n, l[n], l.drop (n + 1), ?_, rfl, ?_, hm⟩
      · simp
      · simp [hlt.le]
    · obtain ⟨⟨i', j'⟩, h', hij⟩ := Option.map_eq_some_iff.1 h
      cases hij
      obtain ⟨front, x, mid, b, back, rfl, rfl, rfl, hm⟩ := ih h'
      exact ⟨a :: front, x, mid, b, back, rfl, rfl, rfl, hm⟩

lemma findPair_eq_none (h : findPair key owner l = none) :
    l.Pairwise fun a b => mergeable key owner a b = false := by
  induction l with
  | nil => exact Pairwise.nil
  | cons a l ih =>
    rw [findPair] at h
    split at h
    · cases h
    · rename_i hn
      exact pairwise_cons.2 ⟨findIdx?_eq_none_iff.1 hn, ih (Option.map_eq_none_iff.1 h)⟩

lemma merge_perm (h : findPair key owner l = some (i, j)) :
    ∃ a b rest, l[j]? = some b ∧ mergeable key owner a b = true ∧ l ~ a :: b :: rest ∧
      (swapRemove l j).modify i (·.widen b) ~ a.widen b :: rest := by
  obtain ⟨front, a, mid, b, back, rfl, rfl, rfl, hm⟩ := findPair_eq_some h
  refine ⟨a, b, front ++ (mid ++ back), ?_, hm, ?_, ?_⟩
  · rw [← cons_append, ← append_assoc, getElem?_append_right le_rfl, Nat.sub_self]
    rfl
  · exact perm_middle.trans ((perm_middle.append_left front).trans perm_middle |>.cons a)
  · rw [← cons_append, ← append_assoc, swapRemove_append, append_assoc, cons_append, modify_append]
    refine perm_middle.trans (Perm.cons _ ?_)
    exact ((rotate_perm back).append_left mid).append_left front

/-- The table while the owner's locks on the file are being merged. -/
structure Merging (key : Key) (ref : Ref) (records : List Record) : Prop where
  bounded : ∀ r ∈ records, r.Bounded
  disjoint : records.Pairwise Record.Disjoint
  apart : records.Pairwise fun a b => ¬ (a.key = key ∧ a.owner.ref = ref) → a.Apart b

lemma Merging.perm (h : Merging key ref records) (hperm : records ~ l) : Merging key ref l := by
  refine ⟨fun r hr => h.bounded r (hperm.mem_iff.2 hr), hperm.pairwise h.disjoint symm,
    hperm.pairwise h.apart ?_⟩
  intro a b hab hb hkin
  exact (hab (fun ha => hb ⟨hkin.1.trans ha.1, hkin.2.trans ha.2⟩)).symm hkin

lemma Merging.widen (h : Merging key owner.ref (a :: b :: rest))
    (hm : mergeable key owner a b = true) : Merging key owner.ref (a.widen b :: rest) := by
  have ha := h.bounded a mem_cons_self
  have hb := h.bounded b (mem_cons_of_mem a mem_cons_self)
  obtain ⟨hk, hk', href, href', htype, htouch, htouch'⟩ := (mergeable_iff ha hb).1 hm
  obtain ⟨hda, hdb, hdrest⟩ := (pairwise_cons.1 h.disjoint).imp_right pairwise_cons.1
  refine ⟨?_, pairwise_cons.2 ⟨?_, hdrest⟩, pairwise_cons.2 ⟨?_, ?_⟩⟩
  · exact forall_mem_cons.2 ⟨⟨le_max_of_le_left ((min_le_left _ _).trans ha.1), max_le ha.2 hb.2⟩,
      fun r hr => h.bounded r (mem_cons_of_mem a (mem_cons_of_mem b hr))⟩
  · intro c hc hkin
    have hca := hda c (mem_cons_of_mem b hc) hkin
    have hcb := hdb c hc ⟨hk'.trans (hk.symm.trans hkin.1), href'.trans (href.symm.trans hkin.2)⟩
    have := (h.bounded c (mem_cons_of_mem a (mem_cons_of_mem b hc))).1
    rw [Record.widen]
    dsimp only
    omega
  · intro c _ hne
    exact absurd ⟨hk, href⟩ hne
  · exact (pairwise_cons.1 (pairwise_cons.1 h.apart).2).2

lemma covers_widen (h : Merging key owner.ref (a :: b :: rest))
    (hm : mergeable key owner a b = true) :
    Covers (a.widen b :: rest) k ref e byte ↔ Covers (a :: b :: rest) k ref e byte := by
  have ha := h.bounded a mem_cons_self
  have hb := h.bounded b (mem_cons_of_mem a mem_cons_self)
  obtain ⟨hk, hk', href, href', htype, htouch, htouch'⟩ := (mergeable_iff ha hb).1 hm
  have hle := ha.1
  have hle' := hb.1
  simp only [covers_cons, ← or_assoc]
  refine or_congr_left ?_
  rw [Record.widen]
  dsimp only
  rw [hk, hk', href, href', htype]
  constructor
  · rintro ⟨h1, h2, h3, h4, h5⟩
    have : a.start ≤ byte ∧ byte ≤ a.last ∨ b.start ≤ byte ∧ byte ≤ b.last := by omega
    exact this.imp (fun h => ⟨h1, h2, h3, h⟩) fun h => ⟨h1, h2, h3, h⟩
  · rintro (⟨h1, h2, h3, h⟩ | ⟨h1, h2, h3, h⟩) <;> exact ⟨h1, h2, h3, by omega⟩

lemma coalesceLoop_spec (h : Merging key owner.ref records) (hfuel : records.length ≤ fuel) :
    Tidy (coalesceLoop key owner fuel records) ∧ ∀ k ref e byte,
      (Covers (coalesceLoop key owner fuel records) k ref e byte ↔
        Covers records k ref e byte) := by
  induction fuel generalizing records with
  | zero =>
    obtain rfl := length_eq_zero_iff.1 (Nat.le_zero.1 hfuel)
    exact ⟨⟨h.bounded, Pairwise.nil, Pairwise.nil⟩, fun _ _ _ _ => Iff.rfl⟩
  | succ fuel ih =>
    rw [coalesceLoop]
    split
    · rename_i hnone
      refine ⟨⟨h.bounded, h.disjoint, ?_⟩, fun _ _ _ _ => Iff.rfl⟩
      refine ((findPair_eq_none hnone).and h.apart).imp_of_mem fun {a b} ha hb hab hkin htype => ?_
      by_cases hown : a.key = key ∧ a.owner.ref = owner.ref
      · by_contra htouch
        have := (mergeable_iff (h.bounded a ha) (h.bounded b hb)).2
          ⟨hown.1, hkin.1.symm.trans hown.1, hown.2, hkin.2.symm.trans hown.2, htype, by omega,
            by omega⟩
        rw [hab.1] at this
        cases this
      · exact hab.2 hown hkin htype
    · rename_i i j hsome
      obtain ⟨a, b, rest, hg, hm, hperm, hmerged⟩ := merge_perm hsome
      rw [hg]
      have hbefore := h.perm hperm
      have hlen := hperm.length_eq
      have hlen' := hmerged.length_eq
      obtain ⟨htidy, hc⟩ := ih ((hbefore.widen hm).perm hmerged.symm) (by grind)
      refine ⟨htidy, fun k ref e byte => (hc k ref e byte).trans ?_⟩
      rw [covers_congr fun r => hmerged.mem_iff, covers_widen hbefore hm]
      exact (covers_congr fun r => hperm.mem_iff).symm

variable {exclusive : Bool} {alive : Ref → Bool}

lemma merging_push (h : Tidy records) (hle : start ≤ last) (hmax : last ≤ offsetMax) :
    Merging key owner.ref
      (⟨key, owner, exclusive, start, last⟩ :: carve key owner start last records) := by
  have hcarved := tidy_carve key owner h hle
  refine ⟨forall_mem_cons.2 ⟨⟨hle, hmax⟩, hcarved.bounded⟩, pairwise_cons.2 ⟨?_, hcarved.disjoint⟩,
    pairwise_cons.2 ⟨fun r _ hne => absurd ⟨rfl, rfl⟩ hne, hcarved.apart.imp ?_⟩⟩
  rotate_left
  · exact fun h _ => h
  intro r hr hkin
  by_contra hmeet
  have hbounded := (hcarved.bounded r hr).1
  dsimp only at hmeet
  have hc : Covers (carve key owner start last records) key owner.ref r.exclusive
      (max start r.start) := ⟨r, hr, hkin.1.symm, hkin.2.symm, rfl, by omega, by omega⟩
  exact (covers_carve.1 hc).2 ⟨rfl, rfl, by omega, by omega⟩

/-- A range that meets no conflict replaces what the owner held there. -/
theorem place_spec (h : Tidy records) (hle : start ≤ last) (hmax : last ≤ offsetMax)
    (hf : (records.filter (alive ·.owner.ref)).any
      (·.conflicts key owner exclusive start last) = false) :
    ∃ placed, place key owner exclusive start last alive records = (true, placed) ∧ Tidy placed ∧
      ∀ k ref e byte, (Covers placed k ref e byte ↔
        if k = key ∧ ref = owner.ref ∧ start ≤ byte ∧ byte ≤ last then exclusive = e
        else Covers (records.filter (alive ·.owner.ref)) k ref e byte) := by
  have hperm := perm_append_singleton (⟨key, owner, exclusive, start, last⟩ : Record)
    (carve key owner start last (records.filter (alive ·.owner.ref)))
  obtain ⟨htidy, hc⟩ := coalesceLoop_spec
    ((merging_push (h.filter (alive ·.owner.ref)) hle hmax).perm hperm.symm) le_rfl
  refine ⟨_, if_neg (by rw [hf]; exact Bool.false_ne_true), htidy, fun k ref e byte => ?_⟩
  rw [coalesce, hc, covers_congr fun r => hperm.mem_iff, covers_cons, covers_carve]
  split_ifs with hin
  · obtain ⟨rfl, rfl, hstart, hl⟩ := hin
    simp [hstart, hl]
  · rw [and_iff_left hin]
    refine or_iff_right ?_
    rintro ⟨h1, h2, -, h3⟩
    exact hin ⟨h1.symm, h2.symm, h3⟩

end Ferrix.Locks.Records

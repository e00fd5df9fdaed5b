import Ferrix.Foundations.Wildcards

/-!
The tokens before a pattern's first star are matched at the string's start, those after its last
star at the string's end, and each run of tokens between two stars where it fits first.
-/

namespace Ferrix.Fnmatch.Matching

open Foundations.Wildcards List

section

def fnmPathname : BitVec 32 := 0x1

def fnmNoescape : BitVec 32 := 0x2

def fnmPeriod : BitVec 32 := 0x4

def fnmLeadingDir : BitVec 32 := 0x8

def fnmCasefold : BitVec 32 := 0x10

inductive Token where
  | patternEnd
  | bracket
  | question
  | star
  | byte (c : UInt8)
  deriving DecidableEq

abbrev Lexeme := Token × List UInt8

def byteAt (s : List UInt8) (i : Nat) : UInt8 := s.getD i 0

instance byteOfChar : Coe Char UInt8 := ⟨Char.toUInt8⟩

abbrev period : UInt8 := '.'

abbrev slash : UInt8 := '/'

def isDelimiter (c : UInt8) : Bool := c == ':' || c == '.' || c == '='

/-- What the loops of `bracket_token` have seen last in a bracket. -/
inductive Seen where
  | start
  | negation
  | member
  | opening
  | delimiter (d : UInt8)
  | inside (d previous : UInt8)

/-- What has been seen past the byte, unless it closes the bracket.  A `]` first in the list is a
member, not the end. -/
def Seen.next : Seen → UInt8 → Option Seen
  | start, c =>
    some (if c == '^' || c == '!' then negation else if c == '[' then opening else member)
  | negation, c => some (if c == '[' then opening else member)
  | member, c => if c == ']' then none else some (if c == '[' then opening else member)
  | opening, c =>
    if c == ']' then none
    else some (if isDelimiter c then delimiter c else if c == '[' then opening else member)
  | delimiter d, c => some (inside d c)
  | inside d previous, c => some (if previous == d && c == ']' then member else inside d c)

def closing : Seen → List UInt8 → Option Nat
  | _, [] => none
  | seen, c :: rest =>
    match seen.next c with
    | none => some 0
    | some seen => (closing seen rest).map (· + 1)

def bracketToken (pat : List UInt8) : Token × Nat :=
  match closing .start (pat.drop 1) with
  | none => (.byte '[', 1)
  | some k => (.bracket, k + 2)

variable (flags : BitVec 32)

def has (flag : BitVec 32) : Bool := flags &&& flag != 0

def nextToken : List UInt8 → Token × Nat
  | [] => (.patternEnd, 0)
  | first :: rest =>
    if first == '\\' && !has flags fnmNoescape && byteAt rest 0 != 0 then
      (.byte (byteAt rest 0), 2)
    else if first == '[' then bracketToken (first :: rest)
    else if first == '*' then (.star, 1)
    else if first == '?' then (.question, 1)
    else (.byte first, 1)

def inClass (name : List UInt8) (c : UInt8) : Bool :=
  let upper := 'A' ≤ c && c ≤ 'Z'
  let lower := 'a' ≤ c && c ≤ 'z'
  let digit := '0' ≤ c && c ≤ '9'
  let graph := 0x20 < c && c < 0x7f
  match String.ofList (name.map fun b => Char.ofNat b.toNat) with
  | "alnum" => upper || lower || digit
  | "alpha" => upper || lower
  | "blank" => c == 0x20 || c == 0x9
  | "cntrl" => c < 0x20 || c == 0x7f
  | "digit" => digit
  | "graph" => graph
  | "lower" => lower
  | "print" => 0x20 ≤ c && c < 0x7f
  | "punct" => graph && !(upper || lower || digit)
  | "space" => c == 0x20 || 0x9 ≤ c && c ≤ 0xd
  | "upper" => upper
  | "xdigit" => digit || 'A' ≤ c && c ≤ 'F' || 'a' ≤ c && c ≤ 'f'
  | _ => false

def otherCase (c : UInt8) : UInt8 :=
  if 'A' ≤ c && c ≤ 'Z' then c + 0x20
  else if 'a' ≤ c && c ≤ 'z' then c - 0x20
  else c

def elementMatches (delimiter : UInt8) (name : List UInt8) (k kfold : UInt8) : Bool :=
  if delimiter == ':' then inClass name k || inClass name kfold
  else name == [k] || name == [kfold]

def elementEnd (p : List UInt8) (delimiter : UInt8) (i : Nat) : Nat :=
  i + ((p.drop (i - 1)).zip (p.drop i)).findIdx fun pair =>
    pair == (delimiter, Char.toUInt8 ']')

def memberMatches (p : List UInt8) (k kfold : UInt8) : Nat → Nat → UInt8 → Bool
  | 0, _, _ => false
  | rounds + 1, i, previous =>
    let c := byteAt p i
    let next := byteAt p (i + 1)
    if p.length ≤ i || c == ']' then false
    else if c == '-' && next != ']' then
      previous ≤ k && k ≤ next || previous ≤ kfold && kfold ≤ next ||
        memberMatches p k kfold rounds (i + 2) previous
    else if c == '[' && isDelimiter next then
      let stop := elementEnd p next (i + 3)
      elementMatches next ((p.take (stop - 1)).drop (i + 2)) k kfold ||
        memberMatches p k kfold rounds (stop + 1) previous
    else c == k || c == kfold || memberMatches p k kfold rounds (i + 1) c

def matchBracket (p : List UInt8) (k kfold : UInt8) : Bool :=
  let negated := byteAt p 1 == '^' || byteAt p 1 == '!'
  let i := if negated then 2 else 1
  let first := byteAt p i
  if first == ']' || first == '-' then
    (k == first || memberMatches p k kfold p.length (i + 1) first) != negated
  else memberMatches p k kfold p.length i (byteAt p (i - 1)) != negated

def tokenMatches (token : Token) (bytes : List UInt8) (k : UInt8) : Bool :=
  let kfold := if has flags fnmCasefold then otherCase k else k
  match token with
  | .bracket => matchBracket bytes k kfold
  | .question => true
  | .byte c => k == c || kfold == c
  | .patternEnd | .star => false

/-- The tokens of a pattern with their bytes, as `next_token` reads them one after the other;
`skip` bytes belong to the last one read. -/
def tokensFrom : Nat → List UInt8 → List Lexeme
  | _, [] => []
  | skip + 1, _ :: pat => tokensFrom skip pat
  | 0, c :: pat =>
    let (token, inc) := nextToken flags (c :: pat)
    (token, (c :: pat).take inc) :: tokensFrom (inc - 1) pat

def tokens (pat : List UInt8) : List Lexeme := tokensFrom flags 0 pat

def width (ts : List Lexeme) : Nat := (ts.map fun t => t.2.length).sum

/-- What reading tokens against bytes found: a star, with what is left behind it; the pattern's
end, with the bytes left; a byte its token does not match; or the string's end. -/
inductive Component where
  | matched (pat s : List UInt8)
  | ended (s : List UInt8)
  | mismatch
  | exhausted

/-- The loop of `component`, which the head and the tail of `match_whole` share, with how often a
token was compared with a byte. -/
def component : List UInt8 → List UInt8 → Component × Nat
  | pat, [] =>
    let (token, inc) := nextToken flags pat
    if token = .star then (.matched (pat.drop inc) [], 0)
    else if token = .patternEnd then (.ended [], 0)
    else (.exhausted, 0)
  | pat, k :: s =>
    let (token, inc) := nextToken flags pat
    if token = .star then (.matched (pat.drop inc) (k :: s), 0)
    else if token = .patternEnd then (.ended (k :: s), 0)
    else if tokenMatches flags token (pat.take inc) k then
      let (found, count) := component (pat.drop inc) s
      (found, count + 1)
    else (.mismatch, 1)

/-- The tail; a byte is still compared with the pattern's end, or with a star, which match none. -/
def matchTail (pat s : List UInt8) : Bool × Nat :=
  match component flags pat s with
  | (.ended s, n) => (s.isEmpty, if s.isEmpty then n else n + 1)
  | (.matched _ s, n) => (false, if s.isEmpty then n else n + 1)
  | (_, n) => (false, n)

/-- A round of the loop for the tail: the position, where the tail starts and how many tokens it
has, past one more token. -/
def tailStep : Nat × Nat × Nat → Lexeme → Nat × Nat × Nat
  | (q, start, len), (token, bytes) =>
    if token = .star then (q + bytes.length, q + bytes.length, 0)
    else (q + bytes.length, start, len + 1)

def findTail (pat : List UInt8) : Nat × Nat := ((tokens flags pat).foldl tailStep (0, 0, 0)).2

def counted (n : Nat) (r : Option Bool × Nat) : Option Bool × Nat := (r.1, n + r.2)

/-- The components between stars, each at its first occurrence; no answer if the rounds run out. -/
def search : Nat → List UInt8 → List UInt8 → Option Bool × Nat
  | 0, _, _ => (none, 0)
  | rounds + 1, pat, s =>
    if pat = [] then (some true, 0)
    else
      match component flags pat s with
      | (.matched pat' s', n) => counted n (search rounds pat' s')
      | (.exhausted, n) => (some false, n)
      | (_, n) => counted n (search rounds pat (s.drop 1))

def matchRest (pat s : List UInt8) : Option Bool × Nat :=
  let (tailStart, tailLen) := findTail flags pat
  if s.length < tailLen then (some false, 0)
  else
    let stringTail := s.length - tailLen
    match matchTail flags (pat.drop tailStart) (s.drop stringTail) with
    | (false, n) => (some false, n)
    | (true, n) => counted n
      (search flags (tailStart + stringTail + 1) (pat.take tailStart) (s.take stringTail))

def matchWhole (pat s : List UInt8) : Option Bool × Nat :=
  if has flags fnmPeriod && s.head? == some period &&
      (nextToken flags pat).1 != .byte period then (some false, 0)
  else
    match component flags pat s with
    | (.matched pat s, n) => counted n (matchRest flags pat s)
    | (.ended s, n) => (some s.isEmpty, if s.isEmpty then n else n + 1)
    | (_, n) => (some false, n)

def isSlash (t : Lexeme) : Bool := t.1 == .byte slash

def patternEnd (pat : List UInt8) : Nat :=
  width ((tokens flags pat).take ((tokens flags pat).findIdx isSlash))

def stringEnd (s : List UInt8) : Nat := s.findIdx (· == slash)

def matchPath : Nat → List UInt8 → List UInt8 → Option Bool × Nat
  | 0, _, _ => (none, 0)
  | rounds + 1, pat, s =>
    let p := patternEnd flags pat
    let (token, inc) := nextToken flags (pat.drop p)
    let patternSlash := token != .patternEnd
    let stringSlash : Bool := stringEnd s < s.length
    if patternSlash != stringSlash && (!stringSlash || !has flags fnmLeadingDir) then
      (some false, 0)
    else
      match matchWhole flags (pat.take p) (s.take (stringEnd s)) with
      | (some true, n) =>
        if patternSlash then
          counted n (matchPath rounds (pat.drop (p + inc)) (s.drop (stringEnd s + 1)))
        else (some true, n)
      | refused => refused

def matchString (pat s : List UInt8) : Option Bool :=
  if has flags fnmPathname then (matchPath flags (s.length + 1) pat s).1
  else if has flags fnmLeadingDir && (List.range s.length).any (fun i =>
      s[i]? == some slash && (matchWhole flags pat (s.take i)).1 == some true) then some true
  else (matchWhole flags pat s).1

end

section

variable {flags : BitVec 32} {a x pat : List UInt8} {k : Nat}

lemma closing_lt {seen : Seen} (h : closing seen a = some k) : k < a.length := by
  induction a generalizing seen k with
  | nil => cases h
  | cons c a ih =>
    rw [closing] at h
    split at h
    · cases h
      exact Nat.succ_pos _
    · obtain ⟨j, hj, rfl⟩ := Option.map_eq_some_iff.mp h
      exact Nat.succ_lt_succ (ih hj)

lemma closing_append {seen : Seen} (hk : k < a.length) :
    closing seen (a ++ x) = some k ↔ closing seen a = some k := by
  induction a generalizing seen k with
  | nil => cases hk
  | cons c a ih =>
    rw [cons_append, closing, closing]
    split
    · rfl
    · cases k with
      | zero => simp
      | succ k => simpa using ih (Nat.lt_of_succ_lt_succ hk)

lemma nextToken_bounds (flags : BitVec 32) (hpat : pat ≠ []) :
    0 < (nextToken flags pat).2 ∧ (nextToken flags pat).2 ≤ pat.length := by
  obtain ⟨first, rest, rfl⟩ := exists_cons_of_ne_nil hpat
  rw [nextToken]
  split_ifs with hescape
  · cases rest with
    | nil => simp [byteAt] at hescape
    | cons c rest => simp
  · rw [bracketToken]
    split
    · simp
    · rename_i k hk
      exact ⟨Nat.succ_pos _, Nat.succ_le_succ (closing_lt hk)⟩
  all_goals simp

lemma bracketToken_append (first : UInt8)
    (h : (bracketToken (first :: a ++ x)).2 ≤ a.length + 1) :
    bracketToken (first :: a) = bracketToken (first :: a ++ x) := by
  simp only [bracketToken, cons_append, drop_succ_cons, drop_zero] at h ⊢
  rcases hlong : closing .start (a ++ x) with _ | k
  · rcases hshort : closing .start a with _ | k
    · rfl
    · rw [(closing_append (closing_lt hshort)).mpr hshort] at hlong
      cases hlong
  · rw [hlong] at h
    rw [(closing_append (Nat.le_of_succ_le_succ h)).mp hlong]

lemma nextToken_append (ha : a ≠ []) (h : (nextToken flags (a ++ x)).2 ≤ a.length) :
    nextToken flags a = nextToken flags (a ++ x) := by
  obtain ⟨first, rest, rfl⟩ := exists_cons_of_ne_nil ha
  rw [cons_append, nextToken] at h
  rw [cons_append, nextToken, nextToken]
  by_cases hescape : (first == '\\' && !has flags fnmNoescape && byteAt (rest ++ x) 0 != 0) = true
  · rw [if_pos hescape] at h ⊢
    cases rest with
    | nil => simp at h
    | cons c rest => exact if_pos hescape
  · have hshort : ¬ (first == '\\' && !has flags fnmNoescape && byteAt rest 0 != 0) = true := by
      cases rest with
      | nil => simp [byteAt]
      | cons c rest => exact hescape
    rw [if_neg hescape] at h ⊢
    rw [if_neg hshort]
    split_ifs at h ⊢
    · exact bracketToken_append first h
    all_goals rfl

lemma tokensFrom_eq (n : Nat) (pat : List UInt8) :
    tokensFrom flags n pat = tokens flags (pat.drop n) := by
  induction pat generalizing n with
  | nil =>
    rw [drop_nil]
    rfl
  | cons c pat ih =>
    cases n with
    | zero => rfl
    | succ n => exact ih n

lemma tokens_eq (hpat : pat ≠ []) : tokens flags pat =
    ((nextToken flags pat).1, pat.take (nextToken flags pat).2) ::
      tokens flags (pat.drop (nextToken flags pat).2) := by
  have hpos := (nextToken_bounds flags hpat).1
  obtain ⟨c, rest, rfl⟩ := exists_cons_of_ne_nil hpat
  rw [tokens, tokensFrom]
  dsimp only
  rw [tokensFrom_eq, ← drop_succ_cons (a := c), Nat.sub_add_cancel hpos]

lemma tokens_cut {ts us : List Lexeme} (h : tokens flags pat = ts ++ us) :
    tokens flags (pat.take (width ts)) = ts ∧ tokens flags (pat.drop (width ts)) = us := by
  induction ts generalizing pat with
  | nil => exact ⟨rfl, h⟩
  | cons t ts ih =>
    have hpat : pat ≠ [] := by
      rintro rfl
      cases h
    obtain ⟨hpos, hle⟩ := nextToken_bounds flags hpat
    rw [tokens_eq hpat, cons_append, cons.injEq] at h
    obtain ⟨rfl, hrest⟩ := h
    obtain ⟨hfront, hback⟩ := ih hrest
    set inc := (nextToken flags pat).2 with hinc
    have hwidth : ∀ token, width ((token, pat.take inc) :: ts) = inc + width ts := by
      intro token
      simp [width, hle]
    have hne : pat.take (inc + width ts) ≠ [] := by
      simp only [ne_eq, take_eq_nil_iff, hpat, or_false]
      omega
    -- The cut is behind the first token, so that token is still read as it was.
    have hsame : nextToken flags (pat.take (inc + width ts)) = nextToken flags pat := by
      have hcut := @nextToken_append flags _ (pat.drop (inc + width ts)) hne
      rw [take_append_drop] at hcut
      refine hcut ?_
      rw [length_take]
      omega
    rw [hwidth]
    refine ⟨?_, by rw [← drop_drop]; exact hback⟩
    rw [tokens_eq hne, hsame, ← hinc, take_take, drop_take, Nat.add_sub_cancel_left, hfront]
    simp

end

def isStar (t : Lexeme) : Prop := t.1 = .star

def takes (flags : BitVec 32) (t : Lexeme) (k : UInt8) : Prop :=
  tokenMatches flags t.1 t.2 k = true

/-- The string can be cut into pieces for the tokens: any piece for a star, one matching byte for
every other token. -/
abbrev Reads (flags : BitVec 32) (ts : List Lexeme) (s : List UInt8) : Prop :=
  Fits isStar (takes flags) ts s

/-- Past some tokens that each take a byte, and a star, there are `pat'` and `s'`. -/
def Leads (flags : BitVec 32) (pat s pat' s' : List UInt8) : Prop :=
  ∃ c u t, tokens flags pat = c ++ t :: tokens flags pat' ∧ s = u ++ s' ∧
    Forall₂ (takes flags) c u ∧ isStar t

variable {flags : BitVec 32} {pat s pat' s' : List UInt8} {t : Lexeme}
variable {ts : List Lexeme} {k : UInt8}

lemma not_isStar_of_takes (h : takes flags t k) : ¬ isStar t := by
  intro hstar
  rw [takes, show t.1 = .star from hstar] at h
  cases h

lemma not_isStar_of_forall₂ (h : Forall₂ (takes flags) ts s) : ∀ t ∈ ts, ¬ isStar t := by
  induction h with
  | nil => exact forall_mem_nil _
  | cons htake _ ih => exact forall_mem_cons.mpr ⟨not_isStar_of_takes htake, ih⟩

lemma patternEnd_iff : (nextToken flags pat).1 = .patternEnd ↔ pat = [] := by
  cases pat with
  | nil => exact iff_of_true rfl rfl
  | cons c pat =>
    refine iff_of_false ?_ (cons_ne_nil c pat)
    rw [nextToken]
    split_ifs
    · nofun
    · rw [bracketToken]
      split <;> nofun
    all_goals nofun

lemma tokens_of_next {token : Token} {inc : Nat} (h : nextToken flags pat = (token, inc)) :
    token = .patternEnd ∧ tokens flags pat = [] ∨ token ≠ .patternEnd ∧
      tokens flags pat = (token, pat.take inc) :: tokens flags (pat.drop inc) ∧
        (pat.drop inc).length < pat.length := by
  by_cases hpat : pat = []
  · subst hpat
    cases h
    exact .inl ⟨rfl, rfl⟩
  · have heq : tokens flags pat = _ := tokens_eq hpat
    have hend : (nextToken flags pat).1 ≠ .patternEnd := patternEnd_iff.not.mpr hpat
    have hbounds := nextToken_bounds flags hpat
    rw [h] at heq hend hbounds
    refine .inr ⟨hend, heq, ?_⟩
    rw [length_drop]
    omega

lemma Leads.cons {token : Token} {inc : Nat}
    (htokens : tokens flags pat = (token, pat.take inc) :: tokens flags (pat.drop inc))
    (htake : takes flags (token, pat.take inc) k)
    (h : Leads flags (pat.drop inc) s pat' s') : Leads flags pat (k :: s) pat' s' := by
  obtain ⟨c, u, t, hrest, rfl, hc, ht⟩ := h
  exact ⟨_ :: c, k :: u, t, by rw [htokens, hrest, cons_append], rfl, .cons htake hc, ht⟩

lemma Leads.matched {inc : Nat} (htokens : tokens flags pat = (.star, pat.take inc) ::
    tokens flags (pat.drop inc)) : Leads flags pat s (pat.drop inc) s :=
  ⟨[], [], _, htokens, rfl, .nil, rfl⟩

lemma component_spec {found : Component} {n : Nat} (h : component flags pat s = (found, n)) :
    n ≤ s.length ∧ n ≤ pat.length ∧ match found with
      | .matched pat' s' => Leads flags pat s pat' s' ∧ n + pat'.length < pat.length
      | .ended s' => ∃ u, s = u ++ s' ∧ Forall₂ (takes flags) (tokens flags pat) u
      | .mismatch => s ≠ [] ∧ ¬ Reads flags (tokens flags pat) s
      | .exhausted => ∀ t, isStar t → ¬ Reads flags (t :: tokens flags pat) s := by
  induction s generalizing pat found n with
  | nil =>
    rcases hnext : nextToken flags pat with ⟨token, inc⟩
    simp only [component, hnext] at h
    rcases tokens_of_next hnext with ⟨rfl, htokens⟩ | ⟨hend, htokens, hlt⟩
    · cases h
      exact ⟨le_rfl, Nat.zero_le _, [], rfl, htokens ▸ .nil⟩
    · have hone : token ≠ .star → ¬ isStar (token, pat.take inc) := id
      split_ifs at h with hstar
      · cases h
        exact ⟨le_rfl, Nat.zero_le _, .matched (hstar ▸ htokens), by omega⟩
      · cases h
        refine ⟨le_rfl, Nat.zero_le _, fun t ht hreads => ?_⟩
        obtain ⟨u, v, heq, hv⟩ := (fits_star ht).mp hreads
        rw [(append_eq_nil_iff.mp heq.symm).2, htokens] at hv
        exact not_fits_nil (hone hstar) hv
  | cons k s ih =>
    rcases hnext : nextToken flags pat with ⟨token, inc⟩
    simp only [component, hnext] at h
    rcases tokens_of_next hnext with ⟨rfl, htokens⟩ | ⟨hend, htokens, hlt⟩
    · cases h
      exact ⟨Nat.zero_le _, Nat.zero_le _, [], rfl, htokens ▸ .nil⟩
    · have hone : token ≠ .star → ¬ isStar (token, pat.take inc) := id
      split_ifs at h with hstar htake
      · cases h
        exact ⟨Nat.zero_le _, Nat.zero_le _, .matched (hstar ▸ htokens), by omega⟩
      · rcases hrest : component flags (pat.drop inc) s with ⟨found', n'⟩
        rw [hrest] at h
        cases h
        obtain ⟨hs, hpat, hstop⟩ := ih hrest
        refine ⟨Nat.succ_le_succ hs, by omega, ?_⟩
        rw [htokens]
        split at hstop
        · exact ⟨hstop.1.cons htokens htake, by omega⟩
        · obtain ⟨u, rfl, hu⟩ := hstop
          exact ⟨k :: u, rfl, .cons htake hu⟩
        · exact ⟨cons_ne_nil k s, fun hreads => hstop.2 ((fits_one (hone hstar)).mp hreads).2⟩
        · exact fun t ht hreads => hstop t ht (hreads.shorter ht (hone hstar))
      · cases h
        refine ⟨Nat.succ_le_succ (Nat.zero_le _), by omega, cons_ne_nil k s, fun hreads => ?_⟩
        rw [htokens] at hreads
        exact htake ((fits_one (hone hstar)).mp hreads).1

def Closed (ts : List Lexeme) : Prop := ∀ t ∈ ts.getLast?, isStar t

lemma foldl_tailStep (ts : List Lexeme) : ∃ m l, ts = m ++ l ∧
    ts.foldl tailStep (0, 0, 0) = (width ts, width m, l.length) ∧ (∀ t ∈ l, ¬ isStar t) ∧
      Closed m := by
  induction ts using List.reverseRecOn with
  | nil => exact ⟨[], [], rfl, rfl, forall_mem_nil _, nofun⟩
  | append_singleton ts t ih =>
    obtain ⟨m, l, rfl, hfold, hl, hm⟩ := ih
    have hwidth : width (m ++ l) + t.2.length = width (m ++ l ++ [t]) := by
      simp [width, Nat.add_assoc]
    rw [foldl_concat, hfold, tailStep]
    split_ifs with hstar
    · refine ⟨m ++ l ++ [t], [], by simp, by rw [hwidth]; rfl, forall_mem_nil _, fun t' ht' => ?_⟩
      rw [getLast?_concat] at ht'
      exact Option.some.inj ht' ▸ hstar
    · refine ⟨m, l ++ [t], append_assoc m l [t], by simp [hwidth], ?_, hm⟩
      exact forall_mem_append.mpr ⟨hl, forall_mem_singleton.mpr hstar⟩

def Decides (r : Option Bool × Nat) (P : Prop) : Prop := ∃ b, r.1 = some b ∧ (b = true ↔ P)

lemma search_spec {rounds : Nat} (hrounds : pat.length + s.length < rounds)
    (hclosed : Closed (tokens flags pat)) (ht : isStar t) :
    Decides (search flags rounds pat s) (Reads flags (t :: tokens flags pat) s) ∧
      (search flags rounds pat s).2 ≤ pat.length * (s.length + 1) := by
  induction rounds generalizing pat s t with
  | zero => cases hrounds
  | succ rounds ih =>
    rw [search]
    by_cases hpat : pat = []
    · subst hpat
      refine ⟨⟨true, rfl, iff_of_true rfl ?_⟩, Nat.zero_le _⟩
      exact (fits_star ht).mpr ⟨s, [], (append_nil s).symm, fits_nil.mpr rfl⟩
    · rw [if_neg hpat]
      rcases hread : component flags pat s with ⟨found, n⟩
      obtain ⟨-, hn, hstop⟩ := component_spec hread
      rcases found with ⟨pat', s'⟩ | s' | _ | _
      -- Each round either finishes some of the pattern or drops a byte.
      · obtain ⟨⟨c, u, t', htokens, rfl, hc, ht'⟩, hlt⟩ := hstop
        have hclosed' : Closed (tokens flags pat') := by
          intro t'' ht''
          refine hclosed t'' ?_
          rw [htokens, getLast?_append, getLast?_cons, Option.mem_def.mp ht'']
          rfl
        rw [length_append] at hrounds
        obtain ⟨⟨b, hb, hiff⟩, hcount⟩ := ih (s := s') (by omega) hclosed' ht'
        refine ⟨⟨b, hb, ?_⟩, ?_⟩
        · rw [hiff, htokens]
          exact (fits_first hc (not_isStar_of_forall₂ hc) ht ht').symm
        · rw [length_append]
          change n + _ ≤ _
          nlinarith
      · obtain ⟨u, -, hu⟩ := hstop
        have hne : tokens flags pat ≠ [] := by
          rw [tokens_eq hpat]
          exact cons_ne_nil _ _
        have hlast := getLast?_eq_some_getLast hne
        exact absurd (hclosed _ hlast) (not_isStar_of_forall₂ hu _ (getLast_mem hne))
      · obtain ⟨k, s', rfl⟩ := exists_cons_of_ne_nil hstop.1
        rw [length_cons] at hrounds
        obtain ⟨⟨b, hb, hiff⟩, hcount⟩ := ih (s := s') (by omega) hclosed ht
        refine ⟨⟨b, hb, hiff.trans (fits_skip ht hstop.2).symm⟩, ?_⟩
        change n + (search flags rounds pat s').2 ≤ _
        rw [length_cons, Nat.mul_succ]
        omega
      · exact ⟨⟨false, rfl, iff_of_false nofun (hstop t ht)⟩, by nlinarith⟩

/-- The tokens read the string, and a leading period under `FNM_PERIOD` has a literal one as the
pattern's first token. -/
def Means (flags : BitVec 32) (ts : List Lexeme) (s : List UInt8) : Prop :=
  Reads flags ts s ∧ (has flags fnmPeriod = true → s.head? = some period →
    ∃ t ∈ ts.head?, t.1 = .byte period)

lemma forall₂_iff_ended {found : Component} {n : Nat} (h : component flags pat s = (found, n)) :
    Forall₂ (takes flags) (tokens flags pat) s ↔ found = .ended [] := by
  obtain ⟨-, -, hstop⟩ := component_spec h
  rcases found with ⟨pat', s'⟩ | s' | _ | _
  · obtain ⟨⟨c, u, t, htokens, -, -, ht⟩, -⟩ := hstop
    refine iff_of_false (fun hread => ?_) nofun
    exact not_isStar_of_forall₂ hread t (htokens ▸ mem_append_cons_self) ht
  · obtain ⟨u, rfl, hu⟩ := hstop
    constructor
    · intro hread
      have hlength := hu.length_eq.symm.trans hread.length_eq
      rw [length_append] at hlength
      rw [length_eq_zero_iff.mp (show s'.length = 0 by omega)]
    · rintro ⟨⟩
      rwa [append_nil]
  · exact iff_of_false (fun hread => hstop.2 (fits_of_forall₂ hread)) nofun
  · have hstar : isStar (.star, []) := rfl
    exact iff_of_false (fun hread => hstop _ hstar ((fits_of_forall₂ hread).starred hstar)) nofun

lemma matchTail_spec (flags : BitVec 32) (pat s : List UInt8) :
    ((matchTail flags pat s).1 = true ↔ Forall₂ (takes flags) (tokens flags pat) s) ∧
      (matchTail flags pat s).2 ≤ s.length + 1 := by
  rcases hread : component flags pat s with ⟨found, n⟩
  have hn := (component_spec hread).1
  rw [matchTail, hread, forall₂_iff_ended hread]
  rcases found with ⟨pat', s'⟩ | s' | _ | _
  · exact ⟨iff_of_false nofun nofun, by dsimp only; split_ifs <;> omega⟩
  · exact ⟨by simp, by dsimp only; split_ifs <;> omega⟩
  all_goals exact ⟨iff_of_false nofun nofun, Nat.le_succ_of_le hn⟩

lemma head_tokens (c : UInt8) :
    (∃ t ∈ (tokens flags pat).head?, t.1 = .byte c) ↔ (nextToken flags pat).1 = .byte c := by
  by_cases hpat : pat = []
  · subst hpat
    exact iff_of_false nofun nofun
  · rw [tokens_eq hpat]
    simp

lemma matchRest_spec (ht : isStar t) :
    Decides (matchRest flags pat s) (Reads flags (t :: tokens flags pat) s) ∧
      (matchRest flags pat s).2 ≤ (pat.length + 1) * (s.length + 1) := by
  obtain ⟨m, l, htokens, hfold, hl, hm⟩ := foldl_tailStep (tokens flags pat)
  obtain ⟨hfront, hback⟩ := tokens_cut htokens
  rw [matchRest, findTail, hfold, htokens, ← cons_append]
  dsimp only
  split_ifs with hshort
  · refine ⟨⟨false, rfl, iff_of_false nofun fun hreads => ?_⟩, Nat.zero_le _⟩
    exact hshort.not_ge (hreads.length_le hl)
  · set i := s.length - l.length with hi
    have hlength : l.length = (s.drop i).length := by
      rw [length_drop]
      omega
    obtain ⟨htail, hn⟩ := matchTail_spec flags (pat.drop (width m)) (s.drop i)
    -- The end of the string goes to the tail, and the front to the star and what is before it.
    have hcut : Reads flags (t :: m ++ l) s ↔ Reads flags (t :: m) (s.take i) ∧
        (matchTail flags (pat.drop (width m)) (s.drop i)).1 = true := by
      rw [htail, hback, ← fits_tail hl hlength, take_append_drop]
    rcases hmatch : matchTail flags (pat.drop (width m)) (s.drop i) with ⟨b, n⟩
    rw [hmatch] at hcut hn
    rw [← hlength] at hn
    cases b with
    | false =>
      refine ⟨⟨false, rfl, iff_of_false nofun fun hreads => nomatch (hcut.mp hreads).2⟩, ?_⟩
      change n ≤ _
      nlinarith
    | true =>
      have hlengths : (pat.take (width m)).length + (s.take i).length < width m + i + 1 := by
        rw [length_take, length_take]
        omega
      obtain ⟨⟨b, hb, hiff⟩, hcount⟩ := search_spec hlengths (hfront.symm ▸ hm) ht
      rw [hfront] at hiff
      refine ⟨⟨b, hb, hiff.trans (hcut.trans (and_iff_left rfl)).symm⟩, ?_⟩
      have hle : (pat.take (width m)).length * ((s.take i).length + 1) ≤
          pat.length * (s.length + 1) :=
        Nat.mul_le_mul (length_take_le' _ _) (Nat.succ_le_succ (length_take_le' _ _))
      change n + _ ≤ _
      rw [Nat.succ_mul]
      omega

lemma matchWhole_spec (flags : BitVec 32) (pat s : List UInt8) :
    Decides (matchWhole flags pat s) (Means flags (tokens flags pat) s) ∧
      (matchWhole flags pat s).2 ≤ (pat.length + 2) * (s.length + 1) := by
  rw [matchWhole, Means, head_tokens]
  split_ifs with hperiod
  · simp only [Bool.and_eq_true, beq_iff_eq, bne_iff_ne] at hperiod
    obtain ⟨⟨hflag, hhead⟩, hfirst⟩ := hperiod
    refine ⟨⟨false, rfl, iff_of_false nofun fun h => hfirst (h.2 hflag hhead)⟩, Nat.zero_le _⟩
  · have hfirst : has flags fnmPeriod = true → s.head? = some period →
        (nextToken flags pat).1 = .byte period := by
      intro hflag hhead
      by_contra hfirst
      exact hperiod (by simp [hflag, hhead, hfirst])
    rw [and_iff_left hfirst]
    rcases hread : component flags pat s with ⟨found, n⟩
    obtain ⟨hn, -, hstop⟩ := component_spec hread
    have hended := forall₂_iff_ended hread
    rcases found with ⟨pat', s'⟩ | s' | _ | _
    · obtain ⟨⟨c, u, t, htokens, rfl, hc, ht⟩, hlt⟩ := hstop
      obtain ⟨⟨b, hb, hiff⟩, hcount⟩ := @matchRest_spec flags pat' s' t ht
      refine ⟨⟨b, hb, ?_⟩, ?_⟩
      · rw [hiff, htokens]
        exact (fits_after hc (not_isStar_of_forall₂ hc)).symm
      · change n + _ ≤ _
        rw [length_append] at hn ⊢
        nlinarith
    · obtain ⟨u, rfl, hu⟩ := hstop
      refine ⟨⟨_, rfl, ?_⟩, by dsimp only; split_ifs <;> nlinarith⟩
      rw [Reads, fits_iff_forall₂ (not_isStar_of_forall₂ hu), hended]
      simp
    · exact ⟨⟨false, rfl, iff_of_false nofun hstop.2⟩, by change n ≤ _; nlinarith⟩
    · have hstar : isStar (.star, []) := rfl
      refine ⟨⟨false, rfl, iff_of_false nofun fun h => ?_⟩, by change n ≤ _; nlinarith⟩
      exact hstop _ hstar (h.starred hstar)

lemma splitOnP_eq_cons {α : Type} (p : α → Bool) (l : List α) :
    ∃ parts, l.splitOnP p = l.take (l.findIdx p) :: parts ∧ (l.length ≤ l.findIdx p ∧ parts = [] ∨
        l.findIdx p < l.length ∧ parts = (l.drop (l.findIdx p + 1)).splitOnP p) := by
  induction l with
  | nil => exact ⟨[], rfl, .inl ⟨le_rfl, rfl⟩⟩
  | cons a l ih =>
    rw [splitOnP_cons_eq_if_modifyHead, findIdx_cons]
    by_cases ha : p a = true
    · exact ⟨l.splitOnP p, by simp [ha], .inr (by simp [ha])⟩
    · obtain ⟨parts, heq, hparts⟩ := ih
      exact ⟨parts, by simp [ha, heq], by simpa [ha] using hparts⟩

def patternParts (flags : BitVec 32) (pat : List UInt8) : List (List Lexeme) :=
  (tokens flags pat).splitOnP isSlash

def stringParts (s : List UInt8) : List (List UInt8) := s.splitOnP (· == slash)

lemma stringEnd_spec (s : List UInt8) : ∃ parts,
    stringParts s = s.take (stringEnd s) :: parts ∧ (s.length ≤ stringEnd s ∧ parts = [] ∨
      stringEnd s < s.length ∧ parts = stringParts (s.drop (stringEnd s + 1))) :=
  splitOnP_eq_cons _ s

lemma patternEnd_spec {token : Token} {inc : Nat}
    (h : nextToken flags (pat.drop (patternEnd flags pat)) = (token, inc)) : ∃ parts,
    patternParts flags pat = tokens flags (pat.take (patternEnd flags pat)) :: parts ∧
      (token = .patternEnd ∧ parts = [] ∨ token ≠ .patternEnd ∧
        parts = patternParts flags (pat.drop (patternEnd flags pat + inc)) ∧
          (pat.take (patternEnd flags pat)).length +
            (pat.drop (patternEnd flags pat + inc)).length < pat.length) := by
  obtain ⟨parts, hsplit, hparts⟩ := splitOnP_eq_cons isSlash (tokens flags pat)
  obtain ⟨hfront, hback⟩ := tokens_cut (take_append_drop _ (tokens flags pat)).symm
  rw [← hfront] at hsplit
  refine ⟨parts, hsplit, ?_⟩
  rcases tokens_of_next h with ⟨hend, hnil⟩ | ⟨hend, hcons, hlt⟩
  · have := hback.symm.trans hnil
    rw [drop_eq_nil_iff] at this
    exact .inl ⟨hend, (hparts.resolve_right fun h => h.1.not_ge this).2⟩
  · have heq := hback.symm.trans hcons
    have hlong : ¬ (tokens flags pat).length ≤ (tokens flags pat).findIdx isSlash := by
      intro hle
      rw [drop_eq_nil_of_le hle] at heq
      cases heq
    obtain ⟨-, rfl⟩ := hparts.resolve_left fun h => hlong h.1
    have hrest := congrArg (drop 1) heq
    rw [drop_drop, drop_succ_cons, drop_zero, drop_drop] at hrest
    refine .inr ⟨hend, congrArg _ hrest, ?_⟩
    simp only [length_drop, length_take] at hlt ⊢
    omega

lemma matchPath_spec {rounds : Nat} (hflag : has flags fnmLeadingDir = false)
    (hrounds : s.length < rounds) :
    Decides (matchPath flags rounds pat s)
      (Forall₂ (Means flags) (patternParts flags pat) (stringParts s)) ∧
        (matchPath flags rounds pat s).2 ≤ (pat.length + 2) * (s.length + 1) := by
  induction rounds generalizing pat s with
  | zero => cases hrounds
  | succ rounds ih =>
    rcases hnext : nextToken flags (pat.drop (patternEnd flags pat)) with ⟨token, inc⟩
    obtain ⟨ps, hps, hpattern⟩ := patternEnd_spec hnext
    obtain ⟨ss, hss, hstring⟩ := stringEnd_spec s
    rw [matchPath, hps, hss, hnext, forall₂_cons, hflag]
    rcases hwhole : matchWhole flags (pat.take (patternEnd flags pat)) (s.take (stringEnd s)) with
      ⟨answer, n⟩
    obtain ⟨⟨b, rfl, hiff⟩, hcount⟩ := hwhole ▸ matchWhole_spec flags _ _
    have hn : n ≤ (pat.length + 2) * (s.length + 1) :=
      hcount.trans (Nat.mul_le_mul (Nat.add_le_add_right (length_take_le' _ _) 2)
        (Nat.succ_le_succ (length_take_le' _ _)))
    rw [← hiff]
    cases b with
    | false =>
      refine ⟨⟨false, ?_, iff_of_false nofun fun h => nomatch h.1⟩, ?_⟩
      all_goals dsimp only; split_ifs
      exacts [rfl, rfl, Nat.zero_le _, hn]
    | true =>
      rw [and_iff_right rfl]
      dsimp only
      rcases hpattern with ⟨rfl, rfl⟩ | ⟨hend, rfl, hlt⟩
      · rcases hstring with ⟨hshort, rfl⟩ | ⟨hlong, rfl⟩
        · rw [if_neg (by simpa using hshort)]
          exact ⟨⟨true, rfl, iff_of_true rfl .nil⟩, hn⟩
        · rw [if_pos (by simpa using hlong)]
          refine ⟨⟨false, rfl, iff_of_false nofun fun h => ?_⟩, Nat.zero_le _⟩
          obtain ⟨ss, hss, -⟩ := stringEnd_spec (s.drop (stringEnd s + 1))
          rw [hss] at h
          cases h
      · rw [bne_iff_ne.mpr hend, if_pos rfl]
        rcases hstring with ⟨hshort, rfl⟩ | ⟨hlong, rfl⟩
        · rw [if_pos (by simpa using hshort)]
          refine ⟨⟨false, rfl, iff_of_false nofun fun h => ?_⟩, Nat.zero_le _⟩
          obtain ⟨ps, hps, -⟩ :=
            @patternEnd_spec flags (pat.drop (patternEnd flags pat + inc)) _ _ rfl
          rw [hps] at h
          cases h
        · rw [if_neg (by simpa using hlong)]
          obtain ⟨⟨b, hb, hiff⟩, hrest⟩ := @ih (pat.drop (patternEnd flags pat + inc))
            (s.drop (stringEnd s + 1)) (by rw [length_drop]; omega)
          refine ⟨⟨b, hb, hiff⟩, ?_⟩
          have hlength : (s.take (stringEnd s)).length + (s.drop (stringEnd s + 1)).length + 1 =
              s.length := by
            rw [length_take, length_drop]
            omega
          change n + _ ≤ _
          rw [← hlength]
          nlinarith

theorem matches_iff (flags : BitVec 32) (hflag : has flags fnmLeadingDir = false)
    (pat s : List UInt8) :
    Decides (matchWhole flags pat s) (Means flags (tokens flags pat) s) ∧
      Decides (matchPath flags (s.length + 1) pat s)
        (Forall₂ (Means flags) (patternParts flags pat) (stringParts s)) ∧
      matchString flags pat s = (if has flags fnmPathname then
        matchPath flags (s.length + 1) pat s else matchWhole flags pat s).1 ∧
      max (matchWhole flags pat s).2 (matchPath flags (s.length + 1) pat s).2 ≤
        pat.length * s.length + (pat.length + 2 * s.length + 2) := by
  obtain ⟨hwhole, hcount⟩ := matchWhole_spec flags pat s
  obtain ⟨hpath, hcount'⟩ := @matchPath_spec flags pat s _ hflag (Nat.lt_succ_self s.length)
  have hbound : (pat.length + 2) * (s.length + 1) =
      pat.length * s.length + (pat.length + 2 * s.length + 2) := by ring
  refine ⟨hwhole, hpath, ?_, hbound ▸ max_le hcount hcount'⟩
  simp only [matchString, hflag, Bool.false_and, Bool.false_eq_true, if_false]
  split_ifs <;> rfl

theorem star_slash_means : Forall₂ (Means fnmPathname) (patternParts fnmPathname ['*', '/', 'b'])
    (stringParts ['a', '/', 'b']) := by
  obtain ⟨-, ⟨b, hb, hiff⟩, -⟩ := matches_iff fnmPathname rfl ['*', '/', 'b'] ['a', '/', 'b']
  exact hiff.mp (Option.some.inj (hb.symm.trans (by decide)))

/-- Under `FNM_PERIOD` a star before the literal period refuses a leading one although it could
take nothing, and `FNM_LEADING_DIR` lets a path of fewer components match. -/
theorem star_period_refused :
    Forall₂ (Takes isStar (takes fnmPeriod)) (tokens fnmPeriod ['*', '.', 'c']) [[], ['.'], ['c']] ∧
      (tokens fnmPeriod ['*', '.', 'c']).map Prod.fst = [.star, .byte period, .byte 'c'] ∧
      (matchWhole fnmPeriod ['*', '.', 'c'] ['.', 'c']).1 = some false ∧
      matchString (fnmPathname ||| fnmLeadingDir) ['a'] ['a', '/', 'b'] = some true := by
  refine ⟨?_, by decide, by decide, by decide⟩
  exact .cons (.inl rfl) (.cons (.inr ⟨'.', rfl, rfl⟩) (.cons (.inr ⟨'c', rfl, rfl⟩) .nil))

end Ferrix.Fnmatch.Matching

import Mathlib.Data.List.Basic

/-! Regular expressions as Python's `re` runs them: a pattern tries its choices in order and
backtracks into them. Matching passes the rest of the pattern on as a continuation. -/

inductive Regex
  | empty
  | char (p : Char → Bool)
  | seq (a b : Regex)
  | alt (a b : Regex)
  | star (greedy : Bool) (r : Regex)
  | group (n : ℕ) (r : Regex)
  /-- "^" and "$" with `re.MULTILINE` -/
  | lineStart
  | lineEnd

namespace Regex

/-- A place in a text: what is before it, nearest first, and what is still to read. -/
structure Place where
  before : List Char
  rest : List Char
  groups : List (ℕ × List Char) := []
deriving DecidableEq, Repr

/-- A body again and again, up to `n` times, as long as it takes something. -/
def many (body : Place → (Place → Option Place) → Option Place) (greedy : Bool) :
    ℕ → Place → (Place → Option Place) → Option Place
  | 0, s, k => k s
  | n + 1, s, k =>
    let more := fun _ : Unit => body s fun s' => if s'.rest.length < s.rest.length
      then many body greedy n s' k else none
    if greedy then (more ()).orElse fun _ => k s else (k s).orElse more

def go : Regex → Place → (Place → Option Place) → Option Place
  | empty, s, k => k s
  | char p, s, k =>
    match s.rest with
    | c :: cs => if p c then k { s with before := c :: s.before, rest := cs } else none
    | [] => none
  | seq a b, s, k => go a s fun s' => go b s' k
  | alt a b, s, k => (go a s k).orElse fun _ => go b s k
  | star greedy r, s, k => many (go r) greedy (s.rest.length + 1) s k
  | group n r, s, k =>
    go r s fun s' => k { s' with groups := (n, s.rest.take (s.rest.length - s'.rest.length)) :: s'.groups }
  | lineStart, s, k => if s.before.head?.all (· = '\n') then k s else none
  | lineEnd, s, k => if s.rest.head?.all (· = '\n') then k s else none

/-! What patterns are written with. -/

def plus (r : Regex) : Regex := seq r (star true r)
def opt (r : Regex) : Regex := alt r empty

def literal (s : String) : Regex := s.toList.foldr (fun c r => seq (char (· = c)) r) empty

/-- `r{n}` -/
def times : ℕ → Regex → Regex
  | 0, _ => empty
  | n + 1, r => seq r (times n r)

/-- `r{n,}` -/
def atLeast (n : ℕ) (r : Regex) : Regex := seq (times n r) (star true r)

/-- A match: where it starts, what it takes, and its groups. -/
structure Match where
  start : ℕ
  text : List Char
  groups : List (ℕ × List Char)
deriving DecidableEq, Repr

def Match.group (m : Match) (n : ℕ) : List Char := (m.groups.lookup n).getD []

/-- The text cut into the matches of a pattern that takes something, from the left, and the characters
between them. -/
def scan (r : Regex) : ℕ → List Char → List Char → List (Char ⊕ Match)
  | 0, _, _ => []
  | n + 1, before, rest =>
    match r.go { before, rest } some, rest with
    | some e, c :: cs =>
      if e.rest.length < rest.length then
        .inr ⟨before.length, rest.take (rest.length - e.rest.length), e.groups⟩ :: scan r n e.before e.rest
      else .inl c :: scan r n (c :: before) cs
    | none, c :: cs => .inl c :: scan r n (c :: before) cs
    | _, [] => []

/-- `re.finditer` -/
def finditer (r : Regex) (text : List Char) : List Match :=
  (scan r text.length [] text).filterMap fun | .inr m => some m | .inl _ => none

/-- `re.match`, whether there is one -/
def isMatch (r : Regex) (text : List Char) : Bool := (r.go { before := [], rest := text } some).isSome

/-- `re.sub` -/
def sub (r : Regex) (repl text : List Char) : List Char :=
  (scan r text.length [] text).flatMap fun | .inr _ => repl | .inl c => [c]

/-- Every text the pattern takes has a character of a kind. -/
def Needs (p : Char → Prop) : Regex → Prop
  | char q => ∀ c, q c = true → p c
  | seq a b => Needs p a ∨ Needs p b
  | alt a b => Needs p a ∧ Needs p b
  | group _ r => Needs p r
  | _ => False

/-- What a successful match tells: the continuation succeeded further on, and the needed character
was still to read. -/
def Took (p : Char → Prop) (r : Regex) (s : Place) (k : Place → Option Place) (e : Place) : Prop :=
  ∃ s', k s' = some e ∧ s'.rest <:+ s.rest ∧ (Needs p r → ∃ c ∈ s.rest, p c)

variable {p : Char → Prop}

theorem orElse_eq_some {o : Option Place} {f : Unit → Option Place} {e : Place} (h : o.orElse f = some e) :
    o = some e ∨ f () = some e := by
  cases o with
  | none => exact Or.inr h
  | some a => exact Or.inl h

theorem many_took {body : Place → (Place → Option Place) → Option Place} {greedy : Bool}
    (hb : ∀ s k e, body s k = some e → ∃ s', k s' = some e ∧ s'.rest <:+ s.rest) (n : ℕ) :
    ∀ {s k e}, many body greedy n s k = some e → ∃ s', k s' = some e ∧ s'.rest <:+ s.rest := by
  induction n with
  | zero => exact fun h => ⟨_, h, List.suffix_refl _⟩
  | succ n ih =>
    intro s k e h
    have hmore : (body s fun s' => if s'.rest.length < s.rest.length then many body greedy n s' k else none) = some e →
        ∃ s', k s' = some e ∧ s'.rest <:+ s.rest := by
      intro h
      obtain ⟨s1, h1, hs1⟩ := hb _ _ _ h
      split_ifs at h1
      obtain ⟨s2, h2, hs2⟩ := ih h1
      exact ⟨s2, h2, hs2.trans hs1⟩
    have hk : k s = some e → ∃ s', k s' = some e ∧ s'.rest <:+ s.rest := fun h => ⟨s, h, List.suffix_refl _⟩
    simp only [many] at h
    split_ifs at h
    · rcases orElse_eq_some h with h | h
      · exact hmore h
      · exact hk h
    · rcases orElse_eq_some h with h | h
      · exact hk h
      · exact hmore h

theorem go_took (r : Regex) : ∀ {s k e}, r.go s k = some e → Took p r s k e := by
  induction r with
  | empty => exact fun h => ⟨_, h, List.suffix_refl _, False.elim⟩
  | char q =>
    intro s k e h
    obtain ⟨before, rest, groups⟩ := s
    cases rest with
    | nil => cases h
    | cons c cs =>
      simp only [go] at h
      split_ifs at h with hc
      exact ⟨_, h, List.suffix_cons c cs, fun hn => ⟨c, List.mem_cons_self, hn c hc⟩⟩
  | seq a b iha ihb =>
    intro s k e h
    obtain ⟨s1, h1, hs1, hp1⟩ := iha h
    obtain ⟨s2, h2, hs2, hp2⟩ := ihb h1
    refine ⟨s2, h2, hs2.trans hs1, fun hn => ?_⟩
    rcases hn with hn | hn
    · exact hp1 hn
    · obtain ⟨c, hc, hp⟩ := hp2 hn
      exact ⟨c, hs1.subset hc, hp⟩
  | alt a b iha ihb =>
    intro s k e h
    rcases orElse_eq_some h with h | h
    · obtain ⟨s1, h1, hs1, hp1⟩ := iha h
      exact ⟨s1, h1, hs1, fun hn => hp1 hn.1⟩
    · obtain ⟨s1, h1, hs1, hp1⟩ := ihb h
      exact ⟨s1, h1, hs1, fun hn => hp1 hn.2⟩
  | star greedy r ih =>
    intro s k e h
    have hb : ∀ s k e, r.go s k = some e → ∃ s', k s' = some e ∧ s'.rest <:+ s.rest := by
      intro s k e h
      obtain ⟨s1, h1, hs1, -⟩ := ih h
      exact ⟨s1, h1, hs1⟩
    obtain ⟨s1, h1, hs1⟩ := many_took hb _ h
    exact ⟨s1, h1, hs1, False.elim⟩
  | group n r ih =>
    intro s k e h
    obtain ⟨s1, h1, hs1, hp1⟩ := ih h
    exact ⟨_, h1, hs1, hp1⟩
  | lineStart =>
    intro s k e h
    simp only [go] at h
    split_ifs at h
    exact ⟨s, h, List.suffix_refl _, False.elim⟩
  | lineEnd =>
    intro s k e h
    simp only [go] at h
    split_ifs at h
    exact ⟨s, h, List.suffix_refl _, False.elim⟩

/-- A match is of a text that has the character its pattern needs. -/
theorem exists_of_mem_scan {r : Regex} (hr : Needs p r) (n : ℕ) : ∀ {before rest m},
    .inr m ∈ scan r n before rest → ∃ c ∈ rest, p c := by
  induction n with
  | zero => intro before rest m h; cases h
  | succ n ih =>
    intro before rest m h
    have hskip : ∀ {c cs}, rest = c :: cs → .inr m ∈ .inl c :: scan r n (c :: before) cs → ∃ c ∈ rest, p c := by
      rintro c cs rfl h
      obtain ⟨d, hd, hp⟩ := ih ((List.mem_cons.mp h).resolve_left (by simp))
      exact ⟨d, List.mem_cons_of_mem c hd, hp⟩
    unfold scan at h
    split at h
    · rename_i e c cs he
      split_ifs at h
      · obtain ⟨-, -, -, hp⟩ := go_took (p := p) r he
        exact hp hr
      · exact hskip rfl h
    · exact hskip rfl h
    · cases h

theorem exists_of_mem_finditer {r : Regex} (hr : Needs p r) {text : List Char} {m : Match} (h : m ∈ finditer r text) :
    ∃ c ∈ text, p c := by
  obtain ⟨x, hx, hm⟩ := List.mem_filterMap.mp h
  cases x with
  | inl c => cases hm
  | inr m' =>
    cases hm
    exact exists_of_mem_scan hr _ hx

end Regex

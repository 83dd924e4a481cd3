import Mathlib.Data.List.Infix

/-! A fragment of LogQL and of RE2, as a reader of a query has it: a back-quoted string is literal up
to the next back quote, a double-quoted one ends at the next quote that no backslash escapes, and in
an expression an escaped punctuation character and any character that is no operator stand for
themselves. -/

namespace LogQL

inductive Token
  | punct (c : Char)
  | op (s : List Char)
  | word (s : List Char)
  | str (s : List Char)
deriving DecidableEq

/-! The lexer goes from character to character. `out` has the tokens so far, the last one first. -/

inductive Mode
  | start
  | raw (acc : List Char)
  | quoted (acc : List Char)
  | escaped (acc : List Char)
  | word (acc : List Char)
  | op (c : Char)
  | comment
deriving DecidableEq

structure Lexer where
  mode : Mode
  out : List Token
deriving DecidableEq

def wordChar (c : Char) : Bool := c.isAlphanum || c = '_'

def blank (c : Char) : Bool := c = ' ' || c = '\t' || c = '\n' || c = '\x0d'

def punctuation (c : Char) : Bool := c = '\x7b' || c = '\x7d' || c = '(' || c = ')' || c = ','

def opener (c : Char) : Bool := c = '|' || c = '=' || c = '!'

/-- The second character of `|=`, `|~`, `=~`, `!=` and `!~`. -/
def closer (first c : Char) : Bool := c = '~' || (c = '=' && first ≠ '=')

def feedStart (out : List Token) (c : Char) : Option Lexer :=
  if blank c then some ⟨.start, out⟩
  else if c = '\x60' then some ⟨.raw [], out⟩
  else if c = '"' then some ⟨.quoted [], out⟩
  else if c = '#' then some ⟨.comment, out⟩
  else if punctuation c then some ⟨.start, .punct c :: out⟩
  else if opener c then some ⟨.op c, out⟩
  else if wordChar c then some ⟨.word [c], out⟩
  else none

def feed (l : Lexer) (c : Char) : Option Lexer :=
  match l.mode with
  | .start => feedStart l.out c
  | .raw acc => some (if c = '\x60' then ⟨.start, .str acc.reverse :: l.out⟩ else ⟨.raw (c :: acc), l.out⟩)
  | .quoted acc =>
    some (if c = '"' then ⟨.start, .str acc.reverse :: l.out⟩
      else if c = '\\' then ⟨.escaped acc, l.out⟩ else ⟨.quoted (c :: acc), l.out⟩)
  | .escaped acc => some ⟨.quoted (c :: '\\' :: acc), l.out⟩
  | .word acc => if wordChar c then some ⟨.word (c :: acc), l.out⟩ else feedStart (.word acc.reverse :: l.out) c
  | .op first =>
    if closer first c then some ⟨.start, .op [first, c] :: l.out⟩ else feedStart (.op [first] :: l.out) c
  | .comment => some ⟨if c = '\n' then .start else .comment, l.out⟩

def feedAll (l : Lexer) (s : List Char) : Option Lexer := s.foldlM feed l

/-- Nothing may be left open at the end. -/
def Lexer.finish (l : Lexer) : Option (List Token) :=
  match l.mode with
  | .start | .comment => some l.out.reverse
  | .word acc => some (.word acc.reverse :: l.out).reverse
  | .op c => some (.op [c] :: l.out).reverse
  | _ => none

def lex (s : List Char) : Option (List Token) := (feedAll ⟨.start, []⟩ s).bind Lexer.finish

/-! Queries: a selector and stages. -/

inductive Comparison
  | eq | ne | re | nre
deriving DecidableEq

structure Matcher where
  label : List Char
  comparison : Comparison
  value : List Char
deriving DecidableEq

/-- A filter of lines, or one of labels: one of the alternatives, each with all of its matchers. -/
inductive Stage
  | line (negated regex : Bool) (text : List Char)
  | labels (alternatives : List (List Matcher))
deriving DecidableEq

structure Query where
  selector : List Matcher
  stages : List Stage
deriving DecidableEq

def comparison? : List Char → Option Comparison
  | ['='] => some .eq
  | ['!', '='] => some .ne
  | ['=', '~'] => some .re
  | ['!', '~'] => some .nre
  | _ => none

def matcher? : List Token → Option (Matcher × List Token)
  | .word label :: .op o :: .str value :: rest => (comparison? o).map fun c => (⟨label, c, value⟩, rest)
  | _ => none

/-- The matchers of a selector up to its closing brace. -/
def matchers? : ℕ → List Token → Option (List Matcher × List Token)
  | 0, _ => none
  | n + 1, ts =>
    (matcher? ts).bind fun
      | (m, .punct '\x7d' :: rest) => some ([m], rest)
      | (m, .punct ',' :: rest) => (matchers? n rest).map fun r => (m :: r.1, r.2)
      | _ => none

/-- Matchers joined by `and` and `or`, of which `and` binds more tightly. -/
def alternatives? : ℕ → List Token → Option (List (List Matcher) × List Token)
  | 0, _ => none
  | n + 1, ts =>
    (matcher? ts).bind fun
      | (m, .word ['o', 'r'] :: rest) => (alternatives? n rest).map fun r => ([m] :: r.1, r.2)
      | (m, .word ['a', 'n', 'd'] :: rest) =>
        (alternatives? n rest).bind fun
          | (conj :: alts, rest) => some ((m :: conj) :: alts, rest)
          | ([], _) => none
      | (m, rest) => some ([[m]], rest)

def stages? : ℕ → List Token → Option (List Stage)
  | _, [] => some []
  | 0, _ => none
  | n + 1, .op ['|', '='] :: .str s :: rest => (stages? n rest).map (.line false false s :: ·)
  | n + 1, .op ['|', '~'] :: .str s :: rest => (stages? n rest).map (.line false true s :: ·)
  | n + 1, .op ['!', '='] :: .str s :: rest => (stages? n rest).map (.line true false s :: ·)
  | n + 1, .op ['!', '~'] :: .str s :: rest => (stages? n rest).map (.line true true s :: ·)
  | n + 1, .op ['|'] :: rest =>
    (alternatives? n rest).bind fun r => (stages? n r.2).map (.labels r.1 :: ·)
  | _, _ => none

/-- Every token is read at most once, so their number is enough fuel. -/
def query? (ts : List Token) : Option Query :=
  match ts with
  | .punct '\x7b' :: rest =>
    (matchers? ts.length rest).bind fun r => (stages? ts.length r.2).map fun stages => ⟨r.1, stages⟩
  | _ => none

def parse (s : String) : Option Query := (lex s.toList).bind query?

/-! Expressions that stand for a text. -/

def OPERATORS : List Char := ['\\', '.', '+', '*', '?', '(', ')', '|', '[', ']', '\x7b', '\x7d', '^', '$']

/-- ASCII punctuation. -/
def escapable (c : Char) : Bool :=
  (0x21 ≤ c.toNat && c.toNat ≤ 0x2f) || (0x3a ≤ c.toNat && c.toNat ≤ 0x40) || (0x5b ≤ c.toNat && c.toNat ≤ 0x60) ||
    (0x7b ≤ c.toNat && c.toNat ≤ 0x7e)

/-- The text that an expression without any operator stands for. -/
def literal? : List Char → Option (List Char)
  | [] => some []
  | '\\' :: c :: rest => if escapable c then (literal? rest).map (c :: ·) else none
  | c :: rest => if c ∈ OPERATORS then none else (literal? rest).map (c :: ·)

/-- A literal behind the flag for any case. -/
structure Literal where
  anyCase : Bool
  text : List Char

def expression? : List Char → Option Literal
  | '(' :: '?' :: 'i' :: ')' :: rest => (literal? rest).map (⟨true, ·⟩)
  | s => (literal? s).map (⟨false, ·⟩)

/-- `fold` takes the letters of one kind to one of them. -/
def Literal.found (fold : Char → Char) (e : Literal) (line : List Char) : Prop :=
  if e.anyCase then e.text.map fold <:+: line.map fold else e.text <:+: line

/-- What the filters of lines let through, as far as their expressions are literals. -/
def Stage.keeps (fold : Char → Char) (line : List Char) : Stage → Prop
  | .line negated true s => ∃ e, expression? s = some e ∧ (negated = true ↔ ¬ e.found fold line)
  | .line negated false s => (negated = true ↔ ¬ s <:+: line)
  | .labels _ => True

def Query.keeps (fold : Char → Char) (line : List Char) (q : Query) : Prop := ∀ s ∈ q.stages, s.keeps fold line

/-! Escaping. -/

def escapeChar (c : Char) : List Char := if c ∈ OPERATORS then ['\\', c] else [c]

def escape (s : List Char) : List Char := s.flatMap escapeChar

theorem escapable_operator {c : Char} (h : c ∈ OPERATORS) : escapable c = true := by
  have hall : OPERATORS.all escapable = true := by decide
  exact List.all_eq_true.mp hall c h

theorem literal?_escape (s : List Char) : literal? (escape s) = some s := by
  induction s with
  | nil => rfl
  | cons c s ih =>
    rw [escape, List.flatMap_cons, ← escape, escapeChar]
    by_cases h : c ∈ OPERATORS
    · rw [if_pos h, List.cons_append, List.cons_append, List.nil_append, literal?, if_pos (escapable_operator h), ih]
      rfl
    · have hne : c ≠ '\\' := fun he => h (he ▸ by decide)
      rw [if_neg h, List.cons_append, List.nil_append, literal?, if_neg h, ih]
      · rfl
      · exact fun _ _ he _ => hne he

theorem expression?_escape (s : List Char) : expression? ("(?i)".toList ++ escape s) = some ⟨true, s⟩ := by
  show (literal? (escape s)).map _ = _
  rw [literal?_escape]
  rfl

/-- Escaping brings in nothing but backslashes. -/
theorem mem_escape {s : List Char} {c : Char} (h : c ∈ escape s) : c ∈ s ∨ c = '\\' := by
  obtain ⟨d, hd, hc⟩ := List.mem_flatMap.mp h
  rw [escapeChar] at hc
  split_ifs at hc
  · rcases List.mem_cons.mp hc with rfl | hc
    · exact Or.inr rfl
    · exact Or.inl (List.mem_singleton.mp hc ▸ hd)
  · exact Or.inl (List.mem_singleton.mp hc ▸ hd)

/-! Strings. -/

theorem feedAll_append (l : Lexer) (a b : List Char) : feedAll l (a ++ b) = (feedAll l a).bind fun l' => feedAll l' b :=
  List.foldlM_append

theorem feedAll_cons (l : Lexer) (c : Char) (s : List Char) :
    feedAll l (c :: s) = (feed l c).bind fun l' => feedAll l' s :=
  List.foldlM_cons

theorem feedAll_raw {s : List Char} (h : '\x60' ∉ s) (acc : List Char) (out : List Token) :
    feedAll ⟨.raw acc, out⟩ (s ++ ['\x60']) = some ⟨.start, .str (acc.reverse ++ s) :: out⟩ := by
  induction s generalizing acc with
  | nil => simp [feedAll, feed]
  | cons c s ih =>
    obtain ⟨hc, hs⟩ := not_or.mp (fun hor => h (List.mem_cons.mpr hor))
    rw [List.cons_append, feedAll_cons, feed]
    simp only [if_neg (Ne.symm hc), Option.bind_some]
    rw [ih hs, List.reverse_cons, List.append_assoc, List.singleton_append]

theorem feedAll_quoted {s : List Char} (h : ∀ c ∈ s, c ≠ '"' ∧ c ≠ '\\') (acc : List Char) (out : List Token) :
    feedAll ⟨.quoted acc, out⟩ (s ++ ['"']) = some ⟨.start, .str (acc.reverse ++ s) :: out⟩ := by
  induction s generalizing acc with
  | nil => simp [feedAll, feed]
  | cons c s ih =>
    obtain ⟨hq, hb⟩ := h c List.mem_cons_self
    rw [List.cons_append, feedAll_cons, feed]
    simp only [if_neg hq, if_neg hb, Option.bind_some]
    rw [ih fun d hd => h d (List.mem_cons_of_mem _ hd), List.reverse_cons, List.append_assoc, List.singleton_append]

end LogQL

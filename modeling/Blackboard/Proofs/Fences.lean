import Mathlib.Algebra.GroupWithZero.Nat
import Blackboard.Proofs.Redaction
import Blackboard.Proofs.Tokens

/-! Code fences through chunking. A fence is a line that starts with three back quotes, as `_blocks` has
it; a text has them balanced if there is an even number. Blocks and redaction keep them, the headings and
the words that are carried over may not. -/

namespace Blackboard.Kb

open Lines Strings

def fences (text : List Char) : ℕ := ((splitlines text).filter isFence).length

def Balanced (text : List Char) : Prop := fences text % 2 = 0

instance (text : List Char) : Decidable (Balanced text) := inferInstanceAs (Decidable (_ = _))

/-- The words that `_tail` takes from. -/
def plainWords (text : List Char) : List (List Char) :=
  words (joinLines ((splitlines text).filter fun line => !isFence line))

/-- None of these words would make a fence at the start of a piece. -/
def Tame (text : List Char) : Prop := ∀ w ∈ plainWords text, isFence w = false

instance (text : List Char) : Decidable (Tame text) := inferInstanceAs (Decidable (∀ w ∈ plainWords text, _))

/-- No heading is inside a fence, and no block but a section's last has such a word. -/
def Whole (body : List Char) : Prop :=
  (∀ m ∈ Regex.finditer HEADING body, Balanced (body.take m.start)) ∧
    ∀ s ∈ sections body, ∀ b ∈ (blocks s.2).dropLast, Tame b

instance (body : List Char) : Decidable (Whole body) := instDecidableAnd

/-! Fences by characters. The state is the number of back quotes that the line starts with, or none in
the rest of it. -/

/-- The next state, and the fences that the character completes. -/
def fenceStep (o : Option ℕ) (c : Char) : Option ℕ × ℕ :=
  if isBreak c then (some 0, 0)
  else match o with
    | none => (none, 0)
    | some k => if c ≠ '\x60' then (none, 0) else if k = 2 then (none, 1) else (some (k + 1), 0)

def fencesFrom : Option ℕ → List Char → ℕ
  | _, [] => 0
  | o, c :: r => (fenceStep o c).2 + fencesFrom (fenceStep o c).1 r

theorem fenceStep_break {c : Char} (hc : isBreak c = true) (o : Option ℕ) : fenceStep o c = (some 0, 0) := if_pos hc

theorem fenceStep_inline {c : Char} (hc : isBreak c = false) (hquote : c ≠ '\x60') (o : Option ℕ) :
    fenceStep o c = (none, 0) := by
  rcases o with _ | k <;> simp [fenceStep, hc, hquote]

theorem fenceStep_rest {c : Char} (hc : isBreak c = false) : fenceStep none c = (none, 0) := by simp [fenceStep, hc]

theorem fencesFrom_break {c : Char} (hc : isBreak c = true) (o : Option ℕ) (r : List Char) :
    fencesFrom o (c :: r) = fencesFrom (some 0) r := by
  rw [fencesFrom, fenceStep_break hc, Nat.zero_add]

theorem fencesFrom_append {c : Char} (hc : isBreak c = true) (y : List Char) (x : List Char) :
    ∀ o, fencesFrom o (x ++ c :: y) = fencesFrom o x + fencesFrom (some 0) y := by
  induction x with
  | nil =>
    intro o
    rw [List.nil_append, fencesFrom_break hc]
    exact (Nat.zero_add _).symm
  | cons d x ih =>
    intro o
    rw [List.cons_append, fencesFrom, fencesFrom, ih, Nat.add_assoc]

theorem fencesFrom_blank {y : List Char} (hy : ∀ c ∈ y, isSpace c = true) : ∀ o, fencesFrom o y = 0 := by
  induction y with
  | nil => exact fun _ => rfl
  | cons c y ih =>
    intro o
    have hquote : c ≠ '\x60' := by
      rintro rfl
      exact absurd (hy _ List.mem_cons_self) (by decide)
    rw [fencesFrom, ih fun d hd => hy d (List.mem_cons_of_mem c hd)]
    rcases hc : isBreak c with _ | _
    · rw [fenceStep_inline hc hquote]
    · rw [fenceStep_break hc]

theorem fencesFrom_append_blank {y : List Char} (hy : ∀ c ∈ y, isSpace c = true) (x : List Char) :
    ∀ o, fencesFrom o (x ++ y) = fencesFrom o x := by
  induction x with
  | nil => exact fun o => fencesFrom_blank hy o
  | cons c x ih =>
    intro o
    rw [List.cons_append, fencesFrom, fencesFrom, ih]

/-- Text without back quotes and breaks goes past the line's start. -/
theorem fencesFrom_inline {x : List Char} (hne : x ≠ []) (hx : ∀ c ∈ x, isBreak c = false ∧ c ≠ '\x60')
    (r : List Char) :
    ∀ o, fencesFrom o (x ++ r) = fencesFrom none r := by
  induction x with
  | nil => exact absurd rfl hne
  | cons c x ih =>
    intro o
    obtain ⟨hc, hquote⟩ := hx c List.mem_cons_self
    rw [List.cons_append, fencesFrom, fenceStep_inline hc hquote, Nat.zero_add]
    rcases x with _ | ⟨d, x⟩
    · rfl
    · exact ih (List.cons_ne_nil d x) (fun e he => hx e (List.mem_cons_of_mem c he)) none

theorem fencesFrom_rest {l : List Char} (hl : ∀ c ∈ l, isBreak c = false) : fencesFrom none l = 0 := by
  induction l with
  | nil => rfl
  | cons c l ih =>
    rw [fencesFrom, fenceStep_rest (hl c List.mem_cons_self), ih fun d hd => hl d (List.mem_cons_of_mem c hd)]

theorem fencesFrom_line {l : List Char} (hl : ∀ c ∈ l, isBreak c = false) :
    fencesFrom (some 0) l = if isFence l then 1 else 0 := by
  have hfrom : ∀ (k : ℕ) (l : List Char), k ≤ 2 → (∀ c ∈ l, isBreak c = false) →
      fencesFrom (some k) l = if (List.replicate (3 - k) '\x60').isPrefixOf l then 1 else 0 := by
    intro k l hk hl
    induction l generalizing k with
    | nil =>
      obtain ⟨n, hn⟩ : ∃ n, 3 - k = n + 1 := ⟨2 - k, by omega⟩
      rw [hn, List.replicate_succ]
      rfl
    | cons c l ih =>
      have hc := hl c List.mem_cons_self
      have hrest : ∀ d ∈ l, isBreak d = false := fun d hd => hl d (List.mem_cons_of_mem c hd)
      obtain ⟨n, hn⟩ : ∃ n, 3 - k = n + 1 := ⟨2 - k, by omega⟩
      rw [hn, List.replicate_succ, List.isPrefixOf_cons_cons, fencesFrom]
      by_cases hquote : c = '\x60'
      · subst hquote
        by_cases hlast : k = 2
        · obtain rfl : n = 0 := by omega
          subst hlast
          rw [show fenceStep (some 2) '\x60' = (none, 1) from by decide, fencesFrom_rest hrest]
          rfl
        · have hstep : fenceStep (some k) '\x60' = (some (k + 1), 0) := by simp [fenceStep, hc, hlast]
          rw [hstep, ih (k + 1) (by omega) hrest, show 3 - (k + 1) = n by omega]
          simp
      · rw [fenceStep_inline hc hquote, fencesFrom_rest hrest]
        simp [Ne.symm hquote]
  exact hfrom 0 l (by omega) hl

theorem fences_eq (text : List Char) : fences text = fencesFrom (some 0) text := by
  refine splitlines_induct (P := fun text ls => (ls.filter isFence).length = fencesFrom (some 0) text) rfl ?_ ?_ text
  · intro l _ hl
    rw [fencesFrom_line hl, List.filter_singleton]
    rcases isFence l with _ | _ <;> rfl
  · intro l e r hl hne he ih
    obtain ⟨c, e, rfl⟩ := List.exists_cons_of_ne_nil hne
    have hends : ∀ e : List Char, (∀ d ∈ e, isBreak d = true) → ∀ o, o = some 0 ∨ e ≠ [] →
        fencesFrom o (e ++ r) = fencesFrom (some 0) r := by
      intro e he
      induction e with
      | nil =>
        intro o ho
        rw [ho.resolve_right (by simp)]
        rfl
      | cons d e ih =>
        intro o _
        rw [List.cons_append, fencesFrom_break (he d List.mem_cons_self)]
        exact ih (fun x hx => he x (List.mem_cons_of_mem d hx)) _ (.inl rfl)
    have hrest := hends e (fun d hd => he d (List.mem_cons_of_mem c hd)) (some 0) (.inl rfl)
    rw [List.append_assoc, List.cons_append, fencesFrom_append (he c List.mem_cons_self), fencesFrom_line hl,
      hrest, ← ih, List.filter_cons]
    split_ifs
    · rw [List.length_cons, Nat.add_comm]
    · exact (Nat.zero_add _).symm

theorem fences_append_break {c : Char} (hc : isBreak c = true) (x y : List Char) :
    fences (x ++ c :: y) = fences x + fences y := by
  rw [fences_eq, fences_eq, fences_eq, fencesFrom_append hc]

theorem fences_append_atLine {x : List Char} (hx : AtLine x) (y : List Char) :
    fences (x ++ y) = fences x + fences y := by
  rcases hx with rfl | hx
  · exact (Nat.zero_add _).symm
  · obtain ⟨x, rfl⟩ := List.getLast?_eq_some_iff.mp hx
    rw [List.append_assoc, List.singleton_append, fences_append_break (by decide), fences_append_break (by decide)]
    rfl

theorem fences_paragraphs (x y : List Char) : fences (x ++ "\n\n".toList ++ y) = fences x + fences y := by
  have htail : fences ('\n' :: y) = fences y := by
    rw [fences_eq, fences_eq, fencesFrom_break (by decide)]
  rw [List.append_assoc, show "\n\n".toList ++ y = '\n' :: '\n' :: y from rfl, fences_append_break (by decide), htail]

/-- A text that starts with something visible keeps its fences. -/
theorem fences_strip {text : List Char} (hhead : ∀ c ∈ text.head?, isSpace c = false) :
    fences (strip isSpace text) = fences text := by
  have hdrop : text.dropWhile isSpace = text := by
    rcases text with _ | ⟨c, text⟩
    · rfl
    · rw [List.dropWhile_cons, if_neg (by simp [hhead c rfl])]
  have htext := dropWhile_eq_strip isSpace text
  rw [hdrop] at htext
  conv_rhs => rw [htext]
  rw [fences_eq, fences_eq, fencesFrom_append_blank fun c hc => List.mem_takeWhile_imp (List.mem_reverse.mp hc)]

theorem not_break_of_secretChar {c : Char} (hc : secretChar c) : isBreak c = false ∧ c ≠ '\x60' := by
  rcases hc with hc | rfl
  · rcases Bool.or_eq_true _ _ ▸ hc with hc | hc
    · refine ⟨?_, ?_⟩
      · rcases hb : isBreak c with _ | _
        · rfl
        · exact absurd (isSpace_of_isBreak hb) (by simp [not_isSpace_of_wordChar hc])
      · rintro rfl
        exact absurd hc (by decide)
    · obtain rfl := of_decide_eq_true hc
      decide
  · decide

theorem fences_redact (text : List Char) : fences (redact text) = fences text := by
  have hcuts : ∀ {b rest : List Char} {xs : List (Char ⊕ Regex.Match)}, Regex.Cuts SECRET b rest xs →
      ∀ o, fencesFrom o (xs.flatMap (Regex.textOf "[REDACTED]".toList)) = fencesFrom o rest := by
    intro b rest xs h
    induction h with
    | nil => exact fun _ => rfl
    | @skip b c cs xs h hxs ih =>
      intro o
      have hrest := ih (fenceStep o c).1
      rw [List.flatMap_cons, Regex.textOf, List.singleton_append, fencesFrom, fencesFrom, hrest]
    | @take b a xs m hne h hstart hxs ih =>
      intro o
      have hinline : ∀ c ∈ "[REDACTED]".toList, isBreak c = false ∧ c ≠ '\x60' := by
        have hall : ("[REDACTED]".toList.all fun c => !isBreak c && c ≠ '\x60') = true := by decide +kernel
        simpa only [List.all_eq_true, Bool.and_eq_true, Bool.not_eq_true', decide_eq_true_eq] using hall
      rw [List.flatMap_cons, Regex.textOf, fencesFrom_inline (by decide) hinline,
        fencesFrom_inline hne fun c hc => not_break_of_secretChar (h.over over_secret c hc)]
      exact ih none
  rw [fences_eq, fences_eq, redact, Regex.sub_eq]
  exact hcuts (Regex.text_cuts consumes_secret text) _

/-! Sections. -/

theorem sections_balanced_aux (parts : List (Regex.Match × List Char)) : ∀ before,
    (∀ pre s post, parts = pre ++ s :: post → AtLine (before ++ (pre.map Prod.snd).flatten)) →
    Balanced (before ++ (parts.map Prod.snd).flatten) →
    ((∀ pre s post, parts = pre ++ s :: post → Balanced (before ++ (pre.map Prod.snd).flatten)) ↔
      Balanced before ∧ ∀ s ∈ parts, Balanced s.2) := by
  induction parts with
  | nil =>
    intro before _ hall
    rw [List.map_nil, List.flatten_nil, List.append_nil] at hall
    exact ⟨fun _ => ⟨hall, by simp⟩, fun _ pre s post he => by simp at he⟩
  | cons s parts ih =>
    intro before hline hall
    have hbefore : AtLine before := by simpa using hline [] s parts rfl
    have hrest := ih (before ++ s.2) (fun pre t post he => by simpa using hline (s :: pre) t post (by rw [he]; rfl))
      (by simpa using hall)
    have hsum : fences (before ++ s.2) = fences before + fences s.2 := fences_append_atLine hbefore s.2
    rw [List.forall_mem_cons]
    constructor
    · intro h
      have hfirst : Balanced before := by simpa using h [] s parts rfl
      obtain ⟨hnext, hparts⟩ := hrest.mp fun pre t post he => by simpa using h (s :: pre) t post (by rw [he]; rfl)
      unfold Balanced at hfirst hnext ⊢
      exact ⟨hfirst, by omega, hparts⟩
    · rintro ⟨hfirst, hs, hparts⟩ pre t post he
      rcases pre with _ | ⟨q, pre⟩
      · simpa using hfirst
      · obtain ⟨rfl, hpost⟩ := List.cons.inj he
        have hnext : Balanced (before ++ s.2) := by
          unfold Balanced at hfirst hs ⊢
          omega
        simpa using hrest.mpr ⟨hnext, hparts⟩ pre t post hpost

/-- The sections of a balanced body are balanced if and only if no heading is inside a fence. -/
theorem sections_balanced {body : List Char} (hbody : strip isSpace body = body) (hbal : Balanced body) :
    (∀ m ∈ Regex.finditer HEADING body, Balanced (body.take m.start)) ↔ ∀ s ∈ sections body, Balanced s.2 := by
  obtain ⟨intro, parts, h⟩ := exists_sectioned body
  have hvisible : ∀ c ∈ body.head?, isSpace c = false := by
    rw [← hbody]
    exact head_strip isSpace body
  have htake : ∀ pre s post, parts = pre ++ s :: post → body.take s.1.start = intro ++ (pre.map Prod.snd).flatten := by
    intro pre s post he
    rw [(h.starts pre s post he).2.1, h.text, he, List.map_append, List.flatten_append, ← List.append_assoc,
      List.take_left]
  have hmarks : (∀ m ∈ Regex.finditer HEADING body, Balanced (body.take m.start)) ↔
      ∀ pre s post, parts = pre ++ s :: post → Balanced (intro ++ (pre.map Prod.snd).flatten) := by
    rw [h.marks, List.forall_mem_map]
    constructor
    · intro hall pre s post he
      rw [← htake pre s post he]
      exact hall s (by rw [he]; simp)
    · intro hall s hs
      obtain ⟨pre, post, he⟩ := List.append_of_mem hs
      rw [htake pre s post he]
      exact hall pre s post he
  have hintro : fences (strip isSpace intro) = fences intro := by
    refine fences_strip fun c hc => hvisible c ?_
    rw [h.text, List.head?_append, show intro.head? = some c from hc]
    rfl
  have hparts : (∀ s ∈ parts, Balanced (strip isSpace s.2)) ↔ ∀ s ∈ parts, Balanced s.2 := by
    refine forall₂_congr fun s hs => ?_
    obtain ⟨pre, post, he⟩ := List.append_of_mem hs
    have hhead := (h.starts pre s post he).2.2
    have hstrip : fences (strip isSpace s.2) = fences s.2 := fences_strip fun c hc => by
      obtain rfl := Option.some.inj (hhead.symm.trans hc)
      decide
    rw [Balanced, Balanced, hstrip]
  have haux := sections_balanced_aux parts intro (fun pre s post he => (h.starts pre s post he).1) (h.text ▸ hbal)
  rw [hmarks, haux, h.sections_eq, List.forall_mem_append, List.forall_mem_map, hparts]
  refine and_congr_left fun _ => ?_
  split_ifs with hne
  · rw [List.forall_mem_singleton, Balanced, Balanced, hintro]
  · rw [not_not.mp hne] at hintro
    rw [Balanced, ← hintro]
    exact iff_of_true rfl (by simp)

/-! Blocks. -/

/-- A text that is these lines joined. -/
structure Lined (text : List Char) (ls : List (List Char)) : Prop where
  text : text = joinLines ls
  nonempty : ls ≠ []
  unbroken : ∀ l ∈ ls, ∀ c ∈ l, isBreak c = false

theorem joinLines_cons {l : List Char} {ls : List (List Char)} (hls : ls ≠ []) :
    joinLines (l :: ls) = l ++ '\n' :: joinLines ls := by
  rw [joinLines, List.intercalate_cons_of_ne_nil hls, List.append_assoc]
  rfl

theorem splitlines_joinLines {ls : List (List Char)} (h : ∀ l ∈ ls, ∀ c ∈ l, isBreak c = false) :
    splitlines (joinLines ls) = ls ∨ splitlines (joinLines ls) ++ [[]] = ls := by
  induction ls with
  | nil => exact .inl rfl
  | cons l ls ih =>
    by_cases hls : ls = []
    · subst hls
      rw [joinLines, List.intercalate_singleton]
      by_cases hl : l = []
      · subst hl
        exact .inr rfl
      · exact .inl (splitlines_unbroken hl (h l List.mem_cons_self))
    · have hsplit : splitlines (joinLines (l :: ls)) = l :: splitlines (joinLines ls) := by
        rw [joinLines_cons hls]
        exact splitlines_line (h l List.mem_cons_self) (splitlines_break (by decide) (by decide) _)
      rw [hsplit, List.cons_append]
      exact (ih fun k hk => h k (List.mem_cons_of_mem l hk)).imp (congrArg (l :: ·)) (congrArg (l :: ·))

theorem Lined.fences_eq {text : List Char} {ls : List (List Char)} (h : Lined text ls) :
    fences text = (ls.filter isFence).length := by
  rw [h.text, fences]
  rcases splitlines_joinLines h.unbroken with hs | hs
  · rw [hs]
  · conv_rhs => rw [← hs, List.filter_append]
    exact (congrArg List.length (List.append_nil _)).symm

theorem Lined.plainWords_eq {text : List Char} {ls : List (List Char)} (h : Lined text ls) :
    plainWords text = (ls.filter fun line => !isFence line).flatMap words := by
  rw [h.text, plainWords, words_joinLines]
  rcases splitlines_joinLines h.unbroken with hs | hs
  · rw [hs]
  · conv_rhs => rw [← hs, List.filter_append, List.flatMap_append]
    have hnil : ([[]].filter fun line => !isFence line).flatMap words = [] := by
      rw [show ([[]].filter fun line => !isFence line) = [[]] from rfl, List.flatMap_singleton, words_nil]
    rw [hnil, List.append_nil]

theorem Lined.paragraphs {x y : List Char} {ls ms : List (List Char)} (hx : Lined x ls) (hy : Lined y ms) :
    Lined (x ++ "\n\n".toList ++ y) (ls ++ [] :: ms) where
  text := by
    rw [hx.text, hy.text]
    have hne := hx.nonempty
    clear hx
    induction ls with
    | nil => exact absurd rfl hne
    | cons l ls ih =>
      by_cases hls : ls = []
      · subst hls
        have hgap : joinLines (l :: [] :: ms) = l ++ '\n' :: joinLines ([] :: ms) :=
          joinLines_cons (List.cons_ne_nil [] ms)
        rw [List.singleton_append, hgap, joinLines_cons hy.nonempty, joinLines, List.intercalate_singleton,
          List.append_assoc]
        rfl
      · rw [List.cons_append, joinLines_cons hls, joinLines_cons (by simp), ← ih hls]
        simp only [List.append_assoc, List.cons_append]
  nonempty := by simp
  unbroken := by
    intro l hl
    rcases List.mem_append.mp hl with hl | hl
    · exact hx.unbroken l hl
    · rcases List.mem_cons.mp hl with rfl | hl
      · simp
      · exact hy.unbroken l hl

theorem unbroken_splitlines (text : List Char) : ∀ l ∈ splitlines text, ∀ c ∈ l, isBreak c = false := by
  refine splitlines_induct (P := fun _ ls => ∀ l ∈ ls, ∀ c ∈ l, isBreak c = false) (by simp) ?_ ?_ text
  · intro l _ hl
    simpa using hl
  · intro l e r hl _ _ ih
    rw [List.forall_mem_cons]
    exact ⟨hl, ih⟩

theorem quote_of_isFence {line : List Char} (h : isFence line = true) : ∃ rest, line = '\x60' :: rest := by
  rcases line with _ | ⟨c, rest⟩
  · cases h
  · have hc : '\x60' = c := by
      have := List.isPrefixOf_iff_prefix.mp h
      exact (List.cons_prefix_cons.mp this).1
    exact ⟨rest, by rw [hc]⟩

/-- Where `_blocks` may cut, the line is no fence. -/
theorem not_isFence_of_cut {line : List Char} (h : isBlank line = true ∨ Regex.isMatch ITEM line = true) :
    isFence line = false := by
  rcases hfence : isFence line with _ | _
  · rfl
  obtain ⟨rest, rfl⟩ := quote_of_isFence hfence
  rcases h with h | h
  · exact absurd (List.all_eq_true.mp h _ List.mem_cons_self) (by decide)
  · have hno : Regex.isMatch ITEM ('\x60' :: rest) = false := rfl
    rw [hno] at h
    cases h

/-- The blocks of lines with an even number of fences: the state of `_blocks` is the parity of its
buffer's. -/
theorem blocksFrom_balanced (lines : List (List Char)) : ∀ fence buf,
    (∀ l ∈ buf ++ lines, ∀ c ∈ l, isBreak c = false) →
    (fence = true ↔ (buf.filter isFence).length % 2 = 1) → ((buf ++ lines).filter isFence).length % 2 = 0 →
    ∀ b ∈ blocksFrom fence buf lines, (∃ ls, Lined b ls) ∧ Balanced b := by
  induction lines with
  | nil =>
    intro fence buf hunbroken _ htotal b hb
    rw [blocksFrom] at hb
    split_ifs at hb with hbuf
    · rw [List.mem_singleton] at hb
      have hlined : Lined b buf := ⟨hb, hbuf, by simpa using hunbroken⟩
      refine ⟨⟨buf, hlined⟩, ?_⟩
      rw [Balanced, hlined.fences_eq]
      simpa using htotal
    · cases hb
  | cons line lines ih =>
    intro fence buf hunbroken hparity htotal b hb
    have hsplit : ((buf ++ line :: lines).filter isFence).length =
        (buf.filter isFence).length + ([line].filter isFence).length + (lines.filter isFence).length := by
      rw [← List.singleton_append, List.filter_append, List.filter_append, List.length_append, List.length_append]
      omega
    have hbuf : ∀ l ∈ buf, ∀ c ∈ l, isBreak c = false := fun l hl => hunbroken l (List.mem_append_left _ hl)
    have hrest : ∀ {next : List (List Char)}, (∀ l ∈ next, l ∈ buf ∨ l = line) →
        ∀ l ∈ next ++ lines, ∀ c ∈ l, isBreak c = false := by
      intro next hnext l hl
      refine hunbroken l ?_
      rcases List.mem_append.mp hl with hl | hl
      · rcases hnext l hl with hl | rfl <;> simp [hl]
      · simp [hl]
    rw [hsplit] at htotal
    simp only [blocksFrom] at hb
    rcases hfence : isFence line with _ | _
    · have hnone : ([line].filter isFence) = [] := by rw [List.filter_singleton, hfence]; rfl
      rw [hnone] at htotal
      simp only [hfence, Bool.false_eq_true, if_false] at hb
      rcases hcut : (!fence && (isBlank line || !fence && Regex.isMatch ITEM line) && decide (buf ≠ [])) with _ | _
      · simp only [hcut, Bool.false_eq_true, if_false, List.nil_append] at hb
        -- the line goes into the buffer, or is left out
        split_ifs at hb with hkeep
        · refine ih fence (buf ++ [line]) (hrest (by simp)) ?_ ?_ b hb
          · rwa [List.filter_append, hnone, List.append_nil]
          · rw [List.filter_append, List.filter_append, hnone]
            simpa using htotal
        · refine ih fence buf (hrest fun l hl => .inl hl) hparity ?_ b hb
          rw [List.filter_append, List.length_append]
          simpa using htotal
      · have hopen : fence = false ∧ buf ≠ [] := by
          simp only [Bool.and_eq_true, Bool.not_eq_true', decide_eq_true_eq] at hcut
          exact ⟨hcut.1.1, hcut.2⟩
        obtain ⟨rfl, hne⟩ := hopen
        have heven : (buf.filter isFence).length % 2 = 0 := by
          have : ¬ (buf.filter isFence).length % 2 = 1 := fun h => Bool.false_ne_true (hparity.mpr h)
          omega
        rw [if_pos hcut, if_pos hcut, List.singleton_append, List.mem_cons] at hb
        rcases hb with rfl | hb
        · have hlined : Lined (joinLines buf) buf := ⟨rfl, hne, hbuf⟩
          exact ⟨⟨buf, hlined⟩, by rw [Balanced, hlined.fences_eq]; exact heven⟩
        · split_ifs at hb with hkeep
          · refine ih false [line] (hrest (by simp)) (by rw [hnone]; simp) ?_ b hb
            rw [List.filter_append, hnone, List.nil_append]
            simp only [List.length_nil] at htotal
            omega
          · refine ih false [] (hrest (by simp)) (by simp) ?_ b hb
            simp only [List.length_nil] at htotal
            rw [List.nil_append]
            omega
    · have hone : ([line].filter isFence) = [line] := by rw [List.filter_singleton, hfence]; rfl
      have hvisible : isBlank line = false := by
        rcases hblank : isBlank line with _ | _
        · rfl
        · exact absurd (not_isFence_of_cut (.inl hblank)) (by simp [hfence])
      have hitem : Regex.isMatch ITEM line = false := by
        rcases hitem : Regex.isMatch ITEM line with _ | _
        · rfl
        · exact absurd (not_isFence_of_cut (.inr hitem)) (by simp [hfence])
      simp only [hfence, hvisible, hitem, if_true, Bool.and_false, Bool.or_false, Bool.false_and,
        Bool.false_eq_true, if_false, Bool.not_false, Bool.true_or, List.nil_append] at hb
      refine ih (!fence) (buf ++ [line]) (hrest (by simp)) ?_ ?_ b hb
      · rw [List.filter_append, hone, List.length_append, List.length_singleton]
        rcases fence with _ | _
        · have heven : ¬ (buf.filter isFence).length % 2 = 1 := fun h => Bool.false_ne_true (hparity.mpr h)
          exact iff_of_true rfl (by omega)
        · have hodd := hparity.mp rfl
          exact iff_of_false (by simp) (by omega)
      · rw [List.filter_append, List.filter_append, List.length_append, List.length_append]
        exact htotal

theorem blocks_balanced {text : List Char} (h : Balanced text) : ∀ b ∈ blocks text, (∃ ls, Lined b ls) ∧ Balanced b :=
  blocksFrom_balanced (splitlines text) false [] (unbroken_splitlines text) (by simp) h

/-! What a piece carries over. -/

/-- A text that `str.split` gives. -/
structure Word (w : List Char) : Prop where
  nonempty : w ≠ []
  solid : ∀ c ∈ w, isSpace c = false

theorem word_of_mem_words {text w : List Char} (h : w ∈ words text) : Word w := by
  obtain ⟨hsplit, hne⟩ := List.mem_filter.mp h
  refine ⟨of_decide_eq_true hne, ?_⟩
  clear h hne
  induction text generalizing w with
  | nil =>
    rw [List.splitOnP_nil, List.mem_singleton] at hsplit
    simp [hsplit]
  | cons c text ih =>
    rw [List.splitOnP_cons_eq_if_modifyHead] at hsplit
    obtain ⟨v, vs, hv⟩ := List.exists_cons_of_ne_nil (List.splitOnP_ne_nil isSpace text)
    rw [hv] at hsplit ih
    split_ifs at hsplit with hc
    · rcases List.mem_cons.mp hsplit with rfl | hin
      · simp
      · exact ih hin
    · rcases List.mem_cons.mp hsplit with rfl | hin
      · rw [List.forall_mem_cons]
        exact ⟨by simpa using hc, ih List.mem_cons_self⟩
      · exact ih (List.mem_cons_of_mem v hin)

theorem Word.words_eq {w : List Char} (h : Word w) : words w = [w] := by
  rw [words, List.splitOnP_eq_singleton h.solid, List.filter_singleton, decide_eq_true h.nonempty]
  rfl

theorem words_join {ws : List (List Char)} (h : ∀ w ∈ ws, Word w) : words ([' '].intercalate ws) = ws := by
  induction ws with
  | nil => exact words_nil
  | cons w ws ih =>
    have hw := h w List.mem_cons_self
    by_cases hws : ws = []
    · subst hws
      rw [List.intercalate_singleton, hw.words_eq]
    · rw [List.intercalate_cons_of_ne_nil hws, List.append_assoc, List.singleton_append, words_append_space (by decide),
        hw.words_eq, ih fun v hv => h v (List.mem_cons_of_mem w hv)]
      rfl

/-- Joined words start with a fence if and only if the first one does. -/
theorem isFence_join {w : List Char} (hw : Word w) (ws : List (List Char)) :
    isFence ([' '].intercalate (w :: ws)) = isFence w := by
  have hspace : ∀ r : List Char, isFence (w ++ ' ' :: r) = isFence w := by
    intro r
    obtain ⟨hne, -⟩ := hw
    rcases w with _ | ⟨a, _ | ⟨b, _ | ⟨c, w⟩⟩⟩
    · exact absurd rfl hne
    · simp [isFence, List.isPrefixOf]
    · simp [isFence, List.isPrefixOf]
    · simp [isFence, List.isPrefixOf]
  by_cases hws : ws = []
  · rw [hws, List.intercalate_singleton]
  · rw [List.intercalate_cons_of_ne_nil hws, List.append_assoc]
    exact hspace _

theorem word_of_mem_plainWords {text w : List Char} (h : w ∈ plainWords text) : Word w := word_of_mem_words h

theorem tailFrom_eq (n : ℕ) (ws : List (List Char)) : ∀ out,
    ∃ pre suf, ws.reverse = pre ++ suf ∧ tailFrom n out ws = suf ++ out := by
  induction ws with
  | nil => exact fun out => ⟨[], [], rfl, rfl⟩
  | cons w ws ih =>
    intro out
    rw [tailFrom]
    split_ifs
    · exact ⟨ws.reverse, [w], List.reverse_cons, rfl⟩
    · obtain ⟨pre, suf, hws, htail⟩ := ih (w :: out)
      refine ⟨pre, suf ++ [w], by rw [List.reverse_cons, hws, List.append_assoc], ?_⟩
      rw [htail, List.append_assoc]
      rfl

/-- The tail of a text is some of its last words outside fence lines. -/
theorem tail_eq (text : List Char) (n : ℕ) :
    ∃ pre suf, plainWords text = pre ++ suf ∧ tail text n = [' '].intercalate suf := by
  obtain ⟨pre, suf, hws, htail⟩ := tailFrom_eq n (plainWords text).reverse []
  rw [List.reverse_reverse] at hws
  rw [List.append_nil] at htail
  exact ⟨pre, suf, hws, congrArg ([' '].intercalate ·) htail⟩

theorem lined_join {ws : List (List Char)} (h : ∀ w ∈ ws, Word w) :
    Lined ([' '].intercalate ws) [[' '].intercalate ws] where
  text := by rw [joinLines, List.intercalate_singleton]
  nonempty := List.cons_ne_nil _ _
  unbroken := by
    intro l hl c hc
    rw [List.mem_singleton.mp hl] at hc
    have hsolid : isSpace c = false ∨ c = ' ' := by
      clear hl
      induction ws with
      | nil => simp at hc
      | cons w ws ih =>
        have hw := h w List.mem_cons_self
        by_cases hws : ws = []
        · rw [hws, List.intercalate_singleton] at hc
          exact .inl (hw.solid c hc)
        · rw [List.intercalate_cons_of_ne_nil hws] at hc
          simp only [List.mem_append, List.mem_singleton] at hc
          rcases hc with (hc | hc) | hc
          · exact .inl (hw.solid c hc)
          · exact .inr hc
          · exact ih (fun v hv => h v (List.mem_cons_of_mem w hv)) hc
    rcases hsolid with hc | rfl
    · rcases hb : isBreak c with _ | _
      · rfl
      · rw [isSpace_of_isBreak hb] at hc
        cases hc
    · decide

theorem lined_tail (text : List Char) (n : ℕ) : Lined (tail text n) [tail text n] := by
  obtain ⟨pre, suf, hwords, htail⟩ := tail_eq text n
  rw [htail]
  exact lined_join fun w hw => word_of_mem_plainWords (hwords ▸ List.mem_append_right pre hw)

/-- What is left of a tame text starts no fence. -/
theorem Tame.tail {text : List Char} (h : Tame text) (n : ℕ) :
    isFence (tail text n) = false ∧ Tame (Kb.tail text n) := by
  have hlined := lined_tail text n
  obtain ⟨pre, suf, hwords, htail⟩ := tail_eq text n
  have hmem : ∀ w ∈ suf, w ∈ plainWords text := fun w hw => hwords ▸ List.mem_append_right pre hw
  have hfence : isFence (Kb.tail text n) = false := by
    rw [htail]
    rcases suf with _ | ⟨w, ws⟩
    · rfl
    · rw [isFence_join (word_of_mem_plainWords (hmem w List.mem_cons_self))]
      exact h w (hmem w List.mem_cons_self)
  refine ⟨hfence, fun w hw => ?_⟩
  rw [hlined.plainWords_eq, List.filter_singleton, hfence] at hw
  have hwords : words (Kb.tail text n) = suf := by
    rw [htail]
    exact words_join fun v hv => word_of_mem_plainWords (hmem v hv)
  refine h w (hmem w ?_)
  rw [← hwords]
  simpa using hw

theorem balanced_tail (text : List Char) (n : ℕ) : Balanced (tail text n) ↔ isFence (tail text n) = false := by
  rw [Balanced, (lined_tail text n).fences_eq, List.filter_singleton]
  cases isFence (tail text n) <;> simp

/-! Pieces. -/

theorem Lined.tame_paragraphs {x y : List Char} {ls ms : List (List Char)} (hx : Lined x ls) (hy : Lined y ms) :
    plainWords (x ++ "\n\n".toList ++ y) = plainWords x ++ plainWords y := by
  rw [(hx.paragraphs hy).plainWords_eq, hx.plainWords_eq, hy.plainWords_eq, List.filter_append, List.flatMap_append]
  have hgap : (([] :: ms).filter fun line => !isFence line).flatMap words =
      (ms.filter fun line => !isFence line).flatMap words := by
    rw [List.filter_cons_of_pos rfl, List.flatMap_cons, words_nil, List.nil_append]
  rw [hgap]

theorem balanced_nil : Balanced [] := rfl

theorem balanced_paragraphs {y : List Char} (hy : Balanced y) (x : List Char) :
    Balanced (x ++ "\n\n".toList ++ y) ↔ Balanced x := by
  unfold Balanced at hy ⊢
  rw [fences_paragraphs]
  omega

/-- What the pieces of these blocks carry over. -/
def carried (params : ChunkParams) : List Char → List (List Char) → List (List Char)
  | _, [] => []
  | buf, block :: blocks =>
    if buf ≠ [] ∧ params.target < tokens buf + tokens block then
      tail buf params.overlap :: carried params (tail buf params.overlap ++ "\n\n".toList ++ block) blocks
    else carried params (if buf ≠ [] then buf ++ "\n\n".toList ++ block else block) blocks

/-- Pieces of balanced blocks are balanced if and only if none starts with a fence that it carries over. -/
theorem splitFrom_balanced (params : ChunkParams) {bs : List (List Char)} (hbs : ∀ b ∈ bs, Balanced b) : ∀ buf,
    (∀ p ∈ splitFrom params buf bs, Balanced p) ↔
      Balanced buf ∧ ∀ t ∈ carried params buf bs, isFence t = false := by
  induction bs with
  | nil =>
    intro buf
    rw [splitFrom, carried]
    split_ifs with hne
    · simp
    · rw [not_not.mp hne]
      exact iff_of_true (by simp) ⟨balanced_nil, by simp⟩
  | cons b bs ih =>
    intro buf
    have hb := hbs b List.mem_cons_self
    have hrest := ih fun c hc => hbs c (List.mem_cons_of_mem b hc)
    rw [splitFrom, carried]
    split_ifs with hcut hne
    · rw [List.forall_mem_cons, List.forall_mem_cons, hrest, balanced_paragraphs hb, balanced_tail]
    · rw [hrest, balanced_paragraphs hb]
    · rw [hrest, not_not.mp hne]
      exact and_congr_left fun _ => iff_of_true hb rfl

theorem splitFrom_head (params : ChunkParams) {bs : List (List Char)} (hbs : ∀ b ∈ bs, Balanced b) : ∀ {buf},
    Balanced buf → ∀ p ∈ (splitFrom params buf bs).head?, Balanced p := by
  induction bs with
  | nil =>
    intro buf hbuf p hp
    rw [splitFrom] at hp
    split_ifs at hp
    · obtain rfl := Option.some.inj hp
      exact hbuf
    · cases hp
  | cons b bs ih =>
    intro buf hbuf p hp
    have hb := hbs b List.mem_cons_self
    have hrest : ∀ c ∈ bs, Balanced c := fun c hc => hbs c (List.mem_cons_of_mem b hc)
    rw [splitFrom] at hp
    split_ifs at hp
    · obtain rfl := Option.some.inj hp
      exact hbuf
    · exact ih hrest ((balanced_paragraphs hb buf).mpr hbuf) p hp
    · exact ih hrest hb p hp

theorem carried_tame (params : ChunkParams) {bs : List (List Char)} (hbs : ∀ b ∈ bs, ∃ ls, Lined b ls)
    (htame : ∀ b ∈ bs.dropLast, Tame b) : ∀ {buf}, (buf = [] ∨ (∃ ls, Lined buf ls) ∧ (bs ≠ [] → Tame buf)) →
    ∀ t ∈ carried params buf bs, isFence t = false := by
  induction bs with
  | nil =>
    intro buf _ t ht
    cases ht
  | cons b bs ih =>
    intro buf hbuf t ht
    obtain ⟨ms, hms⟩ := hbs b List.mem_cons_self
    have hbtame : bs ≠ [] → Tame b := fun hne => by
      obtain ⟨d, bs, rfl⟩ := List.exists_cons_of_ne_nil hne
      exact htame b List.mem_cons_self
    have hrest := @ih (fun c hc => hbs c (List.mem_cons_of_mem b hc)) fun c hc => by
      rcases bs with _ | ⟨d, bs⟩
      · cases hc
      · exact htame c (List.mem_cons_of_mem b hc)
    -- a block after a tame text
    have hjoin : ∀ {x : List Char} {ls : List (List Char)}, Lined x ls → Tame x →
        (∃ ls, Lined (x ++ "\n\n".toList ++ b) ls) ∧ (bs ≠ [] → Tame (x ++ "\n\n".toList ++ b)) := by
      intro x ls hx hxtame
      refine ⟨⟨_, hx.paragraphs hms⟩, fun hne w hw => ?_⟩
      rw [hx.tame_paragraphs hms] at hw
      exact (List.mem_append.mp hw).elim (hxtame w) (hbtame hne w)
    rw [carried] at ht
    split_ifs at ht with hcut hne
    · obtain ⟨-, hbuftame⟩ := hbuf.resolve_left hcut.1
      obtain ⟨hfence, htailtame⟩ := (hbuftame (List.cons_ne_nil b bs)).tail params.overlap
      rcases List.mem_cons.mp ht with rfl | ht
      · exact hfence
      · exact hrest (.inr (hjoin (lined_tail buf params.overlap) htailtame)) t ht
    · obtain ⟨⟨ls, hls⟩, hbuftame⟩ := hbuf.resolve_left hne
      exact hrest (.inr (hjoin hls (hbuftame (List.cons_ne_nil b bs)))) t ht
    · exact hrest (.inr ⟨⟨ms, hms⟩, hbtame⟩) t ht

theorem split_balanced {text : List Char} (h : Balanced text) (params : ChunkParams) :
    (∀ p ∈ split text params, Balanced p) ↔
      (params.max < tokens text → ∀ t ∈ carried params [] (blocks text), isFence t = false) := by
  unfold split
  split_ifs with hmax
  · exact iff_of_true (by simpa using h) fun hlt => absurd hmax (Nat.not_le_of_lt hlt)
  · rw [splitFrom_balanced params (fun b hb => (blocks_balanced h b hb).2), and_iff_right balanced_nil]
    exact ⟨fun hc _ => hc, fun hc => hc (Nat.lt_of_not_le hmax)⟩

theorem split_head {text : List Char} (h : Balanced text) (params : ChunkParams) :
    ∀ p ∈ (split text params).head?, Balanced p := by
  intro p hp
  unfold split at hp
  split_ifs at hp
  · obtain rfl := Option.some.inj hp
    exact h
  · exact splitFrom_head params (fun b hb => (blocks_balanced h b hb).2) balanced_nil p hp

/-- A piece that may be merged is balanced, and so what it is merged into is if it was. -/
theorem addPiece_balanced (params : ChunkParams) (merged : List (List (List Char) × List Char))
    {p : List Char × ℕ × List Char} (hp : p.2.1 = 0 → Balanced p.2.2) :
    (∀ q ∈ addPiece params merged p, Balanced q.2) ↔ (∀ q ∈ merged, Balanced q.2) ∧ Balanced p.2.2 := by
  obtain ⟨heading, i, text⟩ := p
  have hnew : (∀ q ∈ merged ++ [([heading], text)], Balanced q.2) ↔ (∀ q ∈ merged, Balanced q.2) ∧ Balanced text := by
    rw [List.forall_mem_append, List.forall_mem_singleton]
  unfold addPiece
  rcases hlast : merged.getLast? with _ | ⟨headings, prev⟩
  · exact hnew
  · obtain ⟨before, rfl⟩ := List.getLast?_eq_some_iff.mp hlast
    by_cases hmerge : i = 0 ∧ tokens text < params.min ∧ tokens prev + tokens text ≤ params.max
    · have htext := hp hmerge.1
      simp only [if_pos hmerge]
      rw [List.dropLast_concat, List.forall_mem_append, List.forall_mem_singleton, List.forall_mem_append,
        List.forall_mem_singleton, balanced_paragraphs htext]
      exact (and_iff_left htext).symm
    · simp only [if_neg hmerge]
      exact hnew

theorem foldl_addPiece_balanced (params : ChunkParams) {ps : List (List Char × ℕ × List Char)}
    (hps : ∀ p ∈ ps, p.2.1 = 0 → Balanced p.2.2) : ∀ merged,
    (∀ q ∈ ps.foldl (addPiece params) merged, Balanced q.2) ↔
      (∀ q ∈ merged, Balanced q.2) ∧ ∀ p ∈ ps, Balanced p.2.2 := by
  induction ps with
  | nil => exact fun merged => (and_iff_left (by simp)).symm
  | cons p ps ih =>
    intro merged
    rw [List.foldl_cons, ih fun q hq => hps q (List.mem_cons_of_mem p hq),
      addPiece_balanced params merged (hps p List.mem_cons_self), List.forall_mem_cons, and_assoc]

theorem content_balanced (text : List Char) : Balanced (String.ofList (redact text)).toList ↔ Balanced text := by
  rw [Balanced, Balanced, String.toList_ofList, fences_redact]

theorem forall_mem_zipIdx {α : Type} {l : List α} {P : α → Prop} : (∀ x ∈ l.zipIdx, P x.1) ↔ ∀ x ∈ l, P x := by
  conv_rhs => rw [← List.zipIdx_map_fst 0 l]
  exact List.forall_mem_map.symm

theorem contents_chunk (doc : Document) (params : ChunkParams) :
    (chunk doc params).map Chunk.content =
      ((pieces doc params).foldl (addPiece params) []).map fun q => String.ofList (redact q.2) := by
  conv_rhs => rw [← List.zipIdx_map_fst 0 (List.foldl _ _ _), List.map_map]
  rw [chunk, List.map_map]
  rfl

/-- Under given parameters the chunks of balanced sections are balanced if and only if no section that is split
carries over a fence. -/
theorem chunk_balanced {doc : Document} (hsections : ∀ s ∈ sections doc.body.toList, Balanced s.2)
    (params : ChunkParams) :
    (∀ c ∈ chunk doc params, Balanced c.content.toList) ↔ ∀ s ∈ sections doc.body.toList,
      params.max < tokens s.2 → ∀ t ∈ carried params [] (blocks s.2), isFence t = false := by
  have hfirst : ∀ p ∈ pieces doc params, p.2.1 = 0 → Balanced p.2.2 := by
    intro p hp hzero
    obtain ⟨s, hs, hin⟩ := List.mem_flatMap.mp hp
    obtain ⟨⟨text, i⟩, hq, rfl⟩ := List.mem_map.mp hin
    obtain rfl : i = 0 := hzero
    have hhead : (split s.2 params)[0]? = some text := List.mem_zipIdx_iff_getElem?.mp hq
    exact split_head (hsections s hs) params text (by rw [List.head?_eq_getElem?, hhead]; rfl)
  have hchunks : (∀ c ∈ chunk doc params, Balanced c.content.toList) ↔
      ∀ q ∈ (pieces doc params).foldl (addPiece params) [], Balanced q.2 := by
    rw [← List.forall_mem_map (f := Chunk.content) (P := fun text => Balanced text.toList), contents_chunk,
      List.forall_mem_map]
    exact forall₂_congr fun q _ => content_balanced q.2
  have hpieces : (∀ p ∈ pieces doc params, Balanced p.2.2) ↔
      ∀ s ∈ sections doc.body.toList, ∀ p ∈ split s.2 params, Balanced p := by
    rw [pieces, List.forall_mem_flatMap]
    refine forall₂_congr fun s _ => ?_
    rw [List.forall_mem_map, ← forall_mem_zipIdx (P := Balanced)]
  rw [hchunks, foldl_addPiece_balanced params hfirst, and_iff_right (by simp), hpieces]
  exact forall₂_congr fun s hs => split_balanced (hsections s hs) params

/-! Parameters under which a fence that may be cut is. -/

theorem foldl_addPiece_min {params : ChunkParams} (hmin : params.min = 0) (ps : List (List Char × ℕ × List Char)) :
    ∀ merged, ps.foldl (addPiece params) merged = merged ++ ps.map fun p => ([p.1], p.2.2) := by
  have hadd : ∀ merged p, addPiece params merged p = merged ++ [([p.1], p.2.2)] := by
    rintro merged ⟨heading, i, text⟩
    have hsmall : ¬ tokens text < params.min := by rw [hmin]; exact Nat.not_lt_zero _
    simp only [addPiece, hsmall, false_and, and_false, if_false]
    rcases merged.getLast? with _ | q <;> rfl
  induction ps with
  | nil => exact fun _ => (List.append_nil _).symm
  | cons p ps ih =>
    intro merged
    rw [List.foldl_cons, hadd, ih, List.append_assoc]
    rfl

/-- Without a minimum every piece is a chunk. -/
theorem chunk_of_piece {doc : Document} {params : ChunkParams} (hmin : params.min = 0) {s : List Char × List Char}
    (hs : s ∈ sections doc.body.toList) {p : List Char} (hp : p ∈ split s.2 params) :
    ∃ c ∈ chunk doc params, c.content = String.ofList (redact p) := by
  rw [← List.zipIdx_map_fst 0 (split s.2 params)] at hp
  obtain ⟨⟨p, i⟩, hi, rfl⟩ := List.mem_map.mp hp
  have hmem : ([s.1], p) ∈ (pieces doc params).foldl (addPiece params) [] := by
    rw [foldl_addPiece_min hmin, List.nil_append]
    exact List.mem_map.mpr ⟨(s.1, i, p), List.mem_flatMap.mpr ⟨s, hs, List.mem_map.mpr ⟨(p, i), hi, rfl⟩⟩, rfl⟩
  have hcontent : String.ofList (redact p) ∈ (chunk doc params).map Chunk.content := by
    rw [contents_chunk]
    exact List.mem_map.mpr ⟨_, hmem, rfl⟩
  exact List.mem_map.mp hcontent

theorem tokens_join (ws : List (List Char)) : tokens ([' '].intercalate ws) = (ws.map tokens).sum := by
  induction ws with
  | nil => rfl
  | cons w ws ih =>
    by_cases hws : ws = []
    · subst hws
      simp
    · rw [List.intercalate_cons_of_ne_nil hws, List.append_assoc, List.singleton_append, tokens_space, ih,
        List.map_cons, List.sum_cons]

theorem Word.tokens_pos {w : List Char} (h : Word w) : 0 < tokens w := by
  obtain ⟨c, hc⟩ := List.exists_mem_of_ne_nil w h.nonempty
  exact Kb.tokens_pos hc (h.solid c hc)

/-- With the size of the words from `w` on, the tail starts at `w`: fewer words are smaller. -/
theorem tailFrom_at {w : List Char} (hw : Word w) {n : ℕ} (us vs : List (List Char)) : ∀ out,
    n = tokens ([' '].intercalate (w :: (vs.reverse ++ out))) →
    tailFrom n out (vs ++ w :: us) = w :: (vs.reverse ++ out) := by
  induction vs with
  | nil =>
    intro out hn
    have hle : n ≤ tokens ([' '].intercalate (w :: out)) := Nat.le_of_eq hn
    rw [List.nil_append, tailFrom, if_pos hle]
    rfl
  | cons x vs ih =>
    intro out hn
    have hmore : ¬ n ≤ tokens ([' '].intercalate (x :: out)) := by
      have hpos := hw.tokens_pos
      rw [hn, tokens_join, tokens_join]
      simp only [List.map_cons, List.map_append, List.map_reverse, List.reverse_cons, List.sum_cons, List.sum_append]
      simp
      omega
    have hout : (x :: vs).reverse ++ out = vs.reverse ++ (x :: out) := by simp
    rw [hout] at hn ⊢
    rw [List.cons_append, tailFrom, if_neg hmore]
    exact ih (x :: out) hn

theorem tail_at {text w : List Char} {us vs : List (List Char)} (h : plainWords text = us ++ w :: vs) :
    tail text (tokens ([' '].intercalate (w :: vs))) = [' '].intercalate (w :: vs) := by
  have hw : Word w := word_of_mem_plainWords (by rw [h]; simp)
  have hat := tailFrom_at hw us.reverse vs.reverse [] (by rw [List.reverse_reverse, List.append_nil])
  rw [List.reverse_reverse, List.append_nil] at hat
  have hrev : (plainWords text).reverse = vs.reverse ++ w :: us.reverse := by rw [h]; simp
  rw [← hrev] at hat
  exact congrArg ([' '].intercalate ·) hat

theorem mem_words_of_plainWords {text w : List Char} (h : w ∈ plainWords text) : w ∈ words text := by
  rw [plainWords, words_joinLines] at h
  obtain ⟨l, hl, hw⟩ := List.mem_flatMap.mp h
  rw [← words_splitlines]
  exact List.mem_flatMap.mpr ⟨l, List.mem_of_mem_filter hl, hw⟩

theorem tokens_pos_of_mem_words {text w : List Char} (h : w ∈ words text) : 0 < tokens text := by
  by_contra hzero
  have hblank : ∀ c ∈ text, isSpace c = true := fun c hc => by
    rcases hs : isSpace c with _ | _
    · exact absurd (tokens_pos hc hs) hzero
    · rfl
  rw [words_blank hblank] at h
  cases h

/-- A block goes to the end of what is packed. -/
theorem carried_step (params : ChunkParams) {buf b : List Char} (hbuf : buf = [] ∨ ∃ ls, Lined buf ls)
    (hb : ∃ ls, Lined b ls) :
    ∃ next out, (∀ rest, carried params buf (b :: rest) = out ++ carried params next rest) ∧
      (∃ ls, Lined next ls) ∧ ∃ us, plainWords next = us ++ plainWords b := by
  obtain ⟨ms, hms⟩ := hb
  by_cases hcut : buf ≠ [] ∧ params.target < tokens buf + tokens b
  · have htail := lined_tail buf params.overlap
    exact ⟨tail buf params.overlap ++ "\n\n".toList ++ b, [tail buf params.overlap],
      fun rest => by rw [carried, if_pos hcut]; rfl, ⟨_, htail.paragraphs hms⟩, _, htail.tame_paragraphs hms⟩
  · by_cases hne : buf ≠ []
    · obtain ⟨ls, hls⟩ := hbuf.resolve_left hne
      exact ⟨buf ++ "\n\n".toList ++ b, [], fun rest => by rw [carried, if_neg hcut, if_pos hne]; rfl,
        ⟨_, hls.paragraphs hms⟩, _, hls.tame_paragraphs hms⟩
    · exact ⟨b, [], fun rest => by rw [carried, if_neg hcut, if_neg hne]; rfl, ⟨ms, hms⟩, [], rfl⟩

/-- With no target each block is a piece, and carries over as much as is asked for. -/
theorem carried_of_block (params : ChunkParams) (htarget : params.target = 0) {b c w : List Char}
    {us vs post : List (List Char)} (hwords : plainWords b = us ++ w :: vs)
    (hoverlap : params.overlap = tokens ([' '].intercalate (w :: vs))) (pre : List (List Char)) : ∀ buf,
    (buf = [] ∨ ∃ ls, Lined buf ls) → (∀ x ∈ pre ++ b :: c :: post, ∃ ls, Lined x ls) →
    [' '].intercalate (w :: vs) ∈ carried params buf (pre ++ b :: c :: post) := by
  induction pre with
  | nil =>
    intro buf hbuf hlined
    obtain ⟨next, out, hstep, -, us', hnext⟩ := carried_step params hbuf (hlined b List.mem_cons_self)
    rw [hwords, ← List.append_assoc] at hnext
    have htail : tail next params.overlap = [' '].intercalate (w :: vs) := hoverlap ▸ tail_at hnext
    have hpos : 0 < tokens next := tokens_pos_of_mem_words (mem_words_of_plainWords (w := w) (by rw [hnext]; simp))
    have hcut : next ≠ [] ∧ params.target < tokens next + tokens c := by
      refine ⟨fun h => ?_, by omega⟩
      rw [h] at hpos
      exact Nat.lt_irrefl _ hpos
    rw [List.nil_append, hstep, carried, if_pos hcut, htail]
    exact List.mem_append_right _ List.mem_cons_self
  | cons x pre ih =>
    intro buf hbuf hlined
    obtain ⟨next, out, hstep, hnext, -⟩ := carried_step params hbuf (hlined x List.mem_cons_self)
    rw [List.cons_append, hstep]
    exact List.mem_append_right _ (ih next (.inr hnext) fun y hy => hlined y (List.mem_cons_of_mem x hy))

theorem exists_next_of_mem_dropLast {α : Type} {l : List α} {x : α} (h : x ∈ l.dropLast) :
    ∃ pre y post, l = pre ++ x :: y :: post := by
  obtain ⟨pre, mid, hmid⟩ := List.append_of_mem h
  have hne : l ≠ [] := fun hl => by
    rw [hl] at h
    cases h
  have hl := List.dropLast_append_getLast hne
  rw [hmid, List.append_assoc] at hl
  rcases mid with _ | ⟨y, mid⟩
  · exact ⟨pre, l.getLast hne, [], hl.symm⟩
  · exact ⟨pre, y, mid ++ [l.getLast hne], hl.symm⟩

/-- A document with balanced fences has them balanced in every chunk, whatever the parameters, if and only
if no heading is inside a fence and no word that is carried over could start one. -/
theorem chunk_balanced_iff {doc : Document} (hbody : strip isSpace doc.body.toList = doc.body.toList)
    (hbal : Balanced doc.body.toList) :
    (∀ params, ∀ c ∈ chunk doc params, Balanced c.content.toList) ↔ Whole doc.body.toList := by
  rw [Whole, sections_balanced hbody hbal]
  constructor
  · intro h
    have hsections : ∀ s ∈ sections doc.body.toList, Balanced s.2 := by
      intro s hs
      -- parameters under which a section is a piece of its own
      let params : ChunkParams := ⟨"", 0, 0, tokens s.2, 0⟩
      have hwhole : s.2 ∈ split s.2 params := by
        rw [split, if_pos (Nat.le_refl _)]
        exact List.mem_cons_self
      have hmin : params.min = 0 := rfl
      obtain ⟨c, hc, hcontent⟩ := chunk_of_piece hmin hs hwhole
      have hbalanced := h params c hc
      rwa [hcontent, content_balanced] at hbalanced
    refine ⟨hsections, fun s hs b hb w hw => ?_⟩
    obtain ⟨us, vs, hwords⟩ := List.append_of_mem hw
    obtain ⟨pre, c, post, hbs⟩ := exists_next_of_mem_dropLast hb
    have hpos : 0 < tokens s.2 := by
      refine tokens_pos_of_mem_words (w := w) ?_
      rw [← words_blocks]
      exact List.mem_flatMap.mpr ⟨b, List.dropLast_subset _ hb, mem_words_of_plainWords hw⟩
    -- with these parameters the piece of the next block starts with `w`
    let params : ChunkParams := ⟨"", 0, 0, 0, tokens ([' '].intercalate (w :: vs))⟩
    have hcarried : [' '].intercalate (w :: vs) ∈ carried params [] (blocks s.2) := by
      rw [hbs]
      exact carried_of_block params rfl hwords rfl pre [] (.inl rfl) fun x hx =>
        (blocks_balanced (hsections s hs) x (hbs ▸ hx)).1
    have hfence := (chunk_balanced hsections params).mp (h params) s hs hpos _ hcarried
    rwa [isFence_join (word_of_mem_plainWords hw)] at hfence
  · rintro ⟨hsections, htame⟩ params
    refine (chunk_balanced hsections params).mpr fun s hs _ => ?_
    exact carried_tame params (fun b hb => (blocks_balanced (hsections s hs) b hb).1) (htame s hs) (.inl rfl)

def restartRunbook (body : String) : Document where
  id := "RB-RESTART"
  kind := "runbook"
  title := "Restart"
  services := ["cart"]
  version := "1"
  body := body

theorem chunk_balanced_restart :
    (∀ params, ∀ c ∈ chunk (restartRunbook "## Restart\nRun:\n\n\x60\x60\x60\nmake up\n\x60\x60\x60") params,
      Balanced c.content.toList) ↔
      Whole (restartRunbook "## Restart\nRun:\n\n\x60\x60\x60\nmake up\n\x60\x60\x60").body.toList :=
  chunk_balanced_iff (by decide +kernel) (by decide +kernel)

/-- A shell comment is taken for a heading. -/
theorem chunk_cuts_comment : ¬ ∀ (doc : Document) (params : ChunkParams),
    strip isSpace doc.body.toList = doc.body.toList →
    Balanced doc.body.toList → ∀ c ∈ chunk doc params, Balanced c.content.toList := by
  intro h
  have hcut := h (restartRunbook "\x60\x60\x60\n## then\nmake up\n\x60\x60\x60") section'
    (by decide +kernel) (by decide +kernel)
  revert hcut
  decide +kernel

end Blackboard.Kb

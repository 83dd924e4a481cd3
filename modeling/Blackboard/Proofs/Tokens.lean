import Blackboard.Lib.Matching
import Blackboard.Spec.Chunking

/-! The size of a text by its characters: a space ends every token, and whatever is visible is part of
one. -/

namespace Blackboard.Kb

open Lines

/-- Words count once, at their first character; what is neither a word nor space counts each time. -/
def tokensFrom : Bool → List Char → ℕ
  | _, [] => 0
  | inWord, c :: r =>
    if wordChar c then (if inWord then 0 else 1) + tokensFrom true r
    else (if isSpace c then 0 else 1) + tokensFrom false r

theorem tokensFrom_space (x y : List Char) : ∀ inWord,
    tokensFrom inWord (x ++ ' ' :: y) = tokensFrom inWord x + tokensFrom false y := by
  induction x with
  | nil =>
    intro inWord
    have hword : ¬ wordChar ' ' = true := by decide
    have hspace : isSpace ' ' = true := by decide
    have hstep : tokensFrom inWord (' ' :: y) = 0 + tokensFrom false y := by
      rw [tokensFrom, if_neg hword, if_pos hspace]
    exact hstep
  | cons c x ih =>
    intro inWord
    rw [List.cons_append, tokensFrom, tokensFrom]
    split_ifs <;> rw [ih, Nat.add_assoc]

theorem tokensFrom_word (r : List Char) : tokensFrom true r = tokensFrom false (r.dropWhile wordChar) := by
  induction r with
  | nil => rfl
  | cons c r ih =>
    rw [List.dropWhile_cons]
    split_ifs with hc
    · rw [tokensFrom, if_pos hc, ih]
      exact Nat.zero_add _
    · rw [tokensFrom, tokensFrom, if_neg hc, if_neg hc]

theorem go_char (p : Char → Bool) (b : List Char) (c : Char) (cs : List Char) (gs : List (ℕ × List Char))
    (k : Regex.Place → Option Regex.Place) :
    (Regex.char p).go ⟨b, c :: cs, gs⟩ k = if p c then k ⟨c :: b, cs, gs⟩ else none := rfl

/-- A greedy run of characters ends where they do. -/
theorem many_char (p : Char → Bool) (n : ℕ) : ∀ (b rest : List Char) (gs : List (ℕ × List Char)), rest.length < n →
    Regex.many (Regex.char p).go true n ⟨b, rest, gs⟩ some =
    some ⟨(rest.takeWhile p).reverse ++ b, rest.dropWhile p, gs⟩ := by
  induction n with
  | zero => exact fun _ _ _ hn => absurd hn (Nat.not_lt_zero _)
  | succ n ih =>
    intro b rest gs hn
    rcases rest with _ | ⟨c, rest⟩
    · rfl
    · have hmore := ih (c :: b) rest gs (by simpa using hn)
      rw [Regex.many, if_pos rfl]
      simp only [go_char]
      rcases hc : p c with _ | _
      · simp [hc]
      · simp [hc, hmore]

theorem go_token (b : List Char) (c : Char) (cs : List Char) :
    TOKEN.go ⟨b, c :: cs, []⟩ some =
      if wordChar c then some ⟨(cs.takeWhile wordChar).reverse ++ c :: b, cs.dropWhile wordChar, []⟩
      else if isSpace c then none else some ⟨c :: b, cs, []⟩ := by
  have hmany := many_char wordChar (cs.length + 1) (c :: b) cs [] (Nat.lt_succ_self _)
  have hgo : TOKEN.go ⟨b, c :: cs, []⟩ some =
      (if wordChar c then Regex.many (Regex.char wordChar).go true (cs.length + 1) ⟨c :: b, cs, []⟩ some
        else none).orElse
        fun _ => if (!isSpace c && !wordChar c) = true then some ⟨c :: b, cs, []⟩ else none := rfl
  rw [hgo, hmany]
  rcases wordChar c with _ | _ <;> rcases isSpace c with _ | _ <;> rfl

theorem scan_token (n : ℕ) : ∀ b rest, rest.length ≤ n →
    ((Regex.scan TOKEN n b rest).filterMap Regex.matchOf).length = tokensFrom false rest := by
  induction n with
  | zero =>
    intro b rest hn
    rw [List.length_eq_zero_iff.mp (Nat.le_zero.mp hn)]
    rfl
  | succ n ih =>
    intro b rest hn
    rcases rest with _ | ⟨c, cs⟩
    · rw [Regex.scan_nil]
      rfl
    have hcs : cs.length ≤ n := Nat.le_of_succ_le_succ hn
    have hgo := go_token b c cs
    rw [tokensFrom]
    rcases hword : wordChar c with _ | _
    · rcases hspace : isSpace c with _ | _
      · rw [if_neg (by simp [hword]), if_neg (by simp [hspace])] at hgo
        rw [Regex.scan_take hgo (Nat.lt_succ_self _)]
        simp [Regex.matchOf, ih _ _ hcs, Nat.add_comm]
      · rw [if_neg (by simp [hword]), if_pos hspace] at hgo
        have hinl : Regex.matchOf (.inl c) = none := rfl
        rw [Regex.scan_skip hgo, List.filterMap_cons_none hinl, ih _ _ hcs]
        simp
    · have hdrop : (cs.dropWhile wordChar).length ≤ cs.length := (List.dropWhile_suffix wordChar).length_le
      rw [if_pos hword] at hgo
      rw [Regex.scan_take hgo (Nat.lt_succ_of_le hdrop)]
      simp [Regex.matchOf, ih _ _ (hdrop.trans hcs), tokensFrom_word, Nat.add_comm]

theorem tokens_eq (text : List Char) : tokens text = tokensFrom false text :=
  scan_token text.length [] text (Nat.le_refl _)

theorem tokens_space (x y : List Char) : tokens (x ++ ' ' :: y) = tokens x + tokens y := by
  rw [tokens_eq, tokens_eq, tokens_eq, tokensFrom_space]

theorem consumes_token : Regex.Consumes TOKEN :=
  Regex.Needs.consumes (p := fun _ => True) ⟨.inl fun _ _ => trivial, fun _ _ => trivial⟩

theorem tokens_pos {text : List Char} {c : Char} (hc : c ∈ text) (hvisible : isSpace c = false) : 0 < tokens text := by
  refine Nat.pos_of_ne_zero fun h => ?_
  obtain ⟨b, a, rfl⟩ := List.append_of_mem hc
  refine (Regex.finditer_eq_nil_iff consumes_token _).mp (List.length_eq_zero_iff.mp h) ⟨b, [c], a, by simp, ?_⟩
  rcases hword : wordChar c with _ | _
  · exact .right (.char (by simp [hvisible, hword]))
  · exact .left (.seq (u := [c]) (v := []) (.char hword) .done)

end Blackboard.Kb

import Blackboard.Lib.JsonLines

/-! JSON in ASCII and without blanks, as `json.dumps` writes it by default when it is given the
separators. Nothing below a blank is in it, so it is one line of text. -/

namespace Json

mutual

def printAscii : Json → List Char
  | null => ['n', 'u', 'l', 'l']
  | bool true => ['t', 'r', 'u', 'e']
  | bool false => ['f', 'a', 'l', 's', 'e']
  | num n => (Numeral.ofInt n).text
  | float x => (Numeral.ofDouble x).text
  | str s => quoteAscii s
  | arr [] => ['[', ']']
  | arr (x :: xs) => '[' :: (printAscii x ++ printItemsAscii xs)
  | obj [] => ['\x7b', '\x7d']
  | obj ((k, v) :: ms) => '\x7b' :: (quoteAscii k ++ ':' :: (printAscii v ++ printMembersAscii ms))

def printItemsAscii : List Json → List Char
  | [] => [']']
  | x :: xs => ',' :: (printAscii x ++ printItemsAscii xs)

def printMembersAscii : List (String × Json) → List Char
  | [] => ['\x7d']
  | (k, v) :: ms => ',' :: (quoteAscii k ++ ':' :: (printAscii v ++ printMembersAscii ms))

end

/-- No character of the text is a control character. -/
def Shown (cs : List Char) : Prop := ∀ c ∈ cs, 32 ≤ c.toNat

theorem Shown.append {as bs : List Char} (ha : Shown as) (hb : Shown bs) : Shown (as ++ bs) := fun c hc =>
  (List.mem_append.mp hc).elim (ha c) (hb c)

theorem Shown.cons {c : Char} {cs : List Char} (hc : 32 ≤ c.toNat) (h : Shown cs) : Shown (c :: cs) :=
  List.forall_mem_cons.mpr ⟨hc, h⟩

theorem shown_of_all {cs : List Char} (h : (cs.all fun c => decide (32 ≤ c.toNat)) = true) : Shown cs := fun c hc =>
  of_decide_eq_true (List.all_eq_true.mp h c hc)

theorem shown_of_printable {cs : List Char} (h : ∀ c ∈ cs, Printable c) : Shown cs := fun c hc => (h c hc).1.le

theorem shown_unit4 {n : ℕ} (h : n < 0x10000) : Shown (unit4 n) := by
  have hdigit : ∀ m, m < 16 → 32 ≤ (Nat.digitChar m).toNat := fun m hm => (printable_digitChar hm).1.le
  refine .cons (by decide) (.cons (by decide) (.cons (hdigit _ ?_) (.cons (hdigit _ ?_) (.cons (hdigit _ ?_)
    (.cons (hdigit _ ?_) fun c hc => nomatch hc))))) <;> omega

theorem shown_escapeAscii (c : Char) : Shown (escapeAscii c) := by
  unfold escapeAscii
  by_cases h : c.toNat < 127
  · rw [if_pos h]
    have hdigit : ∀ m, m < 16 → 32 ≤ (Nat.digitChar m).toNat := fun m hm => (printable_digitChar hm).1.le
    unfold escape
    split
    case h_8 =>
      split_ifs with hc
      · refine .cons (by decide) (.cons (by decide) (.cons (by decide) (.cons (by decide) (.cons (hdigit _ ?_)
          (.cons (hdigit _ ?_) fun c hc => nomatch hc))))) <;> omega
      · exact .cons (by omega) fun c hc => nomatch hc
    all_goals exact .cons (by decide) (.cons (by decide) fun c hc => nomatch hc)
  · rw [if_neg h]
    have hlt : c.toNat < 0x110000 := by
      rcases c.valid with hv | hv
      · exact lt_trans hv (by decide)
      · exact hv.2
    split_ifs with hc
    · exact shown_unit4 hc
    · exact (shown_unit4 (by omega)).append (shown_unit4 (by omega))

theorem shown_quoteAscii (s : String) : Shown (quoteAscii s) := by
  refine .cons (by decide) (.append (fun c hc => ?_) (.cons (by decide) fun c hc => nomatch hc))
  obtain ⟨d, -, hd⟩ := List.mem_flatMap.mp hc
  exact shown_escapeAscii d c hd

mutual

theorem shown_printAscii : ∀ v : Json, Shown (printAscii v)
  | null => by rw [printAscii]; exact shown_of_all (by decide)
  | bool true => by rw [printAscii]; exact shown_of_all (by decide)
  | bool false => by rw [printAscii]; exact shown_of_all (by decide)
  | num n => shown_of_printable (printable_text (Numeral.proper_ofInt n))
  | float x => shown_of_printable (printable_text (Numeral.proper_ofDouble x))
  | str s => shown_quoteAscii s
  | arr [] => by rw [printAscii]; exact shown_of_all (by decide)
  | arr (x :: xs) => by
    rw [printAscii]
    exact .cons (by decide) ((shown_printAscii x).append (shown_printItemsAscii xs))
  | obj [] => by rw [printAscii]; exact shown_of_all (by decide)
  | obj ((k, v) :: ms) => by
    rw [printAscii]
    exact .cons (by decide)
      ((shown_quoteAscii k).append (.cons (by decide) ((shown_printAscii v).append (shown_printMembersAscii ms))))

theorem shown_printItemsAscii : ∀ xs : List Json, Shown (printItemsAscii xs)
  | [] => by rw [printItemsAscii]; exact shown_of_all (by decide)
  | x :: xs => by
    rw [printItemsAscii]
    exact .cons (by decide) ((shown_printAscii x).append (shown_printItemsAscii xs))

theorem shown_printMembersAscii : ∀ ms : List (String × Json), Shown (printMembersAscii ms)
  | [] => by rw [printMembersAscii]; exact shown_of_all (by decide)
  | (k, v) :: ms => by
    rw [printMembersAscii]
    exact .cons (by decide)
      ((shown_quoteAscii k).append (.cons (by decide) ((shown_printAscii v).append (shown_printMembersAscii ms))))

end

end Json

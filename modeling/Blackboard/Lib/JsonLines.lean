import Blackboard.Lib.JsonText
import Blackboard.Lib.Lines

/-! JSON as a line of text. What is written begins and ends with a visible character, and it
has a line break inside exactly if a string has one of the three that JSON leaves alone. -/

namespace Json

open Lines

/-- The line breaks that are written as they are: NEL, LINE SEPARATOR, PARAGRAPH SEPARATOR. -/
def isRawBreak (c : Char) : Bool := c.toNat ∈ [0x85, 0x2028, 0x2029]

mutual

/-- Some name or string of the document has a character like that. -/
def anyChar (p : Char → Bool) : Json → Bool
  | str s => s.toList.any p
  | arr xs => anyCharAll p xs
  | obj ms => anyCharMembers p ms
  | _ => false

def anyCharAll (p : Char → Bool) : List Json → Bool
  | [] => false
  | x :: xs => anyChar p x || anyCharAll p xs

def anyCharMembers (p : Char → Bool) : List (String × Json) → Bool
  | [] => false
  | (k, v) :: ms => (k.toList.any p || anyChar p v) || anyCharMembers p ms

end

theorem isBreak_of_lt {c : Char} (h : 30 < c.toNat ∧ c.toNat < 0x85) : isBreak c = false := by
  unfold isBreak
  simp only [decide_eq_false_iff_not, List.mem_cons, List.not_mem_nil, or_false]
  omega

theorem isSpace_of_lt {c : Char} (h : 32 < c.toNat ∧ c.toNat < 0x85) : isSpace c = false := by
  unfold isSpace
  simp only [Bool.or_eq_false_iff, decide_eq_false_iff_not, List.mem_cons, List.not_mem_nil, or_false,
    Bool.and_eq_false_iff]
  omega

/-- Printable ASCII. -/
def Printable (c : Char) : Prop := 32 < c.toNat ∧ c.toNat < 0x85

theorem any_isBreak_of_printable {cs : List Char} (h : ∀ c ∈ cs, Printable c) : cs.any isBreak = false :=
  List.any_eq_false.mpr fun c hc => by
    rw [isBreak_of_lt ⟨by have := (h c hc).1; omega, (h c hc).2⟩]
    simp

theorem printable_digitChar {n : ℕ} (h : n < 16) : Printable (Nat.digitChar n) := by
  unfold Printable
  interval_cases n <;> decide

theorem any_escape (c : Char) : (escape c).any isBreak = isRawBreak c := by
  have hraw : c.toNat < 128 → isRawBreak c = false := fun h => by
    unfold isRawBreak
    simp only [decide_eq_false_iff_not, List.mem_cons, List.not_mem_nil, or_false]
    omega
  unfold escape
  split
  case h_8 =>
    split_ifs with h
    · rw [hraw (by omega)]
      refine any_isBreak_of_printable fun d hd => ?_
      simp only [List.mem_cons, List.not_mem_nil, or_false] at hd
      rcases hd with rfl | rfl | rfl | rfl | rfl | rfl
      · unfold Printable; decide
      · unfold Printable; decide
      · unfold Printable; decide
      · unfold Printable; decide
      · exact printable_digitChar (by omega)
      · exact printable_digitChar (Nat.mod_lt _ (by omega))
    · rw [List.any_cons, List.any_nil, Bool.or_false]
      unfold isBreak isRawBreak
      simp only [List.mem_cons, List.not_mem_nil, or_false, decide_eq_decide]
      omega
  all_goals
    rename_i h
    rw [hraw (by rw [h]; decide)]
    decide

theorem any_quote (s : String) : (quote s).any isBreak = s.toList.any isRawBreak := by
  have h : ∀ cs : List Char, (cs.flatMap escape).any isBreak = cs.any isRawBreak := by
    intro cs
    induction cs with
    | nil => rfl
    | cons c cs ih => rw [List.flatMap_cons, List.any_append, any_escape, ih, List.any_cons]
  rw [quote, List.any_cons, List.any_append, h]
  simp [show isBreak '"' = false by decide]

theorem printable_of_isDigit {c : Char} (h : c.isDigit = true) : Printable c := by
  have h := Char.isDigit_iff_toNat.mp h
  rw [show '0'.toNat = 48 from rfl, show '9'.toNat = 57 from rfl] at h
  exact ⟨by omega, by omega⟩

theorem printable_text {x : Numeral} (h : x.Proper) : ∀ c ∈ x.text, Printable c := by
  have hsign : Printable '-' ∧ Printable '+' ∧ Printable '.' ∧ Printable 'e' := by
    unfold Printable
    decide
  obtain ⟨hm, hp, hd, he⟩ := hsign
  intro c hc
  rcases List.mem_append.mp hc with hc | hc
  · split_ifs at hc
    · rw [List.mem_singleton.mp hc]
      exact hm
    · cases hc
  · rcases List.mem_append.mp hc with hc | hc
    · exact printable_of_isDigit (h.whole c hc)
    · rcases List.mem_append.mp hc with hc | hc
      · unfold Numeral.fracText at hc
        split_ifs at hc
        · cases hc
        · rcases List.mem_cons.mp hc with rfl | hc
          · exact hd
          · exact printable_of_isDigit (h.frac c hc)
      · cases hx : x.exp with
        | none =>
          rw [hx] at hc
          cases hc
        | some e =>
          rw [hx] at hc
          rcases List.mem_cons.mp hc with rfl | hc
          · exact he
          · rcases List.mem_cons.mp hc with rfl | hc
            · split_ifs
              · exact hm
              · exact hp
            · exact printable_of_isDigit (Numeral.expDigits_digit e c hc)

mutual

theorem any_print : ∀ v : Json, (print v).any isBreak = v.anyChar isRawBreak
  | null => rfl
  | bool true => rfl
  | bool false => rfl
  | num n => any_isBreak_of_printable (printable_text (Numeral.proper_ofInt n))
  | float x => any_isBreak_of_printable (printable_text (Numeral.proper_ofDouble x))
  | str s => any_quote s
  | arr [] => rfl
  | arr (x :: xs) => by
    rw [print, List.any_cons, List.any_append, any_print x, any_printItems xs]
    rfl
  | obj [] => rfl
  | obj ((k, v) :: ms) => by
    rw [print, List.any_cons, List.any_append, List.any_cons, List.any_append, any_quote, any_print v,
      any_printMembers ms]
    simp [anyChar, anyCharMembers, Bool.or_assoc, show isBreak '\x7b' = false by decide,
      show isBreak ':' = false by decide]

theorem any_printItems : ∀ xs : List Json, (printItems xs).any isBreak = anyCharAll isRawBreak xs
  | [] => rfl
  | x :: xs => by
    rw [printItems, List.any_cons, List.any_append, any_print x, any_printItems xs]
    rfl

theorem any_printMembers : ∀ ms : List (String × Json), (printMembers ms).any isBreak = anyCharMembers isRawBreak ms
  | [] => rfl
  | (k, v) :: ms => by
    rw [printMembers, List.any_cons, List.any_append, List.any_cons, List.any_append, any_quote, any_print v,
      any_printMembers ms]
    simp [anyCharMembers, Bool.or_assoc, show isBreak ',' = false by decide, show isBreak ':' = false by decide]

end

theorem anyCharMembers_eq (p : Char → Bool) (ms : List (String × Json)) :
    anyCharMembers p ms = ms.any fun m => m.1.toList.any p || anyChar p m.2 := by
  induction ms with
  | nil => rfl
  | cons m ms ih => rw [anyCharMembers, ih, List.any_cons]

mutual

theorem anyChar_canon (p : Char → Bool) : ∀ v : Json, v.canon.anyChar p = v.anyChar p
  | null | bool _ | num _ | float _ | str _ => rfl
  | arr xs => by rw [canon, anyChar, anyChar, anyCharAll_canon p xs]
  | obj ms => by
    rw [canon, anyChar, anyChar, ← anyCharMembers_canon p ms, anyCharMembers_eq, anyCharMembers_eq]
    exact (List.perm_insertionSort _ _).any_eq

theorem anyCharAll_canon (p : Char → Bool) : ∀ xs : List Json, anyCharAll p (canonAll xs) = anyCharAll p xs
  | [] => rfl
  | x :: xs => by rw [canonAll, anyCharAll, anyCharAll, anyChar_canon p x, anyCharAll_canon p xs]

theorem anyCharMembers_canon (p : Char → Bool) :
    ∀ ms : List (String × Json), anyCharMembers p (canonMembers ms) = anyCharMembers p ms
  | [] => rfl
  | (k, v) :: ms => by
    rw [canonMembers, anyCharMembers, anyCharMembers, anyChar_canon p v, anyCharMembers_canon p ms]

end

/-- A document is written over several lines exactly if a string says so. -/
theorem dumps_break (v : Json) : (∃ c ∈ v.dumps.toList, isBreak c = true) ↔ v.anyChar isRawBreak = true := by
  rw [← anyChar_canon, ← any_print, List.any_eq_true, dumps, String.toList_ofList]

theorem visible_of_printable {cs : List Char} (hne : cs ≠ []) (h : ∀ c ∈ cs, Printable c) : Visible cs :=
  ⟨fun c hc => isSpace_of_lt (h c (List.mem_of_mem_head? hc)),
    fun c hc => isSpace_of_lt (h c (List.mem_of_mem_getLast? hc)), hne⟩

theorem visible_ends {a b : Char} {l : List Char} (ha : Printable a) (hb : Printable b) :
    Visible (a :: (l ++ [b])) where
  first c hc := by
    obtain rfl : a = c := by simpa using hc
    exact isSpace_of_lt ha
  last c hc := by
    rw [← List.cons_append, List.getLast?_concat] at hc
    obtain rfl : b = c := by simpa using hc
    exact isSpace_of_lt hb
  nonempty := List.cons_ne_nil _ _

theorem printItems_end (xs : List Json) : ∃ cs, printItems xs = cs ++ [']'] := by
  induction xs with
  | nil => exact ⟨[], rfl⟩
  | cons x xs ih =>
    obtain ⟨cs, hcs⟩ := ih
    exact ⟨',' :: (print x ++ cs), by rw [printItems, hcs]; simp⟩

theorem printMembers_end (ms : List (String × Json)) : ∃ cs, printMembers ms = cs ++ ['\x7d'] := by
  induction ms with
  | nil => exact ⟨[], rfl⟩
  | cons m ms ih =>
    obtain ⟨cs, hcs⟩ := ih
    exact ⟨',' :: (quote m.1 ++ ':' :: (print m.2 ++ cs)), by rw [printMembers, hcs]; simp⟩

theorem visible_print (v : Json) : Visible (print v) := by
  have hnum : ∀ x : Numeral, x.Proper → Visible x.text := fun x hx => by
    obtain ⟨c, cs, hc, -⟩ := text_start hx
    exact visible_of_printable (by rw [hc]; exact List.cons_ne_nil _ _) (printable_text hx)
  cases v with
  | null => exact visible_of_printable (by simp [print]) (by simp [print, Printable])
  | bool b => cases b <;> exact visible_of_printable (by simp [print]) (by simp [print, Printable])
  | num n => exact hnum _ (Numeral.proper_ofInt n)
  | float x => exact hnum _ (Numeral.proper_ofDouble x)
  | str s => exact visible_ends (by unfold Printable; decide) (by unfold Printable; decide)
  | arr xs => cases xs with
    | nil => exact visible_ends (l := []) (by unfold Printable; decide) (by unfold Printable; decide)
    | cons x xs =>
      obtain ⟨cs, hcs⟩ := printItems_end xs
      rw [print, hcs, ← List.append_assoc]
      exact visible_ends (by unfold Printable; decide) (by unfold Printable; decide)
  | obj ms => cases ms with
    | nil => exact visible_ends (l := []) (by unfold Printable; decide) (by unfold Printable; decide)
    | cons m ms =>
      obtain ⟨cs, hcs⟩ := printMembers_end ms
      have he : print (obj (m :: ms)) =
          '\x7b' :: ((quote m.1 ++ ':' :: (print m.2 ++ cs)) ++ ['\x7d']) := by
        rw [print, hcs]
        simp
      rw [he]
      exact visible_ends (by unfold Printable; decide) (by unfold Printable; decide)

theorem visible_dumps (v : Json) : Visible v.dumps.toList := by
  rw [dumps, String.toList_ofList]
  exact visible_print _

end Json

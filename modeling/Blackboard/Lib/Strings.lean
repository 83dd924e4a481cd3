import Mathlib.Data.List.Dedup
import Mathlib.Data.List.Sort
import Mathlib.Data.List.TakeWhile
import Mathlib.Data.String.Basic
import Blackboard.Lib.Lines

/-! Python's `str.strip`, `int` of a text, and `sorted` of a set of names. `int` takes the decimal digits of every
script, and blanks around the number. -/

namespace Strings

/-! `str.strip`, of any kind of character. -/

def strip (p : Char → Bool) (text : List Char) : List Char := (text.dropWhile p).reverse.dropWhile p |>.reverse

section

variable {p : Char → Bool} {text : List Char}

theorem strip_eq_nil : strip p text = [] ↔ ∀ c ∈ text, p c = true := by
  constructor
  · intro h
    have h1 : (text.dropWhile p).reverse.dropWhile p = [] := by simpa [strip] using h
    have h2 : ∀ c ∈ text.dropWhile p, p c = true := by
      simpa using List.dropWhile_eq_nil_iff.mp h1
    intro c hc
    rw [← List.takeWhile_append_dropWhile (p := p) (l := text)] at hc
    rcases List.mem_append.mp hc with hc | hc
    · exact List.mem_takeWhile_imp hc
    · exact h2 c hc
  · intro h
    rw [strip, List.dropWhile_eq_nil_iff.mpr h]
    rfl

theorem dropWhile_eq_strip (p : Char → Bool) (text : List Char) :
    text.dropWhile p = strip p text ++ ((text.dropWhile p).reverse.takeWhile p).reverse := by
  rw [strip, ← List.reverse_append, List.takeWhile_append_dropWhile, List.reverse_reverse]

theorem head_strip (p : Char → Bool) (text : List Char) : ∀ c ∈ (strip p text).head?, p c = false := by
  intro c hc
  have hhead : (text.dropWhile p).head? = some c := by
    rw [dropWhile_eq_strip, List.head?_append, show (strip p text).head? = some c from hc]
    rfl
  have hnot := List.head?_dropWhile_not p text
  rw [hhead] at hnot
  exact hnot

theorem strip_spec (p : Char → Bool) (text : List Char) :
    ∃ x y, text = x ++ strip p text ++ y ∧ (∀ c ∈ x, p c = true) ∧ ∀ c ∈ y, p c = true := by
  refine ⟨text.takeWhile p, ((text.dropWhile p).reverse.takeWhile p).reverse, ?_, fun c hc => List.mem_takeWhile_imp hc,
    fun c hc => List.mem_takeWhile_imp (List.mem_reverse.mp hc)⟩
  rw [strip, List.append_assoc, ← List.reverse_append, List.takeWhile_append_dropWhile, List.reverse_reverse,
    List.takeWhile_append_dropWhile]

theorem strip_of_none (h : ∀ c ∈ text, p c = false) : strip p text = text := by
  have hdrop : ∀ l : List Char, (∀ c ∈ l, p c = false) → l.dropWhile p = l := by
    intro l hl
    rcases l with _ | ⟨c, l⟩
    · rfl
    · rw [List.dropWhile_cons_of_neg (by simp [hl c List.mem_cons_self])]
  rw [strip, hdrop text h, hdrop _ fun c hc => h c (List.mem_reverse.mp hc), List.reverse_reverse]

end

/-! `int` of a text. -/

/-- The zero of each script that has decimal digits, the nine others after it. -/
def DIGITS : List ℕ :=
  [0x30, 0x660, 0x6f0, 0x7c0, 0x966, 0x9e6, 0xa66, 0xae6, 0xb66, 0xbe6, 0xc66, 0xce6, 0xd66, 0xde6, 0xe50, 0xed0, 0xf20,
    0x1040, 0x1090, 0x17e0, 0x1810, 0x1946, 0x19d0, 0x1a80, 0x1a90, 0x1b50, 0x1bb0, 0x1c40, 0x1c50, 0xa620, 0xa8d0,
    0xa900, 0xa9d0, 0xa9f0, 0xaa50, 0xabf0, 0xff10, 0x104a0, 0x10d30, 0x11066, 0x110f0, 0x11136, 0x111d0, 0x112f0,
    0x11450, 0x114d0, 0x11650, 0x116c0, 0x11730, 0x118e0, 0x11950, 0x11c50, 0x11d50, 0x11da0, 0x11f50, 0x16a60, 0x16ac0,
    0x16b50, 0x1d7ce, 0x1d7d8, 0x1d7e2, 0x1d7ec, 0x1d7f6, 0x1e140, 0x1e2f0, 0x1e4f0, 0x1e950, 0x1fbf0]

/-- `\d` -/
def isDecimal (c : Char) : Bool := DIGITS.any fun d => d ≤ c.toNat && c.toNat ≤ d + 9

/-- `unicodedata.decimal` -/
def decimal? (c : Char) : Option ℕ :=
  (DIGITS.find? fun d => d ≤ c.toNat && c.toNat ≤ d + 9).map fun d => c.toNat - d

/-- A blank beside a number; the ASCII separators of files, groups, records and units are none here. -/
def isPadding (c : Char) : Bool := Lines.isSpace c && !(28 ≤ c.toNat && c.toNat ≤ 31)

/-- Digits, with single underscores between them. -/
def digits : ℕ → List Char → Option ℕ
  | n, [] => some n
  | n, c :: cs =>
    match decimal? c with
    | some d => digits (10 * n + d) cs
    | none =>
      if c = '_' then
        match cs with
        | d :: ds => (decimal? d).bind fun k => digits (10 * n + k) ds
        | [] => none
      else none

/-- `int(s)` -/
def int? (s : List Char) : Option ℤ :=
  match strip isPadding s with
  | [] => none
  | c :: cs =>
    match (if c = '+' ∨ c = '-' then cs else c :: cs) with
    | [] => none
    | d :: ds => (decimal? d).bind fun k => (digits k ds).map fun (n : ℕ) => if c = '-' then -(n : ℤ) else (n : ℤ)

theorem toNat_of_isDigit {c : Char} (h : c.isDigit = true) : 48 ≤ c.toNat ∧ c.toNat ≤ 57 := by
  rw [Char.isDigit] at h
  simp only [Bool.and_eq_true, decide_eq_true_eq] at h
  exact ⟨h.1, h.2⟩

theorem decimal?_of_isDigit {c : Char} (h : c.isDigit = true) : decimal? c = some (c.toNat - 48) := by
  obtain ⟨h1, h2⟩ := toNat_of_isDigit h
  rw [decimal?, DIGITS, List.find?_cons_of_pos (by simp [h1, h2])]
  rfl

theorem isPadding_of_isDigit {c : Char} (h : c.isDigit = true) : isPadding c = false := by
  obtain ⟨h1, h2⟩ := toNat_of_isDigit h
  have hspace : Lines.isSpace c = false := by
    unfold Lines.isSpace
    simp only [List.mem_cons, List.not_mem_nil, or_false, Bool.or_eq_false_iff, decide_eq_false_iff_not,
      Bool.and_eq_false_iff]
    omega
  rw [isPadding, hspace, Bool.false_and]

theorem digits_of_isDigit {cs : List Char} (h : ∀ c ∈ cs, c.isDigit = true) (n : ℕ) :
    digits n cs = some (Nat.ofDigitChars 10 cs n) := by
  induction cs generalizing n with
  | nil => rfl
  | cons c cs ih =>
    rw [digits.eq_def]
    simp only [decimal?_of_isDigit (h c List.mem_cons_self)]
    rw [ih (fun d hd => h d (List.mem_cons_of_mem _ hd)), Nat.ofDigitChars_cons]
    rfl

/-- A number is read as it is written. -/
theorem int?_toDigits (n : ℕ) : int? (Nat.toDigits 10 n) = some (n : ℤ) := by
  have hdigit : ∀ c ∈ Nat.toDigits 10 n, c.isDigit = true := fun c hc =>
    Nat.isDigit_of_mem_toDigits (by decide) (by decide) hc
  have hvalue : Nat.ofDigitChars 10 (Nat.toDigits 10 n) 0 = n := Nat.ofDigitChars_ten_toDigits
  rw [int?, strip_of_none fun c hc => isPadding_of_isDigit (hdigit c hc)]
  rcases hcs : Nat.toDigits 10 n with _ | ⟨c, cs⟩
  · exact absurd hcs Nat.toDigits_ne_nil
  rw [hcs] at hdigit hvalue
  have hc := hdigit c List.mem_cons_self
  have hne : ∀ d : Char, d.isDigit = false → c ≠ d := fun d hd he => by rw [he, hd] at hc; cases hc
  simp only [hne '+' (by decide), hne '-' (by decide), or_self, if_false, decimal?_of_isDigit hc, Option.bind_some]
  rw [digits_of_isDigit fun d hd => hdigit d (List.mem_cons_of_mem _ hd)]
  rw [Nat.ofDigitChars_cons, Nat.mul_zero, Nat.zero_add] at hvalue
  exact congrArg some (congrArg Nat.cast hvalue)

example : int? " -1_6\n".toList = some (-16) := by decide

/-! `sorted(set(names))` -/

def sortedSet (names : List String) : List String := names.dedup.insertionSort (· ≤ ·)

theorem mem_sortedSet {names : List String} {name : String} : name ∈ sortedSet names ↔ name ∈ names := by
  rw [sortedSet, List.mem_insertionSort, List.mem_dedup]

theorem sortedSet_ne_nil {names : List String} : sortedSet names ≠ [] ↔ names ≠ [] := by
  rw [not_iff_not, List.eq_nil_iff_forall_not_mem, List.eq_nil_iff_forall_not_mem]
  exact forall_congr' fun name => not_congr mem_sortedSet

end Strings

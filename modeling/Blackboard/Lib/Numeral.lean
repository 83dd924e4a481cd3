import Mathlib.Tactic.IntervalCases
import Mathlib.Tactic.Ring
import Blackboard.Lib.Double

/-! Numerals of JSON as Python writes and reads them: an integer in decimal, and a float as its
`repr`. A numeral with a fraction or an exponent is read as a float, any other as an integer. -/

structure Numeral where
  neg : Bool
  whole : List Char
  /-- The digits after the point; without any there is no point. -/
  frac : List Char
  exp : Option ℤ
deriving DecidableEq

namespace Numeral

def isInt (x : Numeral) : Bool := x.frac.isEmpty && x.exp.isNone

def digits (x : Numeral) : ℕ := Nat.ofDigitChars 10 (x.whole ++ x.frac) 0

def int (x : Numeral) : ℤ := if x.neg then -x.digits else x.digits

def magnitude (x : Numeral) : ℚ := x.digits * (10 : ℚ) ^ (x.exp.getD 0 - x.frac.length)

/-! Text. -/

/-- At least two digits. -/
def expDigits (e : ℤ) : List Char :=
  let ds := Nat.toDigits 10 e.natAbs
  if ds.length < 2 then '0' :: ds else ds

def expText : Option ℤ → List Char
  | none => []
  | some e => 'e' :: (if e < 0 then '-' else '+') :: expDigits e

def fracText (ds : List Char) : List Char := if ds.isEmpty then [] else '.' :: ds

def text (x : Numeral) : List Char :=
  (if x.neg then ['-'] else []) ++ (x.whole ++ (fracText x.frac ++ expText x.exp))

/-! Scanning: `-?(0|[1-9]\d*)(\.\d+)?([eE][-+]?\d+)?` -/

def scanSign : List Char → Bool × List Char
  | '-' :: r => (true, r)
  | cs => (false, cs)

def scanWhole (cs : List Char) : Option (List Char × List Char) :=
  match cs with
  | '0' :: r => some (['0'], r)
  | _ => if (cs.takeWhile Char.isDigit).isEmpty then none
    else some (cs.takeWhile Char.isDigit, cs.dropWhile Char.isDigit)

def scanFrac (cs : List Char) : List Char × List Char :=
  match cs with
  | '.' :: r => if (r.takeWhile Char.isDigit).isEmpty then ([], cs)
    else (r.takeWhile Char.isDigit, r.dropWhile Char.isDigit)
  | _ => ([], cs)

def scanExpSign : List Char → Bool × List Char
  | '-' :: r => (true, r)
  | '+' :: r => (false, r)
  | cs => (false, cs)

def scanExp (cs : List Char) : Option ℤ × List Char :=
  match cs with
  | c :: r =>
    if c = 'e' ∨ c = 'E' then
      let (neg, r) := scanExpSign r
      let ds := r.takeWhile Char.isDigit
      if ds.isEmpty then (none, cs)
      else (some (if neg then -(Nat.ofDigitChars 10 ds 0 : ℤ) else Nat.ofDigitChars 10 ds 0),
        r.dropWhile Char.isDigit)
    else (none, cs)
  | [] => (none, [])

def scan (cs : List Char) : Option (Numeral × List Char) :=
  let (neg, cs) := scanSign cs
  (scanWhole cs).map fun (whole, cs) =>
    let (frac, cs) := scanFrac cs
    let (exp, cs) := scanExp cs
    (⟨neg, whole, frac, exp⟩, cs)

/-- Digits, and no zero in front of others. -/
structure Proper (x : Numeral) : Prop where
  whole : ∀ c ∈ x.whole, c.isDigit = true
  frac : ∀ c ∈ x.frac, c.isDigit = true
  lead : x.whole = ['0'] ∨ ∃ c cs, x.whole = c :: cs ∧ c ≠ '0'

/-- What may follow a numeral: nothing that would continue it. -/
def Stops (rest : List Char) : Prop :=
  ∀ c ∈ rest.head?, c.isDigit = false ∧ c ≠ '.' ∧ c ≠ 'e' ∧ c ≠ 'E'

theorem stops_nil : Stops [] := fun _ h => by cases h

theorem stops_cons {c : Char} {rest : List Char} (h : c.isDigit = false ∧ c ≠ '.' ∧ c ≠ 'e' ∧ c ≠ 'E') :
    Stops (c :: rest) := fun d hd => by
  obtain rfl : c = d := by simpa using hd
  exact h

/-- No digit comes first. -/
def NoDigit (rest : List Char) : Prop := ∀ c ∈ rest.head?, c.isDigit = false

theorem takeWhile_digits {ds rest : List Char} (hd : ∀ c ∈ ds, c.isDigit = true) (hr : NoDigit rest) :
    (ds ++ rest).takeWhile Char.isDigit = ds := by
  rw [List.takeWhile_append_of_pos hd]
  cases rest with
  | nil => simp
  | cons c cs =>
    rw [List.takeWhile_cons_of_neg (by simpa using hr c rfl), List.append_nil]

theorem dropWhile_digits {ds rest : List Char} (hd : ∀ c ∈ ds, c.isDigit = true) (hr : NoDigit rest) :
    (ds ++ rest).dropWhile Char.isDigit = rest := by
  rw [List.dropWhile_append_of_pos hd]
  cases rest with
  | nil => rfl
  | cons c cs => rw [List.dropWhile_cons_of_neg (by simpa using hr c rfl)]

theorem scanWhole_append {ds rest : List Char} (hd : ∀ c ∈ ds, c.isDigit = true)
    (hl : ds = ['0'] ∨ ∃ c cs, ds = c :: cs ∧ c ≠ '0') (hr : NoDigit rest) :
    scanWhole (ds ++ rest) = some (ds, rest) := by
  rcases hl with rfl | ⟨c, cs, rfl, hc⟩
  · rfl
  · have h1 := takeWhile_digits hd hr
    have h2 := dropWhile_digits hd hr
    unfold scanWhole
    split
    · rename_i r heq
      exact absurd (List.cons.inj heq).1 hc
    · rw [h1, h2, if_neg (by simp)]

theorem scanFrac_append {ds rest : List Char} (hd : ∀ c ∈ ds, c.isDigit = true) (hr : NoDigit rest)
    (hp : ∀ c ∈ rest.head?, c ≠ '.') : scanFrac (fracText ds ++ rest) = (ds, rest) := by
  unfold fracText
  cases ds with
  | nil =>
    show scanFrac rest = ([], rest)
    unfold scanFrac
    split
    · exact absurd rfl (hp '.' rfl)
    · rfl
  | cons d ds =>
    simp only [List.isEmpty_cons, Bool.false_eq_true, if_false, List.cons_append, scanFrac]
    have h1 := takeWhile_digits hd hr
    have h2 := dropWhile_digits hd hr
    rw [List.cons_append] at h1 h2
    rw [h1, h2, List.isEmpty_cons, if_neg (by simp)]

theorem expDigits_digit (e : ℤ) : ∀ c ∈ expDigits e, c.isDigit = true := by
  have h : ∀ c ∈ Nat.toDigits 10 e.natAbs, c.isDigit = true :=
    fun c hc => Nat.isDigit_of_mem_toDigits (by norm_num) (by norm_num) hc
  unfold expDigits
  dsimp only
  split_ifs
  · intro c hc
    rcases List.mem_cons.mp hc with rfl | hc
    · rfl
    · exact h c hc
  · exact h

theorem ofDigitChars_expDigits (e : ℤ) : Nat.ofDigitChars 10 (expDigits e) 0 = e.natAbs := by
  unfold expDigits
  dsimp only
  split_ifs
  · rw [Nat.ofDigitChars_cons]
    exact Nat.ofDigitChars_ten_toDigits
  · exact Nat.ofDigitChars_ten_toDigits

theorem expDigits_ne_nil (e : ℤ) : expDigits e ≠ [] := by
  unfold expDigits
  dsimp only
  split_ifs
  · exact List.cons_ne_nil _ _
  · exact Nat.toDigits_ne_nil

theorem scanExp_append {e : Option ℤ} {rest : List Char} (hr : Stops rest) :
    scanExp (expText e ++ rest) = (e, rest) := by
  cases e with
  | none =>
    cases rest with
    | nil => rfl
    | cons c cs =>
      obtain ⟨-, -, h1, h2⟩ := hr c rfl
      simp [expText, scanExp, h1, h2]
  | some e =>
    have hn : NoDigit rest := fun c hc => (hr c hc).1
    have h1 := takeWhile_digits (expDigits_digit e) hn
    have h2 := dropWhile_digits (expDigits_digit e) hn
    have hne : (expDigits e).isEmpty = false := by simp [expDigits_ne_nil]
    by_cases he : e < 0
    · simp only [expText, he, if_true, List.cons_append, scanExp, true_or, scanExpSign, h1, h2, hne,
        Bool.false_eq_true, if_false, ofDigitChars_expDigits]
      rw [show -((e.natAbs : ℕ) : ℤ) = e by omega]
    · simp only [expText, he, if_false, List.cons_append, scanExp, true_or, if_true, scanExpSign, h1, h2, hne,
        Bool.false_eq_true, ofDigitChars_expDigits]
      rw [show ((e.natAbs : ℕ) : ℤ) = e by omega]

/-- A numeral is scanned as it was written. -/
theorem scan_text {x : Numeral} (h : x.Proper) {rest : List Char} (hr : Stops rest) :
    scan (x.text ++ rest) = some (x, rest) := by
  obtain ⟨neg, whole, frac, exp⟩ := x
  obtain ⟨hw, hf, hl⟩ := h
  dsimp only at hw hf hl
  have hexp : NoDigit (expText exp ++ rest) ∧ ∀ c ∈ (expText exp ++ rest).head?, c ≠ '.' := by
    cases exp with
    | none => exact ⟨fun c hc => (hr c hc).1, fun c hc => (hr c hc).2.1⟩
    | some e =>
      simp only [expText, List.cons_append, NoDigit, List.head?_cons, Option.mem_def, Option.some.injEq,
        forall_eq']
      exact ⟨rfl, by decide⟩
  have hfrac : NoDigit (fracText frac ++ (expText exp ++ rest)) := by
    unfold fracText
    split_ifs
    · exact hexp.1
    · intro c hc
      obtain rfl : '.' = c := by simpa using hc
      rfl
  have hsign : scanSign ((if neg then ['-'] else []) ++ (whole ++ (fracText frac ++ (expText exp ++ rest)))) =
      (neg, whole ++ (fracText frac ++ (expText exp ++ rest))) := by
    cases neg with
    | true => rfl
    | false =>
      simp only [Bool.false_eq_true, if_false, List.nil_append]
      rcases hl with rfl | ⟨c, cs, rfl, -⟩
      · rfl
      · rw [List.cons_append]
        unfold scanSign
        split
        · rename_i r heq
          have := hw c (by simp)
          rw [(List.cons.inj heq).1] at this
          exact absurd this (by decide)
        · rfl
  unfold scan text
  simp only [List.append_assoc, hsign, scanWhole_append hw hl hfrac, Option.map_some,
    scanFrac_append hf hexp.1 hexp.2, scanExp_append hr]

/-! Integers. -/

def ofInt (n : ℤ) : Numeral := ⟨n < 0, Nat.toDigits 10 n.natAbs, [], none⟩

theorem toDigits_lead (n : ℕ) : Nat.toDigits 10 n = ['0'] ∨ ∃ c cs, Nat.toDigits 10 n = c :: cs ∧ c ≠ '0' := by
  induction n using Nat.strong_induction_on with
  | _ n ih =>
    by_cases h : n < 10
    · rw [Nat.toDigits_of_lt_base h]
      by_cases h0 : n = 0
      · exact Or.inl (by rw [h0]; rfl)
      · refine Or.inr ⟨_, [], rfl, ?_⟩
        interval_cases n <;> first | exact absurd rfl h0 | decide
    · rw [Nat.toDigits_of_base_le (by norm_num) (by omega)]
      rcases ih (n / 10) (by omega) with h0 | ⟨c, cs, hc, hne⟩
      · have := congrArg (fun l => Nat.ofDigitChars 10 l 0) h0
        simp only [Nat.ofDigitChars_ten_toDigits] at this
        have hz : Nat.ofDigitChars 10 ['0'] 0 = 0 := by decide
        omega
      · exact Or.inr ⟨c, _, by rw [hc, List.cons_append], hne⟩

theorem proper_ofInt (n : ℤ) : (ofInt n).Proper :=
  ⟨fun _ hc => Nat.isDigit_of_mem_toDigits (by norm_num) (by norm_num) hc, (by rintro _ ⟨⟩), toDigits_lead _⟩

@[simp] theorem isInt_ofInt (n : ℤ) : (ofInt n).isInt = true := rfl

@[simp] theorem int_ofInt (n : ℤ) : (ofInt n).int = n := by
  unfold int digits ofInt
  rw [List.append_nil, Nat.ofDigitChars_ten_toDigits]
  by_cases h : n < 0
  · rw [if_pos (by simpa using h)]
    omega
  · rw [if_neg (by simpa using h)]
    omega

/-! A number in a fixed number of digits. -/

/-- `f"{n:0{width}d}"` for a number that fits. -/
def padded : ℕ → ℕ → List Char
  | 0, _ => []
  | width + 1, n => padded width (n / 10) ++ [Nat.digitChar (n % 10)]

theorem length_padded (width n : ℕ) : (padded width n).length = width := by
  induction width generalizing n with
  | zero => rfl
  | succ width ih => rw [padded, List.length_append, ih, List.length_singleton]

theorem digitChar_inj {m n : ℕ} (hm : m < 10) (hn : n < 10) (h : Nat.digitChar m = Nat.digitChar n) : m = n := by
  interval_cases m <;> interval_cases n <;> first | rfl | exact absurd h (by decide)

theorem padded_inj {width m n : ℕ} (hm : m < 10 ^ width) (hn : n < 10 ^ width)
    (h : padded width m = padded width n) : m = n := by
  induction width generalizing m n with
  | zero => omega
  | succ width ih =>
    obtain ⟨h1, h2⟩ := List.append_inj' h rfl
    have hd := digitChar_inj (Nat.mod_lt m (by omega)) (Nat.mod_lt n (by omega)) (List.singleton_inj.mp h2)
    rw [Nat.pow_succ] at hm hn
    have := ih (by omega) (by omega) h1
    omega

theorem append_padded {width m n : ℕ} {r s : List Char} (hm : m < 10 ^ width) (hn : n < 10 ^ width)
    (h : padded width m ++ r = padded width n ++ s) : m = n ∧ r = s := by
  obtain ⟨h1, h2⟩ := List.append_inj h (by rw [length_padded, length_padded])
  exact ⟨padded_inj hm hn h1, h2⟩

theorem ofDigitChars_padded {width n : ℕ} (h : n < 10 ^ width) (init : ℕ) :
    Nat.ofDigitChars 10 (padded width n) init = init * 10 ^ width + n := by
  induction width generalizing n with
  | zero =>
    obtain rfl : n = 0 := by simpa using h
    simp [padded]
  | succ width ih =>
    rw [Nat.pow_succ] at h
    have hd : (Nat.digitChar (n % 10)).toNat - '0'.toNat = n % 10 := by
      have h : n % 10 < 10 := Nat.mod_lt _ (by omega)
      interval_cases n % 10 <;> rfl
    rw [padded, Nat.ofDigitChars_append, ih (by omega), Nat.ofDigitChars_cons, Nat.ofDigitChars_nil, hd, Nat.pow_succ]
    have := Nat.div_add_mod n 10
    ring_nf at this ⊢
    omega

/-! Floats. -/

/-- The value `d * 10 ^ k` as `repr` lays it out: with an exponent when the point is more than
16 digits after the first one, or four or more before it. -/
def layout (neg : Bool) (d : ℕ) (k : ℤ) : Numeral :=
  if d = 0 then ⟨neg, ['0'], ['0'], none⟩
  else
    let ds := Nat.toDigits 10 d
    let point := ds.length + k
    if point ≤ -4 ∨ 16 < point then ⟨neg, ds.take 1, ds.drop 1, some (point - 1)⟩
    else if point ≤ 0 then ⟨neg, ['0'], List.replicate (-point).toNat '0' ++ ds, none⟩
    else if point < ds.length then ⟨neg, ds.take point.toNat, ds.drop point.toNat, none⟩
    else ⟨neg, ds ++ List.replicate k.toNat '0', ['0'], none⟩

def ofDouble (x : Double) : Numeral := layout x.neg x.shortest.1 x.shortest.2

theorem layout_neg (neg : Bool) (d : ℕ) (k : ℤ) : (layout neg d k).neg = neg := by
  unfold layout
  dsimp only
  split_ifs <;> rfl

theorem magnitude_layout (neg : Bool) (d : ℕ) (k : ℤ) : (layout neg d k).magnitude = d * (10 : ℚ) ^ k := by
  have hds := Nat.ofDigitChars_ten_toDigits (n := d)
  have hpos : 0 < (Nat.toDigits 10 d).length := Nat.length_toDigits_pos
  unfold layout
  dsimp only
  split_ifs with h0 h1 h2 h3
  · have hz : Nat.ofDigitChars 10 ['0', '0'] 0 = 0 := by decide
    simp [magnitude, digits, hz, h0]
  · simp only [magnitude, digits, List.take_append_drop, hds, Option.getD_some, List.length_drop]
    congr 2
    omega
  · simp only [magnitude, digits, List.cons_append, List.nil_append, Nat.ofDigitChars_cons, Option.getD_none,
      Nat.ofDigitChars_append, Nat.ofDigitChars_replicate_zero, List.length_append, List.length_replicate]
    rw [show 10 ^ (-((Nat.toDigits 10 d).length + k)).toNat * (10 * 0 + ('0'.toNat - '0'.toNat)) = 0 by simp, hds]
    congr 2
    push_cast
    omega
  · simp only [magnitude, digits, List.take_append_drop, hds, Option.getD_none, List.length_drop]
    congr 2
    omega
  · have hk : 0 ≤ k := by omega
    obtain ⟨n, rfl⟩ := Int.eq_ofNat_of_zero_le hk
    simp only [magnitude, digits, List.append_assoc, Nat.ofDigitChars_append, hds, Nat.ofDigitChars_replicate_zero,
      Int.toNat_natCast, Option.getD_none, List.length_singleton]
    rw [show Nat.ofDigitChars 10 ['0'] (10 ^ n * d) = 10 ^ (n + 1) * d by
      rw [Nat.ofDigitChars_cons, Nat.ofDigitChars_nil, pow_succ]
      simp
      ring]
    rw [zpow_natCast, show (0 : ℤ) - ((1 : ℕ) : ℤ) = -1 by norm_num, zpow_neg_one, pow_succ]
    push_cast
    field_simp

theorem proper_layout (neg : Bool) (d : ℕ) (k : ℤ) : (layout neg d k).Proper := by
  have hdig : ∀ c ∈ Nat.toDigits 10 d, c.isDigit = true :=
    fun c hc => Nat.isDigit_of_mem_toDigits (by norm_num) (by norm_num) hc
  have hzero : ∀ n, ∀ c ∈ List.replicate n '0', c.isDigit = true := fun n c hc => by
    rw [(List.mem_replicate.mp hc).2]
    rfl
  have hd0 : d ≠ 0 → ∃ c cs, Nat.toDigits 10 d = c :: cs ∧ c ≠ '0' := fun h => by
    refine (toDigits_lead d).resolve_left fun h0 => h ?_
    have := congrArg (fun l => Nat.ofDigitChars 10 l 0) h0
    simp only [Nat.ofDigitChars_ten_toDigits] at this
    exact this.trans (by decide)
  have hone : ∀ c ∈ ['0'], c.isDigit = true := fun c hc => by
    rw [List.mem_singleton.mp hc]
    rfl
  unfold layout
  dsimp only
  split_ifs with h0 h1 h2 h3
  · exact ⟨hone, hone, Or.inl rfl⟩
  · refine ⟨fun c hc => hdig c (List.mem_of_mem_take hc), fun c hc => hdig c (List.mem_of_mem_drop hc), Or.inr ?_⟩
    obtain ⟨c, cs, hc, hne⟩ := hd0 h0
    exact ⟨c, [], by simp only [hc]; rfl, hne⟩
  · refine ⟨hone, fun c hc => ?_, Or.inl rfl⟩
    rcases List.mem_append.mp hc with hc | hc
    · exact hzero _ c hc
    · exact hdig c hc
  · refine ⟨fun c hc => hdig c (List.mem_of_mem_take hc), fun c hc => hdig c (List.mem_of_mem_drop hc), Or.inr ?_⟩
    obtain ⟨c, cs, hc, hne⟩ := hd0 h0
    obtain ⟨n, hn⟩ : ∃ n, ((Nat.toDigits 10 d).length + k).toNat = n + 1 := ⟨_, (Nat.succ_pred (by omega)).symm⟩
    exact ⟨c, cs.take n, by rw [hn, hc]; rfl, hne⟩
  · refine ⟨fun c hc => ?_, hone, Or.inr ?_⟩
    · rcases List.mem_append.mp hc with hc | hc
      · exact hdig c hc
      · exact hzero _ c hc
    · obtain ⟨c, cs, hc, hne⟩ := hd0 h0
      exact ⟨c, cs ++ List.replicate k.toNat '0', by rw [hc]; rfl, hne⟩

/-- A float always has a fraction or an exponent. -/
theorem isInt_layout (neg : Bool) (d : ℕ) (k : ℤ) : (layout neg d k).isInt = false := by
  have hpos : 0 < (Nat.toDigits 10 d).length := Nat.length_toDigits_pos
  unfold layout
  dsimp only
  split_ifs with h0 h1 h2 h3
  · rfl
  · simp [isInt]
  · simp [isInt, Nat.toDigits_ne_nil]
  · simp only [isInt, Option.isNone_none, Bool.and_true, List.isEmpty_eq_false_iff, ne_eq, List.drop_eq_nil_iff]
    omega
  · rfl

theorem proper_ofDouble (x : Double) : (ofDouble x).Proper := proper_layout _ _ _

theorem isInt_ofDouble (x : Double) : (ofDouble x).isInt = false := isInt_layout _ _ _

/-- `float(repr(x)) == x` -/
theorem round_ofDouble (x : Double) : Double.round (ofDouble x).neg (ofDouble x).magnitude = some x := by
  unfold ofDouble
  rw [layout_neg, magnitude_layout]
  exact x.round_shortest

/-- `2 ** -24`, whose neighbours are not equally far. -/
example : (ofDouble ⟨false, 2 ^ 52, -76, by decide, by decide, by decide, by decide⟩).text =
    "5.960464477539063e-08".toList := by
  decide +kernel

end Numeral

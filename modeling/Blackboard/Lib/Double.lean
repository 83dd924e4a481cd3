import Mathlib.Algebra.Order.Field.Power
import Mathlib.Data.Int.Log
import Mathlib.Data.Rat.Floor
import Mathlib.Tactic.Linarith
import Mathlib.Tactic.NormNum
import Mathlib.Tactic.FieldSimp
import Mathlib.Tactic.Positivity

/-! IEEE binary64 with Python's text for it: the finite values, the correct rounding of a
rational, and `repr`, the shortest decimal that reads back as the value. -/

/-- A finite value `mantissa * 2 ^ exponent`; zero has a sign. -/
structure Double where
  neg : Bool
  mantissa : ℕ
  exponent : ℤ
  fits : mantissa < 2 ^ 53
  least : -1074 ≤ exponent
  most : exponent ≤ 971
  /-- As large a mantissa as there is room for, so that a value has one representation. -/
  normal : exponent = -1074 ∨ 2 ^ 52 ≤ mantissa
deriving DecidableEq

namespace Double

def magnitude (x : Double) : ℚ := x.mantissa * (2 : ℚ) ^ x.exponent

def value (x : Double) : ℚ := if x.neg then -x.magnitude else x.magnitude

def isNegZero (x : Double) : Bool := x.neg && x.mantissa = 0

theorem magnitude_nonneg (x : Double) : 0 ≤ x.magnitude := by
  unfold magnitude
  positivity

/-! Reading. -/

/-- To the nearest integer, of two to the even one. -/
def roundEven (q : ℚ) : ℕ :=
  let n := ⌊q⌋₊
  let r := q - n
  if r < 1 / 2 ∨ r = 1 / 2 ∧ n % 2 = 0 then n else n + 1

def ofParts (neg : Bool) (m : ℕ) (e : ℤ) : Option Double :=
  if h : m < 2 ^ 53 ∧ -1074 ≤ e ∧ e ≤ 971 ∧ (e = -1074 ∨ 2 ^ 52 ≤ m) then
    some ⟨neg, m, e, h.1, h.2.1, h.2.2.1, h.2.2.2⟩
  else none

/-- The double nearest to a rational that is not negative; `none` where it would be infinite. -/
def round (neg : Bool) (q : ℚ) : Option Double :=
  let e := max (-1074) (Int.log 2 q - 52)
  let m := roundEven (q / (2 : ℚ) ^ e)
  if m = 0 then ofParts neg 0 (-1074)
  else if m = 2 ^ 53 then ofParts neg (2 ^ 52) (e + 1)
  else ofParts neg m e

theorem roundEven_natCast (n : ℕ) : roundEven n = n := by
  unfold roundEven
  simp

theorem ofParts_self (x : Double) : ofParts x.neg x.mantissa x.exponent = some x :=
  dif_pos ⟨x.fits, x.least, x.most, x.normal⟩

/-- The exponent that was used is the one rounding finds. -/
theorem exponent_eq (x : Double) (h : x.mantissa ≠ 0) :
    max (-1074) (Int.log 2 x.magnitude - 52) = x.exponent := by
  have hm : (0 : ℚ) < x.mantissa := by exact_mod_cast Nat.pos_of_ne_zero h
  have hpos : 0 < x.magnitude := by
    unfold magnitude
    positivity
  have hlt : Int.log 2 x.magnitude < x.exponent + 53 := by
    rw [← Int.lt_zpow_iff_log_lt (by norm_num) hpos, magnitude, zpow_add₀ (by norm_num)]
    have hf : (x.mantissa : ℚ) < 2 ^ (53 : ℤ) := by exact_mod_cast x.fits
    have h2 : (0 : ℚ) < (2 : ℚ) ^ x.exponent := by positivity
    push_cast
    rw [mul_comm]
    exact mul_lt_mul_of_pos_left hf h2
  rcases x.normal with he | hn
  · rw [he] at hlt ⊢
    omega
  · have hge : x.exponent + 52 ≤ Int.log 2 x.magnitude := by
      rw [← Int.zpow_le_iff_le_log (by norm_num) hpos, magnitude, zpow_add₀ (by norm_num)]
      have hf : (2 : ℚ) ^ (52 : ℤ) ≤ x.mantissa := by exact_mod_cast hn
      have h2 : (0 : ℚ) < (2 : ℚ) ^ x.exponent := by positivity
      push_cast
      rw [mul_comm (x.mantissa : ℚ)]
      exact mul_le_mul_of_nonneg_left hf h2.le
    have := x.least
    omega

/-- A double reads back as itself. -/
theorem round_magnitude (x : Double) : round x.neg x.magnitude = some x := by
  by_cases h : x.mantissa = 0
  · have hz : x.magnitude = 0 := by simp [magnitude, h]
    have he : x.exponent = -1074 := x.normal.resolve_right (by rw [h]; norm_num)
    have hr : roundEven (0 / (2 : ℚ) ^ max (-1074) (Int.log 2 (0 : ℚ) - 52)) = 0 := by
      rw [zero_div]
      exact_mod_cast roundEven_natCast 0
    unfold round
    dsimp only
    rw [hz, if_pos hr, ← h, ← he, ofParts_self]
  · have h2 : (2 : ℚ) ^ x.exponent ≠ 0 := by positivity
    have hr : roundEven (x.magnitude / (2 : ℚ) ^ x.exponent) = x.mantissa := by
      rw [magnitude, mul_div_cancel_right₀ _ h2, roundEven_natCast]
    unfold round
    dsimp only
    rw [exponent_eq x h, hr, if_neg h, if_neg (by have := x.fits; omega), ofParts_self]

/-! Writing: the shortest decimal `d * 10 ^ k`. -/

def decimal (x : ℕ × ℤ) : ℚ := x.1 * (10 : ℚ) ^ x.2

/-- The power of ten of the last of `n` digits. -/
def lastPlace (x : Double) (n : ℕ) : ℤ := Int.log 10 x.magnitude + 1 - n

def scaled (x : Double) (n : ℕ) : ℚ := x.magnitude / (10 : ℚ) ^ x.lastPlace n

/-- A decimal of `n` digits that reads back as the value: the nearest one, else the one on the other side, which is
within the bounds where they are not equally far, as at a power of two. -/
def tryDigits (x : Double) (n : ℕ) : Option (ℕ × ℤ) :=
  ([roundEven (x.scaled n), ⌊x.scaled n⌋₊, ⌊x.scaled n⌋₊ + 1].find? fun d =>
    round x.neg (decimal (d, x.lastPlace n)) = some x).map fun d => (d, x.lastPlace n)

/-- Every double is a decimal. -/
def exact (x : Double) : ℕ × ℤ :=
  if 0 ≤ x.exponent then (x.mantissa * 2 ^ x.exponent.toNat, 0)
  else (x.mantissa * 5 ^ (-x.exponent).toNat, x.exponent)

theorem decimal_exact (x : Double) : decimal x.exact = x.magnitude := by
  unfold exact decimal magnitude
  split_ifs with h
  · obtain ⟨n, hn⟩ := Int.eq_ofNat_of_zero_le h
    rw [hn]
    simp
  · obtain ⟨n, hn⟩ := Int.eq_ofNat_of_zero_le (show 0 ≤ -x.exponent by omega)
    have he : x.exponent = -(n : ℤ) := by omega
    rw [he]
    simp only [neg_neg, Int.toNat_natCast, zpow_neg, zpow_natCast]
    push_cast
    rw [show (10 : ℚ) = 5 * 2 by norm_num, mul_pow]
    field_simp

/-- Without the zeros at the end. -/
def strip : ℕ → ℕ × ℤ → ℕ × ℤ
  | 0, x => x
  | fuel + 1, (d, k) => if d ≠ 0 ∧ d % 10 = 0 then strip fuel (d / 10, k + 1) else (d, k)

theorem decimal_strip (fuel : ℕ) (x : ℕ × ℤ) : decimal (strip fuel x) = decimal x := by
  induction fuel generalizing x with
  | zero => rfl
  | succ fuel ih =>
    obtain ⟨d, k⟩ := x
    unfold strip
    split_ifs with h
    · rw [ih]
      obtain ⟨m, rfl⟩ := Nat.dvd_of_mod_eq_zero h.2
      rw [Nat.mul_div_cancel_left m (by norm_num)]
      simp only [decimal]
      rw [zpow_add₀ (by norm_num)]
      push_cast
      ring
    · rfl

def shortest (x : Double) : ℕ × ℤ :=
  strip 17 (((List.range 17).findSome? fun n => x.tryDigits (n + 1)).getD x.exact)

theorem scaled_nonneg (x : Double) (n : ℕ) : 0 ≤ x.scaled n := by
  have hm := x.magnitude_nonneg
  unfold scaled
  positivity

theorem roundEven_mem (q : ℚ) : roundEven q = ⌊q⌋₊ ∨ roundEven q = ⌊q⌋₊ + 1 := by
  unfold roundEven
  dsimp only
  split_ifs
  · exact .inl rfl
  · exact .inr rfl

theorem tryDigits_some {x : Double} {n : ℕ} {y : ℕ × ℤ} (h : x.tryDigits n = some y) :
    round x.neg (decimal y) = some x ∧ y.1 ≤ ⌊x.scaled n⌋₊ + 1 := by
  obtain ⟨d, hd, rfl⟩ := Option.map_eq_some_iff.mp h
  refine ⟨by simpa using List.find?_some hd, ?_⟩
  have hmem := List.mem_of_find?_eq_some hd
  have := roundEven_mem (x.scaled n)
  simp only [List.mem_cons, List.not_mem_nil, or_false] at hmem
  dsimp only
  omega

theorem round_shortest (x : Double) : round x.neg (decimal x.shortest) = some x := by
  unfold shortest
  rw [decimal_strip]
  cases h : (List.range 17).findSome? fun n => x.tryDigits (n + 1) with
  | none =>
    rw [Option.getD_none, decimal_exact]
    exact round_magnitude x
  | some y =>
    obtain ⟨n, -, hn⟩ := List.exists_of_findSome?_eq_some h
    exact (tryDigits_some hn).1

/-! What `shortest` looks like. -/

theorem strip_le (fuel : ℕ) (x : ℕ × ℤ) : x.2 ≤ (strip fuel x).2 := by
  induction fuel generalizing x with
  | zero => exact le_rfl
  | succ fuel ih =>
    obtain ⟨d, k⟩ := x
    unfold strip
    split_ifs with h
    · exact le_trans (by simp) (ih (d / 10, k + 1))
    · exact le_rfl

theorem strip_zero (fuel : ℕ) (k : ℤ) : strip fuel (0, k) = (0, k) := by
  cases fuel <;> simp [strip]

/-- The digits that are tried are as many as they should be, or a power of ten. -/
theorem tryDigits_le {x : Double} {n d : ℕ} {k : ℤ} (h : x.tryDigits n = some (d, k)) : d ≤ 10 ^ n := by
  refine (tryDigits_some h).2.trans ((Nat.floor_lt (x.scaled_nonneg n)).mpr ?_)
  rw [scaled, div_lt_iff₀ (by positivity)]
  have hlog := Int.lt_zpow_succ_log_self (b := 10) (by norm_num) x.magnitude
  rw [show Int.log 10 x.magnitude + 1 = n + x.lastPlace n by unfold lastPlace; ring, zpow_add₀ (by norm_num)] at hlog
  simpa using hlog

theorem round_zero (neg : Bool) : round neg 0 = ofParts neg 0 (-1074) := by
  have hr : roundEven (0 / (2 : ℚ) ^ max (-1074) (Int.log 2 (0 : ℚ) - 52)) = 0 := by
    rw [zero_div]
    exact_mod_cast roundEven_natCast 0
  unfold round
  dsimp only
  rw [if_pos hr]

theorem mantissa_of_shortest {x : Double} (h : x.shortest.1 = 0) : x.mantissa = 0 := by
  have hr := x.round_shortest
  rw [decimal, h, Nat.cast_zero, zero_mul, round_zero, ofParts, dif_pos (by norm_num)] at hr
  rw [← Option.some.inj hr]

theorem shortest_of_mantissa {x : Double} (h : x.mantissa = 0) : x.shortest.1 = 0 := by
  have hz : x.magnitude = 0 := by simp [magnitude, h]
  have ht : ∀ n y, x.tryDigits n = some y → y.1 = 0 := by
    intro n y hy
    have hq : x.scaled n = 0 := by simp [scaled, hz]
    have h0 : roundEven (x.scaled n) = 0 := by
      rw [hq]
      exact_mod_cast roundEven_natCast 0
    have hback : round x.neg (decimal (0, x.lastPlace n)) = some x := by
      rw [← x.round_magnitude, hz, decimal, Nat.cast_zero, zero_mul]
    rw [tryDigits, h0, List.find?_cons_of_pos (by simpa using hback)] at hy
    rw [← Option.some.inj hy]
  have he : x.exact.1 = 0 := by
    unfold exact
    split_ifs <;> simp [h]
  unfold shortest
  have hd : (((List.range 17).findSome? fun n => x.tryDigits (n + 1)).getD x.exact).1 = 0 := by
    cases hf : (List.range 17).findSome? fun n => x.tryDigits (n + 1) with
    | none => exact he
    | some z =>
      obtain ⟨n, -, hn⟩ := List.exists_of_findSome?_eq_some hf
      exact ht _ _ hn
  rw [← Prod.mk.eta (p := Option.getD _ _), hd, strip_zero]

/-- From `10 ^ 16` on the shortest decimal has no digits after the point. -/
theorem shortest_integral {x : Double} (h : (10 : ℚ) ^ 16 ≤ decimal x.shortest) : 0 ≤ x.shortest.2 := by
  unfold shortest at h ⊢
  rw [decimal_strip] at h
  cases hf : (List.range 17).findSome? fun n => x.tryDigits (n + 1) with
  | none =>
    rw [hf, Option.getD_none, decimal_exact] at h
    rw [Option.getD_none]
    refine le_trans ?_ (strip_le _ _)
    unfold exact
    split_ifs with he
    · exact le_rfl
    · exfalso
      have hm : (x.mantissa : ℚ) < 2 ^ 53 := by exact_mod_cast x.fits
      have hz : (2 : ℚ) ^ x.exponent ≤ 1 := zpow_le_one_of_nonpos₀ (by norm_num) (by omega)
      have : x.magnitude ≤ x.mantissa := mul_le_of_le_one_right (by positivity) hz
      linarith
  | some y =>
    obtain ⟨n, hn, hy⟩ := List.exists_of_findSome?_eq_some hf
    obtain ⟨d, k⟩ := y
    rw [hf, Option.getD_some] at h
    rw [Option.getD_some]
    rcases le_or_gt 0 k with hk | hk
    · exact le_trans hk (strip_le _ _)
    · -- only `10 ^ 17` has room for a digit after the point, and it has no such digit
      have hd := tryDigits_le hy
      have hn17 : n + 1 ≤ 17 := List.mem_range.mp hn
      have hd17 : d ≤ 10 ^ 17 := hd.trans (Nat.pow_le_pow_right (by norm_num) hn17)
      obtain ⟨m, hm⟩ := Int.eq_ofNat_of_zero_le (show 0 ≤ -k by omega)
      have hge : (10 : ℚ) ^ 16 * 10 ^ m ≤ d := by
        rw [decimal, show k = -(m : ℤ) by omega, zpow_neg, zpow_natCast, ← div_eq_mul_inv,
          le_div_iff₀ (by positivity)] at h
        exact h
      have hge' : 10 ^ 16 * 10 ^ m ≤ d := by exact_mod_cast hge
      have hm1 : m = 1 := by
        by_contra hne
        have : 10 ^ 2 ≤ 10 ^ m := Nat.pow_le_pow_right (by norm_num) (by omega)
        omega
      subst hm1
      obtain rfl : d = 10 ^ 17 := by omega
      obtain rfl : k = -1 := by omega
      decide

end Double

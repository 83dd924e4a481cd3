import Mathlib.Data.List.Perm.Basic
import Blackboard.Lib.JsonText

/-! A JSON value in a `jsonb` column and out of it again. A number is kept as an exact decimal
and printed without an exponent, and the members of an object come back in some order. A float
is read back as one exactly if its text has no positive exponent; a zero comes back without
its sign. -/

/-- The decimal `unscaled / 10 ^ scale`. Zero has no sign. -/
structure Numeric where
  neg : Bool
  unscaled : ℕ
  scale : ℕ
  zero : unscaled = 0 → neg = false

namespace Numeric

/-- The power of ten of the last digit. -/
def lastPower (x : Numeral) : ℤ := x.exp.getD 0 - x.frac.length

def ofNumeral (x : Numeral) : Numeric where
  neg := x.neg && x.digits ≠ 0
  unscaled := x.digits * 10 ^ (lastPower x).toNat
  scale := (-lastPower x).toNat
  zero h := by simpa using fun _ => h

def numeral (d : Numeric) : Numeral :=
  ⟨d.neg, Nat.toDigits 10 (d.unscaled / 10 ^ d.scale), Numeral.padded d.scale (d.unscaled % 10 ^ d.scale), none⟩

theorem digits_numeral (d : Numeric) : d.numeral.digits = d.unscaled := by
  simp only [numeral, Numeral.digits, Nat.ofDigitChars_append, Nat.ofDigitChars_ten_toDigits]
  rw [Numeral.ofDigitChars_padded (Nat.mod_lt _ (by positivity))]
  exact Nat.div_add_mod' _ _

theorem isInt_numeral (d : Numeric) : d.numeral.isInt = decide (d.scale = 0) := by
  have h := Numeral.length_padded d.scale (d.unscaled % 10 ^ d.scale)
  unfold numeral Numeral.isInt
  simp only [Option.isNone_none, Bool.and_true]
  rw [Bool.eq_iff_iff, List.isEmpty_iff, ← List.length_eq_zero_iff, h]
  simp

theorem isInt_ofNumeral (x : Numeral) : (ofNumeral x).numeral.isInt = true ↔ 0 ≤ lastPower x := by
  rw [isInt_numeral, decide_eq_true_iff]
  simp only [ofNumeral]
  omega

/-- Keeping a number as a decimal does not change it. -/
theorem magnitude_ofNumeral (x : Numeral) : (ofNumeral x).numeral.magnitude = x.magnitude := by
  have hlen := Numeral.length_padded (ofNumeral x).scale ((ofNumeral x).unscaled % 10 ^ (ofNumeral x).scale)
  unfold Numeral.magnitude
  rw [digits_numeral]
  simp only [numeral, Option.getD_none, hlen]
  simp only [ofNumeral]
  rcases le_total 0 (lastPower x) with h | h
  · obtain ⟨n, hn⟩ := Int.eq_ofNat_of_zero_le h
    rw [show x.exp.getD 0 - x.frac.length = (n : ℤ) from hn, hn]
    simp
  · obtain ⟨n, hn⟩ := Int.eq_ofNat_of_zero_le (show 0 ≤ -lastPower x by omega)
    rw [show x.exp.getD 0 - x.frac.length = -(n : ℤ) by unfold lastPower at hn; omega, hn,
      show lastPower x = -(n : ℤ) by omega]
    simp

end Numeric

namespace Json

/-- A number as it comes back from the column. -/
def storedNumber (x : Numeral) : Option Json := ofNumeral (Numeric.ofNumeral x).numeral

mutual

/-- `w` is `v` as it comes back. -/
def ReadBack : Json → Json → Prop
  | num n, w => storedNumber (Numeral.ofInt n) = some w
  | float x, w => storedNumber (Numeral.ofDouble x) = some w
  | arr xs, arr ys => ReadBackAll xs ys
  | obj ms, obj ns => ∃ ls, ReadBackMembers ms ls ∧ ls.Perm ns
  | v, w => v = w

def ReadBackAll : List Json → List Json → Prop
  | [], [] => True
  | x :: xs, y :: ys => ReadBack x y ∧ ReadBackAll xs ys
  | _, _ => False

def ReadBackMembers : List (String × Json) → List (String × Json) → Prop
  | [], [] => True
  | (k, v) :: ms, (l, w) :: ns => k = l ∧ ReadBack v w ∧ ReadBackMembers ms ns
  | _, _ => False

end

theorem readBack_obj {ms ns : List (String × Json)} (h : ReadBackMembers ms ns) : (obj ms).ReadBack (obj ns) :=
  ⟨ns, h, List.Perm.refl _⟩

/-! As every `dict` of Python has it: no two members of one name. -/

mutual

def Distinct : Json → Prop
  | arr xs => DistinctAll xs
  | obj ms => (ms.map Prod.fst).Nodup ∧ DistinctMembers ms
  | _ => True

def DistinctAll : List Json → Prop
  | [] => True
  | x :: xs => Distinct x ∧ DistinctAll xs

def DistinctMembers : List (String × Json) → Prop
  | [] => True
  | (_, v) :: ms => Distinct v ∧ DistinctMembers ms

end

/-- The float is not -0.0, and `repr` writes it without a positive exponent, as it does below
`10 ^ 16`. -/
def keepsFloat (x : Double) : Bool := !x.isNegZero && (Numeral.ofDouble x).exp.all (· < 0)

mutual

def keepsNumbers : Json → Bool
  | float x => keepsFloat x
  | arr xs => keepsNumbersAll xs
  | obj ms => keepsNumbersMembers ms
  | _ => true

def keepsNumbersAll : List Json → Bool
  | [] => true
  | x :: xs => keepsNumbers x && keepsNumbersAll xs

def keepsNumbersMembers : List (String × Json) → Bool
  | [] => true
  | (_, v) :: ms => keepsNumbers v && keepsNumbersMembers ms

end

theorem keepsNumbersMembers_eq (ms : List (String × Json)) :
    keepsNumbersMembers ms = ms.all fun m => m.2.keepsNumbers := by
  induction ms with
  | nil => rfl
  | cons m ms ih => rw [keepsNumbersMembers, ih, List.all_cons]

mutual

/-- The order of members does not matter to it. -/
theorem keepsNumbers_canon : ∀ v : Json, v.canon.keepsNumbers = v.keepsNumbers
  | null | bool _ | num _ | float _ | str _ => rfl
  | arr xs => keepsNumbersAll_canon xs
  | obj ms => by
    rw [canon, keepsNumbers, keepsNumbersMembers_eq,
      List.Perm.all_eq (List.perm_insertionSort (fun a b : String × Json => a.1 ≤ b.1) (canonMembers ms)),
      ← keepsNumbersMembers_eq, keepsNumbersMembers_canon ms, keepsNumbers]

theorem keepsNumbersAll_canon : ∀ xs : List Json, keepsNumbersAll (canonAll xs) = keepsNumbersAll xs
  | [] => rfl
  | x :: xs => by rw [canonAll, keepsNumbersAll, keepsNumbers_canon x, keepsNumbersAll_canon xs, keepsNumbersAll]

theorem keepsNumbersMembers_canon : ∀ ms : List (String × Json),
    keepsNumbersMembers (canonMembers ms) = keepsNumbersMembers ms
  | [] => rfl
  | (k, v) :: ms => by
    rw [canonMembers, keepsNumbersMembers, keepsNumbers_canon v, keepsNumbersMembers_canon ms, keepsNumbersMembers]

end

theorem storedNumber_ofInt (n : ℤ) : storedNumber (Numeral.ofInt n) = some (num n) := by
  have hp : Numeric.lastPower (Numeral.ofInt n) = 0 := rfl
  have hd : (Numeral.ofInt n).digits = n.natAbs := by
    rw [Numeral.digits, Numeral.ofInt, List.append_nil, Nat.ofDigitChars_ten_toDigits]
  rw [storedNumber, ofNumeral, if_pos ((Numeric.isInt_ofNumeral _).mpr hp.ge)]
  congr 2
  rw [Numeral.int, Numeric.digits_numeral]
  simp only [Numeric.numeral, Numeric.ofNumeral, hp, hd, Int.toNat_zero, pow_zero, mul_one]
  by_cases hn : n < 0
  · rw [if_pos (by simp [Numeral.ofInt, hn]; omega)]
    omega
  · rw [if_neg (by simp [Numeral.ofInt, hn])]
    omega

theorem digits_ofDouble (x : Double) : (Numeral.ofDouble x).digits = 0 ↔ x.mantissa = 0 := by
  have hm := Numeral.magnitude_layout x.neg x.shortest.1 x.shortest.2
  rw [← Numeral.ofDouble, Numeral.magnitude] at hm
  have h10 : ∀ k : ℤ, (10 : ℚ) ^ k ≠ 0 := fun k => by positivity
  constructor
  · intro h
    rw [h, Nat.cast_zero, zero_mul, eq_comm, mul_eq_zero_iff_right (h10 _)] at hm
    exact Double.mantissa_of_shortest (by exact_mod_cast hm)
  · intro h
    rw [Double.shortest_of_mantissa h, Nat.cast_zero, zero_mul, mul_eq_zero_iff_right (h10 _)] at hm
    exact_mod_cast hm

theorem pow_length_le {d : ℕ} (h : d ≠ 0) : 10 ^ ((Nat.toDigits 10 d).length - 1) ≤ d := by
  by_contra hlt
  rcases Nat.eq_zero_or_pos ((Nat.toDigits 10 d).length - 1) with h0 | hpos
  · rw [h0] at hlt
    omega
  · have := (Nat.length_toDigits_le_iff (by norm_num) hpos).mpr (Nat.lt_of_not_le hlt)
    omega

/-- The last digit of a float stands after the point, unless its text has a positive exponent. -/
theorem lastPower_layout {neg : Bool} {d : ℕ} {k : ℤ} (h : (10 : ℚ) ^ 16 ≤ d * (10 : ℚ) ^ k → 0 ≤ k) :
    0 ≤ Numeric.lastPower (Numeral.layout neg d k) ↔ ¬ (Numeral.layout neg d k).exp.all (· < 0) = true := by
  have hpos : 0 < (Nat.toDigits 10 d).length := Nat.length_toDigits_pos
  unfold Numeral.layout Numeric.lastPower
  dsimp only
  split_ifs with h0 h1 h2 h3
  · simp
  · simp only [Option.getD_some, List.length_drop, Option.all_some, decide_eq_true_eq]
    rcases h1 with h1 | h1
    · omega
    · have hd : (10 : ℚ) ^ ((Nat.toDigits 10 d).length - 1 : ℤ) ≤ d := by
        have := pow_length_le h0
        rw [show ((Nat.toDigits 10 d).length - 1 : ℤ) = (((Nat.toDigits 10 d).length - 1 : ℕ) : ℤ) by omega,
          zpow_natCast]
        exact_mod_cast this
      have hk : 0 ≤ k := h <| by
        calc (10 : ℚ) ^ 16 = (10 : ℚ) ^ (16 : ℤ) := by norm_num
          _ ≤ (10 : ℚ) ^ (((Nat.toDigits 10 d).length - 1 : ℤ) + k) := zpow_le_zpow_right₀ (by norm_num) (by omega)
          _ = (10 : ℚ) ^ ((Nat.toDigits 10 d).length - 1 : ℤ) * (10 : ℚ) ^ k := zpow_add₀ (by norm_num) _ _
          _ ≤ d * (10 : ℚ) ^ k := mul_le_mul_of_nonneg_right hd (by positivity)
      omega
  · simp
  · simp
    omega
  · simp

theorem lastPower_ofDouble (x : Double) :
    0 ≤ Numeric.lastPower (Numeral.ofDouble x) ↔ ¬ (Numeral.ofDouble x).exp.all (· < 0) = true :=
  lastPower_layout x.shortest_integral

theorem storedNumber_ofDouble {x : Double} {w : Json} (h : storedNumber (Numeral.ofDouble x) = some w) :
    w = float x ↔ keepsFloat x = true := by
  have hneg : (Numeral.ofDouble x).neg = x.neg := Numeral.layout_neg _ _ _
  have hx := Numeral.round_ofDouble x
  rw [hneg] at hx
  rw [storedNumber, ofNumeral] at h
  rcases lt_or_ge (Numeric.lastPower (Numeral.ofDouble x)) 0 with hp | hp
  · have hexp : (Numeral.ofDouble x).exp.all (· < 0) = true := by
      by_contra hc
      have := (lastPower_ofDouble x).mpr hc
      omega
    rw [if_neg fun hc => by have := (Numeric.isInt_ofNumeral _).mp hc; omega, Numeric.magnitude_ofNumeral] at h
    obtain ⟨y, hy, rfl⟩ := Option.map_eq_some_iff.mp h
    have hsign : (Numeric.ofNumeral (Numeral.ofDouble x)).numeral.neg = (x.neg && !decide (x.mantissa = 0)) := by
      simp [Numeric.numeral, Numeric.ofNumeral, hneg, digits_ofDouble]
    rw [hsign] at hy
    rw [float.injEq, keepsFloat, hexp, Bool.and_true, Double.isNegZero]
    cases hn : x.neg <;> cases hm : decide (x.mantissa = 0) <;> rw [hn, hm] at hy <;> simp only [hn] at hx
    · exact ⟨fun _ => rfl, fun _ => Option.some.inj (hy.symm.trans hx)⟩
    · exact ⟨fun _ => rfl, fun _ => Option.some.inj (hy.symm.trans hx)⟩
    · exact ⟨fun _ => rfl, fun _ => Option.some.inj (hy.symm.trans hx)⟩
    · refine ⟨?_, fun h => by cases h⟩
      rintro rfl
      -- a zero read without a sign has none
      have hz : (Numeral.ofDouble y).magnitude = 0 := by
        rw [Numeral.magnitude, (digits_ofDouble y).mpr (of_decide_eq_true hm), Nat.cast_zero, zero_mul]
      rw [hz, Double.round_zero, Double.ofParts, dif_pos (by norm_num)] at hy
      rw [← Option.some.inj hy] at hn
      cases hn
  · rw [if_pos ((Numeric.isInt_ofNumeral _).mpr hp)] at h
    obtain rfl := Option.some.inj h
    have hexp := (lastPower_ofDouble x).mp hp
    simp [keepsFloat, hexp]

/-! Members. -/

theorem ReadBackMembers.keys {ms ns : List (String × Json)} (h : ReadBackMembers ms ns) :
    ms.map Prod.fst = ns.map Prod.fst := by
  induction ms generalizing ns with
  | nil =>
    cases ns with
    | nil => rfl
    | cons n ns => exact h.elim
  | cons m ms ih =>
    cases ns with
    | nil => exact h.elim
    | cons n ns =>
      obtain ⟨hk, -, h⟩ := h
      rw [List.map_cons, List.map_cons, ih h, hk]

theorem eq_of_key {ms : List (String × Json)} (hd : (ms.map Prod.fst).Nodup) {a b : String × Json} (ha : a ∈ ms)
    (hb : b ∈ ms) (h : a.1 = b.1) : a = b :=
  List.inj_on_of_nodup_map hd ha hb h

/-- Sorting by name forgets the order the members had. -/
theorem sort_perm {ms ns : List (String × Json)} (h : ms.Perm ns) (hd : (ms.map Prod.fst).Nodup) :
    (ms.insertionSort fun a b => a.1 ≤ b.1) = ns.insertionSort fun a b => a.1 ≤ b.1 := by
  refine List.Perm.eq_of_pairwise (fun a b ha hb hab hba => ?_) (sorted_byName ms) (sorted_byName ns)
    (((List.perm_insertionSort _ ms).trans h).trans (List.perm_insertionSort _ ns).symm)
  exact eq_of_key hd ((List.mem_insertionSort _).mp ha) (h.mem_iff.mpr ((List.mem_insertionSort _).mp hb))
    (String.le_antisymm hab hba)

/-- Lists of one order of names and with the same members are the same. -/
theorem eq_of_subset {ms ns : List (String × Json)} (hk : ms.map Prod.fst = ns.map Prod.fst)
    (hd : (ns.map Prod.fst).Nodup) (h : ms ⊆ ns) : ms = ns := by
  induction ms generalizing ns with
  | nil =>
    cases ns with
    | nil => rfl
    | cons n ns => cases hk
  | cons m ms ih =>
    cases ns with
    | nil => cases hk
    | cons n ns =>
      obtain ⟨hmn, htl⟩ := List.cons.inj hk
      have hnew := (List.nodup_cons.mp hd).1
      have he : m = n := eq_of_key hd (h List.mem_cons_self) List.mem_cons_self hmn
      rw [he, ih htl (List.nodup_cons.mp hd).2 fun x hx => ?_]
      rcases List.mem_cons.mp (h (List.mem_cons_of_mem _ hx)) with rfl | hx'
      · exact absurd (htl ▸ List.mem_map_of_mem hx) hnew
      · exact hx'

/-- Sorting by name loses nothing else. -/
theorem sort_inj {ms ns : List (String × Json)} (hk : ms.map Prod.fst = ns.map Prod.fst) (hd : (ns.map Prod.fst).Nodup)
    (h : (ms.insertionSort fun a b => a.1 ≤ b.1) = ns.insertionSort fun a b => a.1 ≤ b.1) : ms = ns := by
  refine eq_of_subset hk hd fun x hx => ?_
  rw [← List.mem_insertionSort (fun a b => a.1 ≤ b.1), ← h]
  exact (List.mem_insertionSort _).mpr hx

theorem alike_obj {ms ns : List (String × Json)} (hk : ms.map Prod.fst = ns.map Prod.fst)
    (hd : (ns.map Prod.fst).Nodup) : (obj ms).Alike (obj ns) ↔ canonMembers ms = canonMembers ns := by
  rw [Alike, canon, canon, obj.injEq]
  refine ⟨sort_inj ?_ ?_, fun h => by rw [h]⟩
  · simpa only [canonMembers_eq, List.map_map, Function.comp_def] using hk
  · simpa only [canonMembers_eq, List.map_map, Function.comp_def] using hd

theorem alike_obj_length {ms ns : List (String × Json)} (h : (obj ms).Alike (obj ns)) : ms.length = ns.length := by
  rw [Alike, canon, canon, obj.injEq] at h
  simpa [canonMembers_eq] using congrArg List.length h

mutual

/-- A value comes back as the same one, up to the order of members, exactly if its floats do. -/
theorem ReadBack.alike_iff : ∀ (v w : Json), v.Distinct → ReadBack v w → (w.canon = v.canon ↔ v.keepsNumbers = true)
  | null, w, _, h => by
    obtain rfl : null = w := by simpa [ReadBack] using h
    simp [keepsNumbers]
  | bool b, w, _, h => by
    obtain rfl : bool b = w := by simpa [ReadBack] using h
    simp [keepsNumbers]
  | str s, w, _, h => by
    obtain rfl : str s = w := by simpa [ReadBack] using h
    simp [keepsNumbers]
  | num n, w, _, h => by
    rw [ReadBack, storedNumber_ofInt] at h
    obtain rfl := Option.some.inj h
    simp [keepsNumbers]
  | float x, w, _, h => by
    rw [ReadBack] at h
    rw [keepsNumbers, ← storedNumber_ofDouble h]
    cases w <;> simp [canon]
  | arr xs, w, hd, h => by
    cases w with
    | arr ys =>
      rw [canon, canon, arr.injEq, keepsNumbers]
      exact ReadBack.all_iff xs ys hd h
    | _ => exact absurd h (by simp [ReadBack])
  | obj ms, w, hd, h => by
    cases w with
    | obj ns =>
      obtain ⟨ls, hls, hperm⟩ := h
      have hkeys : (canonMembers ls).map Prod.fst = (canonMembers ms).map Prod.fst := by
        simp only [canonMembers_eq, List.map_map, Function.comp_def]
        exact hls.keys.symm
      have hnodup : ((canonMembers ms).map Prod.fst).Nodup := by
        simpa only [canonMembers_eq, List.map_map, Function.comp_def] using hd.1
      have hcanon : (canonMembers ls).Perm (canonMembers ns) := by
        rw [canonMembers_eq, canonMembers_eq]
        exact hperm.map _
      have hsort := sort_perm hcanon (hkeys ▸ hnodup)
      rw [canon, canon, obj.injEq, keepsNumbers, ← ReadBack.members_iff ms ls hd.2 hls, ← hsort]
      exact ⟨sort_inj hkeys hnodup, fun h => by rw [h]⟩
    | _ => exact absurd h (by simp [ReadBack])

theorem ReadBack.all_iff : ∀ xs ys : List Json, DistinctAll xs → ReadBackAll xs ys →
    (canonAll ys = canonAll xs ↔ keepsNumbersAll xs = true)
  | [], ys, _, h => by
    cases ys with
    | nil => simp [keepsNumbersAll]
    | cons y ys => exact h.elim
  | x :: xs, ys, hd, h => by
    cases ys with
    | nil => exact h.elim
    | cons y ys =>
      rw [canonAll, canonAll, List.cons.injEq, keepsNumbersAll, Bool.and_eq_true,
        ReadBack.alike_iff x y hd.1 h.1, ReadBack.all_iff xs ys hd.2 h.2]

theorem ReadBack.members_iff : ∀ ms ns : List (String × Json), DistinctMembers ms → ReadBackMembers ms ns →
    (canonMembers ns = canonMembers ms ↔ keepsNumbersMembers ms = true)
  | [], ns, _, h => by
    cases ns with
    | nil => simp [keepsNumbersMembers]
    | cons n ns => exact h.elim
  | (k, v) :: ms, ns, hd, h => by
    cases ns with
    | nil => exact h.elim
    | cons n ns =>
      obtain ⟨l, w⟩ := n
      obtain ⟨rfl, hv, hms⟩ := h
      rw [canonMembers, canonMembers, List.cons.injEq, Prod.mk.injEq, keepsNumbersMembers, Bool.and_eq_true,
        ReadBack.alike_iff v w hd.1 hv, ReadBack.members_iff ms ns hd.2 hms]
      simp

end

end Json

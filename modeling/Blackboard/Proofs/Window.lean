import Blackboard.Proofs.Policy
import Mathlib.Tactic.Linarith
import Mathlib.Tactic.NormNum

/-! The change window. Its ends are whole minutes, and 24:00 is read as the last microsecond of the
day, which the half-open comparison then leaves out. -/

namespace Blackboard.Policy

/-- `HH:MM`, with 24:00 for the end of the day. -/
def hhmm (minute : ℕ) : String := Text.pad2 (minute / 60) ++ ":" ++ Text.pad2 (minute % 60)

def windowText (start stop : ℕ) : String := hhmm start ++ "-" ++ hhmm stop

/-- An aware `datetime`: what its clock shows and its offset from UTC, in microseconds. -/
structure Aware where
  wall : ℤ
  offset : ℤ

namespace Aware

/-- `astimezone(UTC)` -/
def utc (d : Aware) : ℤ := d.wall - d.offset

def instant (d : Aware) : Time := (d.utc : ℚ) / 1000000

/-- Microseconds since midnight, UTC. -/
def timeOfDay (d : Aware) : ℤ := d.utc % 86400000000

end Aware

/-- Whether a window of these minutes is open at this microsecond of the day. -/
def OpenAt (start stop : ℕ) (t : ℤ) : Prop :=
  if start ≤ stop then 60000000 * (start : ℤ) ≤ t ∧ t < 60000000 * (stop : ℤ)
  else 60000000 * (start : ℤ) ≤ t ∨ t < 60000000 * (stop : ℤ)

instance (start stop : ℕ) (t : ℤ) : Decidable (OpenAt start stop t) := by
  unfold OpenAt; infer_instance

theorem pad2_chars : ∀ n : Fin 100, (Text.pad2 n).toList = [Nat.digitChar (n / 10), Nat.digitChar (n % 10)] := by decide

theorem int?_pad2 : ∀ n : Fin 100, Strings.int? (Text.pad2 n).toList = some (n : ℤ) := by decide

theorem digitChar_plain : ∀ d : Fin 10, Lines.isSpace (Nat.digitChar d) = false ∧ Nat.digitChar d ≠ ':' ∧
    Nat.digitChar d ≠ '-' := by
  decide

theorem partition_append {c : Char} {a b : List Char} (h : c ∉ a) : Text.partition c (a ++ c :: b) = (a, b) := by
  have hne : ∀ d ∈ a, decide (d ≠ c) = true := fun d hd => decide_eq_true fun he => h (he ▸ hd)
  rw [Text.partition, List.takeWhile_append_of_pos hne, List.dropWhile_append_of_pos hne]
  simp

theorem hhmm_chars (s : ℕ) (hs : s ≤ 1440) :
    ∃ a b c d : Fin 10, (hhmm s).toList =
      [Nat.digitChar a, Nat.digitChar b, ':', Nat.digitChar c, Nat.digitChar d] := by
  have hh : s / 60 < 100 := by omega
  have hm : s % 60 < 100 := by omega
  refine ⟨⟨s / 60 / 10, by omega⟩, ⟨s / 60 % 10, by omega⟩, ⟨s % 60 / 10, by omega⟩, ⟨s % 60 % 10, by omega⟩, ?_⟩
  have h1 := pad2_chars ⟨s / 60, hh⟩
  have h2 := pad2_chars ⟨s % 60, hm⟩
  simp only [hhmm, String.toList_append, h1, h2]
  rfl

theorem strip_hhmm (s : ℕ) (hs : s ≤ 1440) : Strings.strip Lines.isSpace (hhmm s).toList = (hhmm s).toList := by
  obtain ⟨a, b, c, d, h⟩ := hhmm_chars s hs
  rw [h]
  refine Strings.strip_of_none ?_
  simp only [List.forall_mem_cons, List.not_mem_nil, false_implies, implies_true, and_true,
    (digitChar_plain _).1, true_and]
  decide

theorem dash_not_mem_hhmm (s : ℕ) (hs : s ≤ 1440) : '-' ∉ (hhmm s).toList := by
  obtain ⟨a, b, c, d, h⟩ := hhmm_chars s hs
  rw [h]
  simp [(digitChar_plain a).2.2.symm, (digitChar_plain b).2.2.symm, (digitChar_plain c).2.2.symm,
    (digitChar_plain d).2.2.symm]

theorem partition_hhmm (s : ℕ) (hs : s ≤ 1440) :
    Text.partition ':' (hhmm s).toList = ((Text.pad2 (s / 60)).toList, (Text.pad2 (s % 60)).toList) := by
  have hh := pad2_chars ⟨s / 60, by omega⟩
  have hcolon : ':' ∉ (Text.pad2 (s / 60)).toList := by
    rw [hh]
    have h1 := digitChar_plain ⟨s / 60 / 10, by omega⟩
    have h2 := digitChar_plain ⟨s / 60 % 10, by omega⟩
    simp only [List.mem_cons, List.not_mem_nil, or_false, not_or]
    exact ⟨h1.2.1.symm, h2.2.1.symm⟩
  rw [hhmm, String.toList_append, String.toList_append, List.append_assoc]
  exact partition_append hcolon

/-- An end as the code reads it, in microseconds since midnight. -/
def edge (minute : ℕ) : ℤ := if minute = 1440 then 86399999999 else 60000000 * minute

theorem number_pad2 {n : ℕ} (h : n < 100) : number (Text.pad2 n).toList = .ok (n : ℤ) := by
  have hint : Strings.int? (Text.pad2 n).toList = some (n : ℤ) := int?_pad2 ⟨n, h⟩
  rw [number, hint]

theorem cInt_natCast {n : ℕ} (h : n < 100) : cInt (n : ℤ) = .ok (n : ℤ) := by
  rw [cInt, if_neg (by omega), if_neg (by omega), if_neg (by omega)]

theorem clock_hhmm (s : ℕ) (hs : s ≤ 1440) : clock (hhmm s).toList = .ok ((edge s : ℚ) / 1000000) := by
  have hh : s / 60 < 100 := by omega
  have hm : s % 60 < 100 := by omega
  have hne : (Text.pad2 (s % 60)).toList.isEmpty = false := by
    rw [show (Text.pad2 (s % 60)).toList = _ from pad2_chars ⟨s % 60, hm⟩]
    rfl
  rw [clock, strip_hhmm s hs, partition_hhmm s hs]
  simp only [hne, Bool.false_eq_true, if_false, number_pad2 hh, number_pad2 hm, cInt_natCast hh, cInt_natCast hm, bind,
    Except.bind]
  by_cases h24 : s = 1440
  · subst h24
    norm_num [edge]
  · have hhour : ¬ (((s / 60 : ℕ) : ℤ) = 24 ∧ ((s % 60 : ℕ) : ℤ) = 0) := by omega
    rw [if_neg hhour, if_neg (by omega), if_neg (by omega), edge, if_neg h24]
    have hsum : (s : ℚ) = 60 * ((s / 60 : ℕ) : ℚ) + ((s % 60 : ℕ) : ℚ) := by exact_mod_cast (Nat.div_add_mod s 60).symm
    have hsecs : (60000000 * (s : ℚ)) / 1000000 = 3600 * ((s / 60 : ℕ) : ℚ) + 60 * ((s % 60 : ℕ) : ℚ) := by
      rw [hsum]
      ring
    simp only [Int.cast_natCast, Int.cast_mul, Int.cast_ofNat, hsecs]

theorem timeOfDay_instant (now : Aware) : Text.timeOfDay now.instant = (now.timeOfDay : ℚ) / 1000000 := by
  have hfloor : ⌊now.instant / 86400⌋ = now.utc / 86400000000 := by
    have h : now.instant / 86400 = (now.utc : ℚ) / ((86400000000 : ℕ) : ℚ) := by
      rw [Aware.instant]
      push_cast
      ring
    rw [h, Rat.floor_intCast_div_natCast]
    norm_num
  rw [Text.timeOfDay, hfloor, Aware.instant, Aware.timeOfDay, Int.emod_def]
  push_cast
  ring

theorem timeOfDay_lt (now : Aware) : 0 ≤ now.timeOfDay ∧ now.timeOfDay < 86400000000 := by
  unfold Aware.timeOfDay
  omega

/-- What the code compares, in microseconds. -/
theorem window_ok (ctx : PolicyContext) (s e : ℕ) (hs : s ≤ 1440) (he : e ≤ 1440) (now : Aware) :
    ∃ w, window { ctx with changeWindow := windowText s e, now := now.instant } = .ok w ∧
      (w.ok = true ↔ if edge s ≤ edge e then edge s ≤ now.timeOfDay ∧ now.timeOfDay < edge e
        else edge s ≤ now.timeOfDay ∨ now.timeOfDay < edge e) := by
  have hsplit : Text.partition '-' (windowText s e).toList = ((hhmm s).toList, (hhmm e).toList) := by
    rw [windowText, String.toList_append, String.toList_append, List.append_assoc]
    exact partition_append (dash_not_mem_hhmm s hs)
  have hle : ∀ a b : ℤ, (a : ℚ) / 1000000 ≤ (b : ℚ) / 1000000 ↔ a ≤ b := fun a b => by
    rw [div_le_div_iff_of_pos_right (by norm_num), Int.cast_le]
  have hlt : ∀ a b : ℤ, (a : ℚ) / 1000000 < (b : ℚ) / 1000000 ↔ a < b := fun a b => by
    rw [div_lt_div_iff_of_pos_right (by norm_num), Int.cast_lt]
  simp only [window, hsplit, clock_hhmm s hs, clock_hhmm e he, bind, Except.bind, pure, Except.pure, timeOfDay_instant,
    hle, hlt, Except.ok.injEq, exists_eq_left']
  by_cases h : edge s ≤ edge e
  · simp only [h, if_true, decide_eq_true_eq]
  · simp only [h, if_false, decide_eq_true_eq]

/-- The window is open when its text says so, but for the last microsecond of a day on which one of
the two ends is 24:00. -/
theorem window_open_iff (ctx : PolicyContext) (s e : Fin 1441) (now : Aware) :
    (∃ w, window { ctx with changeWindow := windowText s e, now := now.instant } = .ok w ∧
      (w.ok = true ↔ OpenAt s e now.timeOfDay)) ↔
    ¬ (now.timeOfDay = 86399999999 ∧ (s.val = 1440 ↔ e.val ≠ 1440)) := by
  have hs : s.val ≤ 1440 := by omega
  have he : e.val ≤ 1440 := by omega
  have ht := timeOfDay_lt now
  obtain ⟨w, hw, hok⟩ := window_ok ctx s e hs he now
  have hiff : (∃ w, window { ctx with changeWindow := windowText s e, now := now.instant } = .ok w ∧
      (w.ok = true ↔ OpenAt s e now.timeOfDay)) ↔ (w.ok = true ↔ OpenAt s e now.timeOfDay) := by
    rw [hw]
    simp
  rw [hiff, hok]
  unfold OpenAt edge
  split_ifs <;> omega

/-- The default window is not always open. -/
theorem window_shuts :
    ¬ ∀ (ctx : PolicyContext) (s e : Fin 1441) (now : Aware),
      ∃ w, window { ctx with changeWindow := windowText s e, now := now.instant } = .ok w ∧
        (w.ok = true ↔ OpenAt s e now.timeOfDay) := by
  intro h
  let ctx : PolicyContext := ⟨"cart", [], fun _ => none, "otel-demo", [], 0, .R1, "", 0⟩
  obtain ⟨w, hw, hopen⟩ := h ctx 0 1440 ⟨86399999999, 0⟩
  obtain ⟨w', hw', hok⟩ := window_ok ctx 0 1440 (by decide) (by decide) ⟨86399999999, 0⟩
  obtain rfl : w = w' := Except.ok.inj (hw.symm.trans hw')
  exact absurd (hok.mp (hopen.mpr (by decide))) (by decide)

end Blackboard.Policy

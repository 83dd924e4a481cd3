import Blackboard.Lib.Numeral

/-! Points in time as Python's `datetime` has them in UTC, with `isoformat`: every field has a
fixed width, so the text tells two of them apart. -/

def daysIn (year month : ℕ) : ℕ :=
  if month = 2 then (if year % 4 = 0 ∧ (year % 100 ≠ 0 ∨ year % 400 = 0) then 29 else 28)
  else if month = 4 ∨ month = 6 ∨ month = 9 ∨ month = 11 then 30
  else 31

structure Datetime where
  year : ℕ
  month : ℕ
  day : ℕ
  hour : ℕ
  minute : ℕ
  second : ℕ
  microsecond : ℕ
  date : (1 ≤ year ∧ year ≤ 9999) ∧ (1 ≤ month ∧ month ≤ 12) ∧ 1 ≤ day ∧ day ≤ daysIn year month
  time : hour < 24 ∧ minute < 60 ∧ second < 60 ∧ microsecond < 1000000
deriving DecidableEq

namespace Datetime

open Numeral

def isoformat (t : Datetime) : String :=
  String.ofList (padded 4 t.year ++ '-' :: (padded 2 t.month ++ '-' :: (padded 2 t.day ++ 'T' ::
    (padded 2 t.hour ++ ':' :: (padded 2 t.minute ++ ':' :: (padded 2 t.second ++
      ((if t.microsecond = 0 then [] else '.' :: padded 6 t.microsecond) ++
        ['+', '0', '0', ':', '0', '0'])))))))

theorem day_lt (t : Datetime) : t.day < 10 ^ 2 := by
  have h := t.date.2.2.2
  unfold daysIn at h
  split_ifs at h <;> omega

theorem isoformat_inj {t u : Datetime} : t.isoformat = u.isoformat ↔ t = u := by
  refine ⟨fun h => ?_, fun h => h ▸ rfl⟩
  have h := String.ofList_injective h
  have hd := t.day_lt
  have hd' := u.day_lt
  have ⟨hy, hmo, _⟩ := t.date
  have ⟨hy', hmo', _⟩ := u.date
  have ht := t.time
  have hu := u.time
  obtain ⟨h1, h⟩ := append_padded (by omega) (by omega) h
  obtain ⟨h2, h⟩ := append_padded (by omega) (by omega) (List.cons.inj h).2
  obtain ⟨h3, h⟩ := append_padded hd hd' (List.cons.inj h).2
  obtain ⟨h4, h⟩ := append_padded (by omega) (by omega) (List.cons.inj h).2
  obtain ⟨h5, h⟩ := append_padded (by omega) (by omega) (List.cons.inj h).2
  obtain ⟨h6, h⟩ := append_padded (by omega) (by omega) (List.cons.inj h).2
  have h7 : t.microsecond = u.microsecond := by
    by_cases ht0 : t.microsecond = 0 <;> by_cases hu0 : u.microsecond = 0
    · rw [ht0, hu0]
    · rw [if_pos ht0, if_neg hu0] at h
      exact absurd (List.cons.inj h).1 (by decide)
    · rw [if_neg ht0, if_pos hu0] at h
      exact absurd (List.cons.inj h).1 (by decide)
    · rw [if_neg ht0, if_neg hu0] at h
      exact (append_padded (by omega) (by omega) (List.cons.inj h).2).1
  cases t
  cases u
  simp only [Datetime.mk.injEq]
  exact ⟨h1, h2, h3, h4, h5, h6, h7⟩

end Datetime

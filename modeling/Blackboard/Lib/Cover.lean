import Mathlib.MeasureTheory.Measure.Lebesgue.Basic
import Mathlib.Order.CompletePartialOrder

/-! What a list of sets leaves of another one. The sum of their sizes tells how much that is exactly
if they are apart and inside, or leave nothing. On the line, an interval between two integers has
the length of the unit intervals in it. -/

open MeasureTheory

namespace Cover

section Finite

variable {α : Type} [DecidableEq α]

def union (cs : List (Finset α)) : Finset α := cs.foldr (· ∪ ·) ∅

theorem mem_union {cs : List (Finset α)} {x : α} : x ∈ union cs ↔ ∃ c ∈ cs, x ∈ c := by
  induction cs with
  | nil => simp [union]
  | cons c cs ih => simpa [union] using or_congr_right ih

theorem subset_union {cs : List (Finset α)} {c : Finset α} (h : c ∈ cs) : c ⊆ union cs := fun _ hx =>
  mem_union.mpr ⟨c, h, hx⟩

theorem card_union_le (cs : List (Finset α)) : (union cs).card ≤ (cs.map Finset.card).sum := by
  induction cs with
  | nil => simp [union]
  | cons c cs ih => exact (Finset.card_union_le c (union cs)).trans (by simpa using ih)

/-- None is counted twice exactly if they are apart. -/
theorem card_union_eq (cs : List (Finset α)) : (union cs).card = (cs.map Finset.card).sum ↔ cs.Pairwise Disjoint := by
  induction cs with
  | nil => simp [union]
  | cons c cs ih =>
    have hle := card_union_le cs
    have hsum : (union (c :: cs)).card + (c ∩ union cs).card = c.card + (union cs).card :=
      Finset.card_union_add_card_inter c (union cs)
    have hapart : (c ∩ union cs).card = 0 ↔ ∀ d ∈ cs, Disjoint c d := by
      rw [Finset.card_eq_zero, ← Finset.disjoint_iff_inter_eq_empty]
      refine ⟨fun h d hd => h.mono_right (subset_union hd), fun h => Finset.disjoint_right.mpr fun x hx => ?_⟩
      obtain ⟨d, hd, hxd⟩ := mem_union.mp hx
      exact Finset.disjoint_right.mp (h d hd) hxd
    rw [List.pairwise_cons, ← ih, ← hapart, List.map_cons, List.sum_cons]
    omega

theorem card_sdiff_union (s : Finset α) (cs : List (Finset α)) :
    (s \ union cs).card = s.card - (cs.map Finset.card).sum ↔
      cs.Pairwise Disjoint ∧ (∀ c ∈ cs, c ⊆ s) ∨ s ⊆ union cs := by
  have hle := card_union_le cs
  have hinter := Finset.card_le_card (Finset.inter_subset_left : union cs ∩ s ⊆ union cs)
  have hdiff : (s \ union cs).card = s.card - (union cs ∩ s).card := Finset.card_sdiff
  by_cases hcov : s ⊆ union cs
  · refine iff_of_true ?_ (Or.inr hcov)
    have := Finset.card_le_card hcov
    rw [Finset.sdiff_eq_empty_iff_subset.mpr hcov, Finset.card_empty]
    omega
  · have hpos : 0 < (s \ union cs).card := Finset.card_pos.mpr (Finset.sdiff_nonempty.mpr hcov)
    have hin : (union cs ∩ s).card = (union cs).card ↔ ∀ c ∈ cs, c ⊆ s := by
      constructor
      · intro h c hc x hx
        have heq := Finset.eq_of_subset_of_card_le Finset.inter_subset_left h.ge
        exact Finset.inter_eq_left.mp heq (subset_union hc hx)
      · intro h
        have hsub : union cs ⊆ s := fun x hx => by
          obtain ⟨c, hc, hxc⟩ := mem_union.mp hx
          exact h c hc hxc
        rw [Finset.inter_eq_left.mpr hsub]
    rw [or_iff_left hcov, ← card_union_eq, ← hin]
    omega

end Finite

/-! The unit intervals that start at these integers. -/

def ticks (F : Finset ℤ) : Set ℝ := {x | ⌊x⌋ ∈ F}

theorem mem_ticks {F : Finset ℤ} {x : ℝ} : x ∈ ticks F ↔ ⌊x⌋ ∈ F := Iff.rfl

/-- The integers from `a` on, as many as `n`. -/
def run (a : ℤ) (n : ℕ) : Finset ℤ := (Finset.range n).image fun k : ℕ => a + k

theorem mem_run {a m : ℤ} {n : ℕ} : m ∈ run a n ↔ a ≤ m ∧ m < a + n := by
  rw [run, Finset.mem_image]
  constructor
  · rintro ⟨k, hk, rfl⟩
    have := Finset.mem_range.mp hk
    omega
  · rintro ⟨h1, h2⟩
    exact ⟨(m - a).toNat, Finset.mem_range.mpr (by omega), by omega⟩

theorem card_run (a : ℤ) (n : ℕ) : (run a n).card = n := by
  rw [run, Finset.card_image_of_injective _ fun i j h => by simpa using h, Finset.card_range]

theorem ticks_run (a : ℤ) (n : ℕ) : ticks (run a n) = Set.Ico (a : ℝ) (a + n) := by
  ext x
  rw [mem_ticks, mem_run, Int.le_floor, Int.floor_lt, Set.mem_Ico]
  push_cast
  rfl

theorem ticks_subset {F G : Finset ℤ} : ticks F ⊆ ticks G ↔ F ⊆ G := by
  refine ⟨fun h n hn => ?_, fun h x hx => h hx⟩
  have : (n : ℝ) ∈ ticks G := h (by rwa [mem_ticks, Int.floor_intCast])
  rwa [mem_ticks, Int.floor_intCast] at this

theorem ticks_disjoint {F G : Finset ℤ} : Disjoint (ticks F) (ticks G) ↔ Disjoint F G := by
  rw [Set.disjoint_left, Finset.disjoint_left]
  refine ⟨fun h n hn hg => ?_, fun h x hx hg => h hx hg⟩
  refine h (a := (n : ℝ)) ?_ ?_
  · rwa [mem_ticks, Int.floor_intCast]
  · rwa [mem_ticks, Int.floor_intCast]

theorem ticks_sdiff (F G : Finset ℤ) : ticks (F \ G) = ticks F \ ticks G := by
  ext x
  rw [Set.mem_sdiff, mem_ticks, mem_ticks, mem_ticks, Finset.mem_sdiff]

theorem ticks_union (cs : List (Finset ℤ)) : ticks (union cs) = ⋃ c ∈ cs, ticks c := by
  ext x
  simp only [mem_ticks, mem_union, Set.mem_iUnion, exists_prop]

theorem volume_ticks (F : Finset ℤ) : volume (ticks F) = F.card := by
  induction F using Finset.induction_on with
  | empty => simp [ticks]
  | insert n F hn ih =>
    have hunit : ticks {n} = Set.Ico (n : ℝ) (n + 1) := by
      ext x
      rw [mem_ticks, Finset.mem_singleton, Int.floor_eq_iff, Set.mem_Ico]
    have hsplit : ticks (insert n F) = ticks {n} ∪ ticks F := by
      ext x
      simp [mem_ticks]
    have hapart : Disjoint (ticks {n}) (ticks F) := ticks_disjoint.mpr (Finset.disjoint_singleton_left.mpr hn)
    rw [hsplit, measure_union' hapart (hunit ▸ measurableSet_Ico), ih, hunit, Real.volume_Ico,
      Finset.card_insert_of_notMem hn]
    simp [add_comm]

end Cover

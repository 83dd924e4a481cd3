import Mathlib.Algebra.Order.Field.Basic
import Mathlib.Algebra.Order.Field.Rat
import Mathlib.Data.List.Sort
import Mathlib.Tactic.Linarith
import Mathlib.Tactic.NormNum
import Mathlib.Tactic.FieldSimp
import Blackboard.Spec.Retrieval

/-! The chosen threshold is optimal: between two scores the accuracy does not change, so the candidates stand
for all thresholds. -/

namespace Blackboard.Kb

variable {K : Type} [Field K] [LinearOrder K]

/-! The loop over the cuts. -/

/-- The best of the cuts so far, and the first of those. -/
structure Leads (f : K → K) (seen : List K) (b : K × K) : Prop where
  mem : b.1 ∈ seen
  value : b.2 = f b.1
  most : ∀ c ∈ seen, f c ≤ b.2
  first : ∀ c ∈ seen, f c = b.2 → b.1 ≤ c

omit [Field K] in
theorem leads_foldl (f : K → K) (ts : List K) : ∀ {seen : List K} {b : K × K}, Leads f seen b →
    (∀ c ∈ seen, ∀ t ∈ ts, c ≤ t) → ts.Pairwise (· ≤ ·) →
    Leads f (seen ++ ts) (ts.foldl (fun b t => if b.2 < f t then (t, f t) else b) b) := by
  induction ts with
  | nil =>
    intro seen b h _ _
    rwa [List.append_nil]
  | cons t ts ih =>
    intro seen b h hle hsort
    obtain ⟨hhead, htail⟩ := List.pairwise_cons.mp hsort
    have hnext : Leads f (seen ++ [t]) (if b.2 < f t then (t, f t) else b) := by
      have hsplit : ∀ {c}, c ∈ seen ++ [t] → c ∈ seen ∨ c = t := fun hc =>
        (List.mem_append.mp hc).imp_right List.mem_singleton.mp
      split_ifs with hlt
      · refine ⟨List.mem_append_right _ (List.mem_singleton_self t), rfl, fun c hc => ?_, fun c hc he => ?_⟩
        · rcases hsplit hc with hc | rfl
          · exact (h.most c hc).trans (le_of_lt hlt)
          · exact le_refl _
        · rcases hsplit hc with hc | rfl
          · exact absurd (h.most c hc) (not_le_of_gt (he ▸ hlt))
          · exact le_refl _
      · refine ⟨List.mem_append_left _ h.mem, h.value, fun c hc => ?_, fun c hc he => ?_⟩
        · rcases hsplit hc with hc | rfl
          · exact h.most c hc
          · exact le_of_not_gt hlt
        · rcases hsplit hc with hc | rfl
          · exact h.first c hc he
          · exact hle _ h.mem _ List.mem_cons_self
    rw [List.foldl_cons, List.append_cons]
    refine ih hnext (fun c hc s hs => ?_) htail
    rcases List.mem_append.mp hc with hc | hc
    · exact hle c hc s (List.mem_cons_of_mem t hs)
    · rw [List.mem_singleton.mp hc]
      exact hhead s hs

/-! The cuts. -/

variable {dev : List (Outcome K)}

theorem mem_cuts {c : K} : c ∈ cuts dev ↔ c = 0 ∨ c ∈ goodScores dev ∨ c ∈ badScores dev := by
  rw [cuts, List.mem_mergeSort, List.mem_dedup, List.mem_cons, List.mem_append]

theorem sorted_cuts (dev : List (Outcome K)) : (cuts dev).Pairwise (· ≤ ·) := by
  refine (List.pairwise_mergeSort (fun a b c hab hbc => ?_) (fun a b => ?_) _).imp of_decide_eq_true
  · exact decide_eq_true ((of_decide_eq_true hab).trans (of_decide_eq_true hbc))
  · rw [Bool.or_eq_true, decide_eq_true_eq, decide_eq_true_eq]
    exact le_total a b

variable [IsStrictOrderedRing K]

theorem accuracy_nonneg (dev : List (Outcome K)) (t : K) : 0 ≤ accuracy dev t := by
  unfold accuracy
  dsimp only
  refine div_nonneg (add_nonneg ?_ ?_) (by norm_num)
  · split_ifs
    · exact div_nonneg (Nat.cast_nonneg _) (Nat.cast_nonneg _)
    · exact le_refl _
  · split_ifs
    · exact div_nonneg (Nat.cast_nonneg _) (Nat.cast_nonneg _)
    · exact le_refl _

theorem leads_bestCut (dev : List (Outcome K)) :
    ∃ b : K × K, b.1 = bestCut dev ∧ Leads (accuracy dev) (cuts dev) b := by
  have hsort := sorted_cuts dev
  refine ⟨_, rfl, ?_⟩
  cases hcuts : cuts dev with
  | nil =>
    have hzero : (0 : K) ∈ cuts dev := mem_cuts.mpr (Or.inl rfl)
    rw [hcuts] at hzero
    cases hzero
  | cons t ts =>
    rw [hcuts] at hsort
    obtain ⟨hhead, htail⟩ := List.pairwise_cons.mp hsort
    have hfirst : (-1 : K) < accuracy dev t := lt_of_lt_of_le (by norm_num) (accuracy_nonneg dev t)
    rw [List.foldl_cons, if_pos hfirst]
    refine @leads_foldl _ _ (accuracy dev) ts [t] (t, accuracy dev t) ⟨?_, rfl, ?_, ?_⟩ ?_ htail
    · exact List.mem_singleton_self t
    · intro c hc
      rw [List.mem_singleton.mp hc]
    · intro c hc _
      rw [List.mem_singleton.mp hc]
    · intro c hc s hs
      rw [List.mem_singleton.mp hc]
      exact hhead s hs

/-! All thresholds. -/

omit [IsStrictOrderedRing K] in
/-- Accuracy depends on which questions are at the cut or above it. -/
theorem accuracy_congr {t c : K} (h : ∀ s ∈ goodScores dev ++ badScores dev, t ≤ s ↔ c ≤ s) :
    accuracy dev t = accuracy dev c := by
  have hgood : (goodScores dev).filter (fun s => t ≤ s) = (goodScores dev).filter fun s => c ≤ s :=
    List.filter_congr fun s hs => decide_eq_decide.mpr (h s (List.mem_append_left _ hs))
  have hbad : (badScores dev).filter (fun s => s < t) = (badScores dev).filter fun s => s < c := by
    refine List.filter_congr fun s hs => decide_eq_decide.mpr ?_
    rw [← not_le, ← not_le, h s (List.mem_append_right _ hs)]
  unfold accuracy
  dsimp only
  rw [hgood, hbad]

theorem accuracy_below {t : K} (hgood : goodScores dev ≠ []) (hbad : badScores dev ≠ [])
    (h : ∀ s ∈ goodScores dev ++ badScores dev, t ≤ s) : accuracy dev t = 1 / 2 := by
  have hg : (goodScores dev).filter (fun s => t ≤ s) = goodScores dev :=
    List.filter_eq_self.mpr fun s hs => decide_eq_true (h s (List.mem_append_left _ hs))
  have hb : (badScores dev).filter (fun s => s < t) = [] :=
    List.filter_eq_nil_iff.mpr fun s hs hlt => absurd (h s (List.mem_append_right _ hs))
      (not_le_of_gt (of_decide_eq_true hlt))
  have hne : ((goodScores dev).length : K) ≠ 0 := Nat.cast_ne_zero.mpr (by rwa [ne_eq, List.length_eq_zero_iff])
  unfold accuracy
  dsimp only
  rw [if_pos hgood, if_pos hbad, hg, hb, List.length_nil, Nat.cast_zero, zero_div, add_zero, div_self hne]

theorem accuracy_above {t : K} (hgood : goodScores dev ≠ []) (hbad : badScores dev ≠ [])
    (h : ∀ s ∈ goodScores dev ++ badScores dev, s < t) : accuracy dev t = 1 / 2 := by
  have hg : (goodScores dev).filter (fun s => t ≤ s) = [] :=
    List.filter_eq_nil_iff.mpr fun s hs hle => absurd (h s (List.mem_append_left _ hs))
      (not_lt_of_ge (of_decide_eq_true hle))
  have hb : (badScores dev).filter (fun s => s < t) = badScores dev :=
    List.filter_eq_self.mpr fun s hs => decide_eq_true (h s (List.mem_append_right _ hs))
  have hne : ((badScores dev).length : K) ≠ 0 := Nat.cast_ne_zero.mpr (by rwa [ne_eq, List.length_eq_zero_iff])
  unfold accuracy
  dsimp only
  rw [if_pos hgood, if_pos hbad, hg, hb, List.length_nil, Nat.cast_zero, zero_div, zero_add, div_self hne]

/-- A cut is as good as any threshold: the next one up, or 0 above all scores. -/
theorem exists_cut (hgood : goodScores dev ≠ []) (hbad : badScores dev ≠ [])
    (hpos : ∀ s ∈ goodScores dev ++ badScores dev, 0 ≤ s) (t : K) :
    ∃ c ∈ cuts dev, accuracy dev t = accuracy dev c := by
  have hcut : ∀ s ∈ goodScores dev ++ badScores dev, s ∈ cuts dev := fun s hs =>
    mem_cuts.mpr (Or.inr (List.mem_append.mp hs))
  cases hmin : ((cuts dev).filter fun c => t ≤ c).min? with
  | none =>
    have hnone := List.min?_eq_none_iff.mp hmin
    refine ⟨0, mem_cuts.mpr (Or.inl rfl), ?_⟩
    rw [accuracy_below hgood hbad hpos]
    refine accuracy_above hgood hbad fun s hs => lt_of_not_ge fun hle => ?_
    exact List.filter_eq_nil_iff.mp hnone s (hcut s hs) (decide_eq_true hle)
  | some c =>
    obtain ⟨hc, hleast⟩ := List.min?_eq_some_iff.mp hmin
    obtain ⟨hc, htc⟩ := List.mem_filter.mp hc
    refine ⟨c, hc, accuracy_congr fun s hs => ⟨fun hle => ?_, fun hle => (of_decide_eq_true htc).trans hle⟩⟩
    exact hleast s (List.mem_filter.mpr ⟨hcut s hs, decide_eq_true hle⟩)

omit [LinearOrder K] [IsStrictOrderedRing K] in
theorem score_mem {o : Outcome K} (ho : o ∈ dev) : o.score ∈ goodScores dev ++ badScores dev := by
  rw [List.mem_append, goodScores, badScores]
  cases ha : o.answerable with
  | true => exact Or.inl (List.mem_map_of_mem (List.mem_filter.mpr ⟨ho, ha⟩))
  | false => exact Or.inr (List.mem_map_of_mem (List.mem_filter.mpr ⟨ho, by rw [ha]; rfl⟩))

/-- The threshold is above every score that is below the cut. -/
theorem chooseThreshold_le {s : K} (hs : s ∈ goodScores dev ++ badScores dev) :
    chooseThreshold dev ≤ s ↔ bestCut dev ≤ s := by
  unfold chooseThreshold
  cases hmax : ((goodScores dev ++ badScores dev).filter fun s => s < bestCut dev).max? with
  | none => rfl
  | some m =>
    obtain ⟨hm, hmost⟩ := List.max?_eq_some_iff.mp hmax
    have hm : m < bestCut dev := of_decide_eq_true (List.mem_filter.mp hm).2
    simp only
    constructor
    · intro hle
      by_contra hnot
      have hsm : s ≤ m := hmost s (List.mem_filter.mpr ⟨hs, decide_eq_true (lt_of_not_ge hnot)⟩)
      linarith
    · intro hle
      linarith

/-- The cut that is picked has the most balanced accuracy of all thresholds and is the lowest candidate that
has it, and the threshold keeps the questions that the cut keeps. -/
theorem chooseThreshold_optimal (hgood : ∃ o ∈ dev, o.answerable = true) (hbad : ∃ o ∈ dev, o.answerable = false)
    (hpos : ∀ o ∈ dev, 0 ≤ o.score) :
    (∀ t, accuracy dev t ≤ accuracy dev (bestCut dev)) ∧ bestCut dev ∈ cuts dev ∧
      (∀ c ∈ cuts dev, (∀ t, accuracy dev t ≤ accuracy dev c) → bestCut dev ≤ c) ∧
      ∀ o ∈ dev, chooseThreshold dev ≤ o.score ↔ bestCut dev ≤ o.score := by
  obtain ⟨g, hg, hga⟩ := hgood
  obtain ⟨b, hb, hba⟩ := hbad
  have hgne : goodScores dev ≠ [] := List.ne_nil_of_mem (List.mem_map_of_mem (List.mem_filter.mpr ⟨hg, hga⟩))
  have hbne : badScores dev ≠ [] :=
    List.ne_nil_of_mem (List.mem_map_of_mem (List.mem_filter.mpr ⟨hb, by rw [hba]; rfl⟩))
  have hscores : ∀ s ∈ goodScores dev ++ badScores dev, 0 ≤ s := by
    intro s hs
    rcases List.mem_append.mp hs with hs | hs
    · obtain ⟨o, ho, rfl⟩ := List.mem_map.mp hs
      exact hpos o (List.mem_filter.mp ho).1
    · obtain ⟨o, ho, rfl⟩ := List.mem_map.mp hs
      exact hpos o (List.mem_filter.mp ho).1
  obtain ⟨lead, hlead, h⟩ := leads_bestCut dev
  have hmost : ∀ c ∈ cuts dev, accuracy dev c ≤ accuracy dev (bestCut dev) := by
    intro c hc
    rw [← hlead, ← h.value]
    exact h.most c hc
  refine ⟨fun t => ?_, hlead ▸ h.mem, fun c hc hbest => ?_, fun o ho => chooseThreshold_le (score_mem ho)⟩
  · obtain ⟨c, hc, he⟩ := exists_cut hgne hbne hscores t
    rw [he]
    exact hmost c hc
  · rw [← hlead]
    refine h.first c hc (le_antisymm (h.most c hc) ?_)
    rw [h.value]
    exact hbest lead.1

/-- Scores of 0.2, 0.6 and 0.6: the cut is 0.6, the threshold 0.4. -/
def Sample.devSplit : List (Outcome ℚ) :=
  [⟨true, some (3 / 5)⟩, ⟨false, some (1 / 5)⟩, ⟨true, some (3 / 5)⟩]

theorem chooseThreshold_optimal_split :
    (∀ t, accuracy Sample.devSplit t ≤ accuracy Sample.devSplit (bestCut Sample.devSplit)) ∧
    bestCut Sample.devSplit ∈ cuts Sample.devSplit ∧
      (∀ c ∈ cuts Sample.devSplit, (∀ t, accuracy Sample.devSplit t ≤ accuracy Sample.devSplit c) →
        bestCut Sample.devSplit ≤ c) ∧
      ∀ o ∈ Sample.devSplit, chooseThreshold Sample.devSplit ≤ o.score ↔ bestCut Sample.devSplit ≤ o.score :=
  chooseThreshold_optimal ⟨_, List.mem_cons_self, rfl⟩ ⟨_, List.mem_cons_of_mem _ List.mem_cons_self, rfl⟩ (by
    have hall : Sample.devSplit.all (fun o => decide (0 ≤ o.score)) = true := by decide +kernel
    exact fun o ho => of_decide_eq_true (List.all_eq_true.mp hall o ho))

end Blackboard.Kb

import Mathlib.Algebra.Order.Field.Rat
import Mathlib.Data.List.Sort
import Mathlib.Data.String.Basic
import Mathlib.Tactic.Linarith
import Mathlib.Tactic.NormNum
import Mathlib.Tactic.Positivity
import Mathlib.Tactic.Ring
import Blackboard.Spec.Search

/-! Rank fusion. What a hit scores is the sum of what each list gives it, so the order of the lists does
not matter; the last place in both lists still beats the first in one. -/

namespace Blackboard.Kb

def ids (hits : List Hit) : List String := hits.map Hit.chunkId

/-! The loop. -/

theorem ids_add (k : ℕ) (f : Fusion) (x : Hit × ℕ) :
    ids (f.add k x).byId = if x.1.chunkId ∈ ids f.byId then ids f.byId else ids f.byId ++ [x.1.chunkId] := by
  unfold ids Fusion.add
  dsimp only
  split_ifs with h
  · rw [List.map_map]
    refine List.map_congr_left fun kept _ => ?_
    rw [Function.comp_apply]
    split_ifs <;> rfl
  · rw [List.map_append, List.map_cons, List.map_nil]

theorem score_add (k : ℕ) (f : Fusion) (x : Hit × ℕ) (c : String) :
    (f.add k x).score c = f.score c + if x.1.chunkId = c then 1 / ((k : ℚ) + x.2) else 0 := by
  unfold Fusion.score Fusion.add
  dsimp only
  rw [Dict.lookup_set]
  by_cases h : c = x.1.chunkId
  · subst h
    rw [if_pos rfl, if_pos rfl, Option.getD_some]
    rfl
  · rw [if_neg h, if_neg (Ne.symm h), add_zero]

theorem nodup_fold (k : ℕ) (xs : List (Hit × ℕ)) : ∀ {f : Fusion}, (ids f.byId).Nodup →
    (ids (xs.foldl (Fusion.add k) f).byId).Nodup := by
  induction xs with
  | nil => exact id
  | cons x xs ih =>
    intro f h
    refine ih ?_
    rw [ids_add]
    split_ifs with hx
    · exact h
    · rw [← List.concat_eq_append]
      exact List.Nodup.concat hx h

theorem mem_fold (k : ℕ) (xs : List (Hit × ℕ)) (c : String) : ∀ {f : Fusion},
    c ∈ ids (xs.foldl (Fusion.add k) f).byId ↔ c ∈ ids f.byId ∨ ∃ x ∈ xs, x.1.chunkId = c := by
  induction xs with
  | nil => simp
  | cons x xs ih =>
    intro f
    have hadd : c ∈ ids (f.add k x).byId ↔ c ∈ ids f.byId ∨ x.1.chunkId = c := by
      rw [ids_add]
      split_ifs with hx
      · exact ⟨Or.inl, fun h => h.elim id fun he => he ▸ hx⟩
      · rw [List.mem_append, List.mem_singleton, eq_comm (a := c)]
    rw [List.foldl_cons, ih, hadd, or_assoc, List.exists_mem_cons_iff]

theorem score_fold (k : ℕ) (xs : List (Hit × ℕ)) (c : String) : ∀ {f : Fusion},
    (xs.foldl (Fusion.add k) f).score c =
      f.score c + (xs.map fun x => if x.1.chunkId = c then 1 / ((k : ℚ) + x.2) else 0).sum := by
  induction xs with
  | nil => simp
  | cons x xs ih =>
    intro f
    rw [List.foldl_cons, ih, score_add, List.map_cons, List.sum_cons, add_assoc]

/-- What a list gives a hit: nothing if it is not in it. -/
def share (k : ℕ) (hits : List Hit) (c : String) : ℚ :=
  if c ∈ ids hits then 1 / ((k : ℚ) + ((ids hits).idxOf c + 1)) else 0

theorem sum_zipIdx (k : ℕ) (c : String) (hits : List Hit) : ∀ n : ℕ, (ids hits).Nodup →
    ((hits.zipIdx n).map fun x => if x.1.chunkId = c then 1 / ((k : ℚ) + x.2) else 0).sum =
      if c ∈ ids hits then 1 / ((k : ℚ) + ((ids hits).idxOf c + n)) else 0 := by
  induction hits with
  | nil => intro n _; rfl
  | cons h hits ih =>
    intro n hnd
    obtain ⟨hnot, hnd⟩ := List.nodup_cons.mp hnd
    rw [List.zipIdx_cons, List.map_cons, List.sum_cons, ih (n + 1) hnd]
    by_cases hc : h.chunkId = c
    · subst hc
      have hout : h.chunkId ∉ ids hits := hnot
      have hin : h.chunkId ∈ ids (h :: hits) := List.mem_cons_self
      have hidx : (ids (h :: hits)).idxOf h.chunkId = 0 := List.idxOf_cons_self
      rw [if_pos rfl, if_neg hout, if_pos hin, hidx, add_zero, Nat.cast_zero, zero_add]
    · have hmem : c ∈ ids (h :: hits) ↔ c ∈ ids hits := List.mem_cons.trans (or_iff_right (Ne.symm hc))
      have hidx : (ids (h :: hits)).idxOf c = (ids hits).idxOf c + 1 := List.idxOf_cons_ne (ids hits) hc
      rw [if_neg hc, zero_add, hidx]
      simp only [hmem]
      split_ifs
      · push_cast
        ring_nf
      · rfl

theorem flatMap_pair (a b : List Hit) : ([a, b].flatMap fun hits => hits.zipIdx 1) = a.zipIdx 1 ++ b.zipIdx 1 := by
  rw [List.flatMap_cons, List.flatMap_cons, List.flatMap_nil, List.append_nil]

/-- The loop over two lists. -/
def fusion (a b : List Hit) : Fusion := (a.zipIdx 1 ++ b.zipIdx 1).foldl (Fusion.add RRF_K) {}

theorem score_fusion {a b : List Hit} (ha : (ids a).Nodup) (hb : (ids b).Nodup) (c : String) :
    (fusion a b).score c = share RRF_K a c + share RRF_K b c := by
  have hzero : Fusion.score {} c = 0 := rfl
  rw [fusion, score_fold, hzero, zero_add, List.map_append, List.sum_append, sum_zipIdx _ _ _ _ ha,
    sum_zipIdx _ _ _ _ hb, share, share, Nat.cast_one]

/-! The order. -/

/-- By score, then by id. -/
def Ranked (s : String → ℚ) (c d : String) : Prop := s d < s c ∨ s c = s d ∧ c ≤ d

theorem before_iff {f : Fusion} {g h : Hit} : f.before g h = true ↔ Ranked f.score g.chunkId h.chunkId := by
  simp only [Fusion.before, Ranked, Bool.or_eq_true, Bool.and_eq_true, decide_eq_true_eq]

theorem Ranked.antisymm {s : String → ℚ} {c d : String} (h : Ranked s c d) (h' : Ranked s d c) : c = d := by
  rcases h with h | ⟨h, hle⟩
  · rcases h' with h' | ⟨h', -⟩
    · exact absurd h' (lt_asymm h)
    · exact absurd h' (ne_of_lt h)
  · rcases h' with h' | ⟨-, hle'⟩
    · exact absurd h (ne_of_lt h')
    · exact le_antisymm hle hle'

theorem Ranked.trans {s : String → ℚ} {c d e : String} (h : Ranked s c d) (h' : Ranked s d e) : Ranked s c e := by
  rcases h with h | ⟨h, hle⟩
  · rcases h' with h' | ⟨h', -⟩
    · exact Or.inl (h'.trans h)
    · exact Or.inl (h' ▸ h)
  · rcases h' with h' | ⟨h', hle'⟩
    · exact Or.inl (h ▸ h')
    · exact Or.inr ⟨h.trans h', hle.trans hle'⟩

theorem Ranked.total (s : String → ℚ) (c d : String) : Ranked s c d ∨ Ranked s d c := by
  rcases lt_trichotomy (s c) (s d) with h | h | h
  · exact Or.inr (Or.inl h)
  · exact (le_total c d).imp (fun hle => Or.inr ⟨h, hle⟩) fun hle => Or.inr ⟨h.symm, hle⟩
  · exact Or.inl (Or.inl h)

/-- The fused list has the hits of the loop, in their order. -/
theorem rrf_ranked (a b : List Hit) :
    (ids (rrf [a, b])).Perm (ids (fusion a b).byId) ∧ (ids (rrf [a, b])).Pairwise (Ranked (fusion a b).score) := by
  have hids : ids (rrf [a, b]) = ids ((fusion a b).byId.mergeSort (fusion a b).before) := by
    rw [rrf, flatMap_pair]
    exact List.map_map
  rw [hids]
  constructor
  · exact (List.mergeSort_perm _ _).map _
  · refine List.pairwise_map.mpr
      ((List.pairwise_mergeSort (fun g h i hgh hhi => ?_) (fun g h => ?_) _).imp before_iff.mp)
    · exact before_iff.mpr ((before_iff.mp hgh).trans (before_iff.mp hhi))
    · rw [Bool.or_eq_true, before_iff, before_iff]
      exact Ranked.total _ _ _

theorem nodup_rrf (a b : List Hit) : (ids (rrf [a, b])).Nodup :=
  (rrf_ranked a b).1.nodup_iff.mpr (nodup_fold RRF_K _ List.nodup_nil)

theorem mem_zipIdx_id {hits : List Hit} {c : String} (n : ℕ) :
    (∃ x ∈ hits.zipIdx n, x.1.chunkId = c) ↔ c ∈ ids hits := by
  have hmap : (hits.zipIdx n).map Prod.fst = hits := List.zipIdx_map_fst n hits
  rw [ids, ← hmap, List.map_map, List.mem_map, hmap]
  rfl

theorem mem_rrf {a b : List Hit} {c : String} : c ∈ ids (rrf [a, b]) ↔ c ∈ ids a ∨ c ∈ ids b := by
  rw [(rrf_ranked a b).1.mem_iff, fusion, mem_fold]
  simp only [List.mem_append, or_and_right, exists_or, mem_zipIdx_id]
  exact or_iff_right List.not_mem_nil

theorem score_rrf {a b : List Hit} {h : Hit} (hh : h ∈ rrf [a, b]) : h.score = (fusion a b).score h.chunkId := by
  rw [rrf, flatMap_pair] at hh
  obtain ⟨g, -, rfl⟩ := List.mem_map.mp hh
  rfl

/-! What the order promises. -/

def rank (hits : List Hit) (c : String) : ℕ := (ids hits).idxOf c

def Ahead (hits : List Hit) (c d : String) : Prop := rank hits c < rank hits d

theorem ahead_of_score {a b : List Hit} {c d : String} (hc : c ∈ ids a ∨ c ∈ ids b) (hd : d ∈ ids a ∨ d ∈ ids b)
    (h : (fusion a b).score d < (fusion a b).score c) : Ahead (rrf [a, b]) c d := by
  have hci := List.idxOf_lt_length_of_mem (mem_rrf.mpr hc)
  have hdi := List.idxOf_lt_length_of_mem (mem_rrf.mpr hd)
  by_contra hnot
  rcases Nat.lt_or_eq_of_le (Nat.le_of_not_lt hnot) with hlt | heq
  · have hr := List.pairwise_iff_getElem.mp (rrf_ranked a b).2 _ _ hdi hci hlt
    rw [List.getElem_idxOf, List.getElem_idxOf] at hr
    rcases hr with hr | ⟨hr, -⟩
    · exact lt_asymm h hr
    · exact ne_of_lt h hr
  · obtain rfl := (List.idxOf_inj (mem_rrf.mpr hd)).mp heq
    exact lt_irrefl _ h

theorem rank_lt {hits : List Hit} {c : String} (hlen : hits.length ≤ CANDIDATES) (hc : c ∈ ids hits) :
    rank hits c < CANDIDATES := by
  have h := List.idxOf_lt_length_of_mem hc
  rw [ids, List.length_map] at h
  exact lt_of_lt_of_le h hlen

theorem share_mem {hits : List Hit} {c : String} (hc : c ∈ ids hits) :
    share RRF_K hits c = 1 / ((60 : ℚ) + (rank hits c + 1)) :=
  if_pos hc

theorem share_le {hits : List Hit} {c d : String} (hc : c ∈ ids hits) (hd : d ∈ ids hits)
    (h : rank hits c ≤ rank hits d) :
    share RRF_K hits d ≤ share RRF_K hits c := by
  have hcast : (rank hits c : ℚ) ≤ rank hits d := by exact_mod_cast h
  rw [share_mem hc, share_mem hd]
  exact one_div_le_one_div_of_le (by positivity) (by linarith)

theorem share_lt {hits : List Hit} {c d : String} (hc : c ∈ ids hits) (hd : d ∈ ids hits)
    (h : rank hits c < rank hits d) :
    share RRF_K hits d < share RRF_K hits c := by
  have hcast : (rank hits c : ℚ) < rank hits d := by exact_mod_cast h
  rw [share_mem hc, share_mem hd]
  exact one_div_lt_one_div_of_lt (by positivity) (by linarith)

/-- The last place gives 1/80. -/
theorem le_share {hits : List Hit} {c : String} (hlen : hits.length ≤ CANDIDATES) (hc : c ∈ ids hits) :
    1 / 80 ≤ share RRF_K hits c := by
  have hlt : (rank hits c : ℚ) + 1 ≤ 20 := by exact_mod_cast rank_lt hlen hc
  rw [share_mem hc]
  exact one_div_le_one_div_of_le (by positivity) (by linarith)

/-- The first place gives 1/61. -/
theorem share_le_first (hits : List Hit) (c : String) : share RRF_K hits c ≤ 1 / 61 := by
  by_cases hc : c ∈ ids hits
  · have h0 : (0 : ℚ) ≤ rank hits c := Nat.cast_nonneg _
    rw [share_mem hc]
    exact one_div_le_one_div_of_le (by norm_num) (by linarith)
  · rw [share, if_neg hc]
    norm_num

/-- What the module promises of the fused list: agreement between the lists is worth more than a place in one. -/
structure Rewards (a b fused : List Hit) : Prop where
  once : (ids fused).Nodup
  union : ∀ c, c ∈ ids fused ↔ c ∈ ids a ∨ c ∈ ids b
  orders : ∀ c d, c ∈ ids a → c ∈ ids b → d ∈ ids a → d ∈ ids b → rank a c ≤ rank a d → rank b c ≤ rank b d →
    rank a c < rank a d ∨ rank b c < rank b d → Ahead fused c d
  agreement : ∀ c d, c ∈ ids a → c ∈ ids b → (d ∈ ids a ∧ d ∉ ids b ∨ d ∉ ids a ∧ d ∈ ids b) → Ahead fused c d

/-- The ids and scores in order. -/
def scored (hits : List Hit) : List (String × ℚ) := hits.map fun h => (h.chunkId, h.score)

theorem scored_rrf (a b : List Hit) :
    scored (rrf [a, b]) = (ids (rrf [a, b])).map fun c => (c, (fusion a b).score c) := by
  rw [scored, ids, List.map_map]
  exact List.map_congr_left fun h hh => congrArg (Prod.mk h.chunkId) (score_rrf hh)

theorem scored_comm {a b : List Hit} (ha : (ids a).Nodup) (hb : (ids b).Nodup) :
    scored (rrf [a, b]) = scored (rrf [b, a]) := by
  have hscore : (fusion a b).score = (fusion b a).score := by
    funext c
    rw [score_fusion ha hb, score_fusion hb ha, add_comm]
  have hperm : (ids (rrf [a, b])).Perm (ids (rrf [b, a])) :=
    (List.perm_ext_iff_of_nodup (nodup_rrf a b) (nodup_rrf b a)).mpr fun c => by rw [mem_rrf, mem_rrf, or_comm]
  have hids : ids (rrf [a, b]) = ids (rrf [b, a]) :=
    List.Perm.eq_of_pairwise (fun _ _ _ _ h h' => Ranked.antisymm h h') (rrf_ranked a b).2
      (hscore ▸ (rrf_ranked b a).2) hperm
  rw [scored_rrf, scored_rrf, hids, hscore]

theorem rewards_rrf {a b : List Hit} (hla : a.length ≤ CANDIDATES) (hlb : b.length ≤ CANDIDATES) (ha : (ids a).Nodup)
    (hb : (ids b).Nodup) : Rewards a b (rrf [a, b]) where
  once := nodup_rrf a b
  union _ := mem_rrf
  orders c d hca hcb hda hdb hra hrb hlt := by
    refine ahead_of_score (Or.inl hca) (Or.inl hda) ?_
    rw [score_fusion ha hb, score_fusion ha hb]
    rcases hlt with hlt | hlt
    · exact add_lt_add_of_lt_of_le (share_lt hca hda hlt) (share_le hcb hdb hrb)
    · exact add_lt_add_of_le_of_lt (share_le hca hda hra) (share_lt hcb hdb hlt)
  agreement c d hca hcb hd := by
    refine ahead_of_score (Or.inl hca) (hd.imp And.left And.right) ?_
    rw [score_fusion ha hb, score_fusion ha hb]
    have hc : 1 / 80 + 1 / 80 ≤ share RRF_K a c + share RRF_K b c := add_le_add (le_share hla hca) (le_share hlb hcb)
    have hone : share RRF_K a d + share RRF_K b d ≤ 1 / 61 := by
      rcases hd with ⟨-, hnot⟩ | ⟨hnot, -⟩
      · rw [show share RRF_K b d = 0 from if_neg hnot, add_zero]
        exact share_le_first a d
      · rw [show share RRF_K a d = 0 from if_neg hnot, zero_add]
        exact share_le_first b d
    linarith

/-- The fused list of two lists of candidates, whichever is first. -/
theorem rrf_rewards_agreement {a b : List Hit} (hla : a.length ≤ CANDIDATES) (hlb : b.length ≤ CANDIDATES)
    (ha : (ids a).Nodup) (hb : (ids b).Nodup) :
    Rewards a b (rrf [a, b]) ∧ scored (rrf [a, b]) = scored (rrf [b, a]) :=
  ⟨rewards_rrf hla hlb ha hb, scored_comm ha hb⟩

def Sample.hit (id : String) : Hit where
  chunkId := id
  docId := "RB-PAYMENT"
  kind := "runbook"
  title := "Payment"
  version := "1"
  headings := ["First checks"]
  sections := ["RB-PAYMENT#first-checks"]
  content := "Look at the error rate."
  services := ["payment"]

theorem rrf_rewards_payment :
    Rewards [Sample.hit "A#01", Sample.hit "B#01"] [Sample.hit "C#01", Sample.hit "B#01"]
        (rrf [[Sample.hit "A#01", Sample.hit "B#01"], [Sample.hit "C#01", Sample.hit "B#01"]]) ∧
      scored (rrf [[Sample.hit "A#01", Sample.hit "B#01"], [Sample.hit "C#01", Sample.hit "B#01"]]) =
        scored (rrf [[Sample.hit "C#01", Sample.hit "B#01"], [Sample.hit "A#01", Sample.hit "B#01"]]) :=
  rrf_rewards_agreement (by decide) (by decide) (by decide) (by decide)

end Blackboard.Kb

import Mathlib.Data.List.Nodup

/-! Python's `dict` as its items: in the order in which the keys came, no key twice. -/

namespace Dict

variable {K V : Type} [DecidableEq K]

/-- `d[k] = v` -/
def set (d : List (K × V)) (k : K) (v : V) : List (K × V) :=
  if k ∈ d.map Prod.fst then d.map fun m => if m.1 = k then (k, v) else m else d ++ [(k, v)]

/-- `d | e` -/
def update (d e : List (K × V)) : List (K × V) := e.foldl (fun d m => set d m.1 m.2) d

theorem keys_set (d : List (K × V)) (k : K) (v : V) :
    (set d k v).map Prod.fst = if k ∈ d.map Prod.fst then d.map Prod.fst else d.map Prod.fst ++ [k] := by
  unfold set
  split_ifs with h
  · rw [List.map_map]
    refine List.map_congr_left fun m _ => ?_
    rw [Function.comp_apply]
    split_ifs with hm
    · exact hm.symm
    · rfl
  · rw [List.map_append, List.map_cons, List.map_nil]

theorem mem_keys_set {d : List (K × V)} {k j : K} {v : V} :
    j ∈ (set d k v).map Prod.fst ↔ j ∈ d.map Prod.fst ∨ j = k := by
  rw [keys_set]
  split_ifs with h
  · exact ⟨Or.inl, fun hj => hj.elim id fun he => he ▸ h⟩
  · rw [List.mem_append, List.mem_singleton]

theorem lookup_set (d : List (K × V)) (k j : K) (v : V) :
    (set d k v).lookup j = if j = k then some v else d.lookup j := by
  unfold set
  split_ifs with h hj hj
  · subst hj
    induction d with
    | nil => cases h
    | cons m d ih =>
      rw [List.map_cons, List.lookup_cons]
      by_cases hm : m.1 = j
      · rw [if_pos hm, beq_self_eq_true]
      · rw [if_neg hm, beq_false_of_ne (Ne.symm hm)]
        exact ih ((List.mem_cons.mp h).resolve_left (Ne.symm hm))
  · clear h
    induction d with
    | nil => rfl
    | cons m d ih =>
      rw [List.map_cons, List.lookup_cons, List.lookup_cons, ih]
      by_cases hm : m.1 = k
      · rw [if_pos hm, beq_false_of_ne hj, hm, beq_false_of_ne hj]
      · rw [if_neg hm]
  · subst hj
    rw [List.lookup_append, List.lookup_eq_none_iff.mpr, Option.none_or]
    · rw [List.lookup_cons, beq_self_eq_true]
    · intro m hm
      rw [bne_iff_ne]
      rintro rfl
      exact h (List.mem_map_of_mem hm)
  · rw [List.lookup_append, List.lookup_cons, beq_false_of_ne hj, List.lookup_nil, Option.or_none]

@[simp] theorem update_nil (d : List (K × V)) : update d [] = d := rfl

theorem update_cons (d e : List (K × V)) (m : K × V) : update d (m :: e) = update (set d m.1 m.2) e := rfl

theorem update_append (d e f : List (K × V)) : update d (e ++ f) = update (update d e) f := List.foldl_append

theorem lookup_update {d e : List (K × V)} {k : K} (h : k ∉ e.map Prod.fst) : (update d e).lookup k = d.lookup k := by
  induction e generalizing d with
  | nil => rfl
  | cons m e ih =>
    rw [List.map_cons, List.mem_cons, not_or] at h
    rw [update_cons, ih h.2, lookup_set, if_neg h.1]

theorem mem_keys_update {d e : List (K × V)} {k : K} :
    k ∈ (update d e).map Prod.fst ↔ k ∈ d.map Prod.fst ∨ k ∈ e.map Prod.fst := by
  induction e generalizing d with
  | nil => simp
  | cons m e ih => rw [update_cons, ih, mem_keys_set, List.map_cons, List.mem_cons, or_assoc]

theorem mem_set {d : List (K × V)} {k : K} {v : V} {m : K × V} (h : m ∈ set d k v) : m ∈ d ∨ m = (k, v) := by
  unfold set at h
  split_ifs at h
  · obtain ⟨n, hn, rfl⟩ := List.mem_map.mp h
    split_ifs
    · exact Or.inr rfl
    · exact Or.inl hn
  · exact (List.mem_append.mp h).imp_right List.mem_singleton.mp

theorem mem_update {d e : List (K × V)} {m : K × V} (h : m ∈ update d e) : m ∈ d ∨ m ∈ e := by
  induction e generalizing d with
  | nil => exact Or.inl h
  | cons n e ih =>
    rcases ih h with h | h
    · rcases mem_set h with h | rfl
      · exact Or.inl h
      · exact Or.inr List.mem_cons_self
    · exact Or.inr (List.mem_cons_of_mem n h)

/-! Values changed, and items left out, before or after. -/

theorem map_set {W : Type} (f : V → W) (d : List (K × V)) (k : K) (v : V) :
    (set d k v).map (Prod.map id f) = set (d.map (Prod.map id f)) k (f v) := by
  have hkeys : (d.map (Prod.map id f)).map Prod.fst = d.map Prod.fst := by
    rw [List.map_map]
    rfl
  unfold set
  rw [hkeys]
  split_ifs with h
  · rw [List.map_map, List.map_map]
    refine List.map_congr_left fun m _ => ?_
    simp only [Function.comp_apply, Prod.map_fst, id_eq]
    split_ifs <;> rfl
  · rw [List.map_append]
    rfl

theorem map_update {W : Type} (f : V → W) (d e : List (K × V)) :
    (update d e).map (Prod.map id f) = update (d.map (Prod.map id f)) (e.map (Prod.map id f)) := by
  induction e generalizing d with
  | nil => rfl
  | cons m e ih =>
    rw [update_cons, ih, map_set]
    rfl

/-- The value at a key that is there. -/
def replace (d : List (K × V)) (k : K) (v : V) : List (K × V) := d.map fun m => if m.1 = k then (k, v) else m

theorem set_of_mem {d : List (K × V)} {k : K} (h : k ∈ d.map Prod.fst) (v : V) : set d k v = replace d k v := if_pos h

theorem replace_cons (m : K × V) (d : List (K × V)) (k : K) (v : V) :
    replace (m :: d) k v = (if m.1 = k then (k, v) else m) :: replace d k v := rfl

theorem keys_replace (d : List (K × V)) (k : K) (v : V) : (replace d k v).map Prod.fst = d.map Prod.fst := by
  rw [replace, List.map_map]
  refine List.map_congr_left fun m _ => ?_
  rw [Function.comp_apply]
  split_ifs with h
  · exact h.symm
  · rfl

theorem replace_of_not_mem {d : List (K × V)} {k : K} (h : k ∉ d.map Prod.fst) (v : V) : replace d k v = d := by
  refine (List.map_congr_left fun m hm => if_neg fun he => h ?_).trans (List.map_id d)
  exact he ▸ List.mem_map_of_mem hm

theorem replace_append (d : List (K × V)) (k : K) (u v : V) :
    replace (d ++ [(k, u)]) k v = replace d k v ++ [(k, v)] := by
  rw [replace, List.map_append, List.map_cons, List.map_nil, if_pos rfl]
  rfl

theorem set_of_not_mem {d : List (K × V)} {k : K} (h : k ∉ d.map Prod.fst) (v : V) :
    set d k v = d ++ [(k, v)] := if_neg h

theorem filter_replace (p : K → Bool) (d : List (K × V)) (k : K) (v : V) :
    (replace d k v).filter (fun m => p m.1) = replace (d.filter fun m => p m.1) k v := by
  rw [replace, replace, List.filter_map]
  refine congrArg _ (List.filter_congr fun m _ => ?_)
  rw [Function.comp_apply]
  split_ifs with hm
  · rw [hm]
  · rfl

theorem filter_set (p : K → Bool) (d : List (K × V)) (k : K) (v : V) :
    (set d k v).filter (fun m => p m.1) = if p k then set (d.filter fun m => p m.1) k v
    else d.filter fun m => p m.1 := by
  have hkeys : k ∈ (d.filter fun m => p m.1).map Prod.fst ↔ k ∈ d.map Prod.fst ∧ p k = true := by
    simp only [List.mem_map, List.mem_filter]
    exact ⟨fun ⟨m, hm, he⟩ => ⟨⟨m, hm.1, he⟩, he ▸ hm.2⟩, fun ⟨⟨m, hm, he⟩, hp⟩ => ⟨m, ⟨hm, he ▸ hp⟩, he⟩⟩
  by_cases hp : p k = true
  · rw [if_pos hp]
    by_cases h : k ∈ d.map Prod.fst
    · rw [set_of_mem h, set_of_mem (hkeys.mpr ⟨h, hp⟩), filter_replace]
    · rw [set_of_not_mem h, set_of_not_mem fun hk => h (hkeys.mp hk).1, List.filter_append,
        List.filter_cons_of_pos (by exact hp), List.filter_nil]
  · rw [if_neg hp]
    by_cases h : k ∈ d.map Prod.fst
    · rw [set_of_mem h, filter_replace, replace_of_not_mem fun hk => hp (hkeys.mp hk).2]
    · rw [set_of_not_mem h, List.filter_append, List.filter_cons_of_neg (by exact hp), List.filter_nil, List.append_nil]

theorem filter_update (p : K → Bool) (d e : List (K × V)) :
    (update d e).filter (fun m => p m.1) = update (d.filter fun m => p m.1) (e.filter fun m => p m.1) := by
  induction e generalizing d with
  | nil => rfl
  | cons m e ih =>
    rw [update_cons, ih, filter_set]
    by_cases hp : p m.1 = true
    · rw [if_pos hp, List.filter_cons_of_pos (by exact hp), update_cons]
    · rw [if_neg hp, List.filter_cons_of_neg (by exact hp)]

/-! `{**a, **{**d, **e}} == {**{**a, **d}, **e}` -/

theorem replace_replace (d : List (K × V)) (k : K) (u v : V) : replace (replace d k u) k v = replace d k v := by
  rw [replace, replace, replace, List.map_map]
  refine List.map_congr_left fun m _ => ?_
  rw [Function.comp_apply]
  by_cases h : m.1 = k
  · rw [if_pos h, if_pos rfl, if_pos h]
  · rw [if_neg h, if_neg h]

theorem set_replace (d : List (K × V)) (k : K) (u v : V) : set (replace d k u) k v = set d k v := by
  by_cases h : k ∈ d.map Prod.fst
  · rw [set_of_mem ((keys_replace d k u).symm ▸ h), set_of_mem h, replace_replace]
  · rw [replace_of_not_mem h]

theorem replace_set {d : List (K × V)} {j k : K} (h : j ≠ k) (u v : V) :
    replace (set d j u) k v = set (replace d k v) j u := by
  unfold set
  rw [keys_replace]
  split_ifs with hj
  · rw [replace, replace, List.map_map, List.map_map]
    refine List.map_congr_left fun m _ => ?_
    simp only [Function.comp_apply]
    by_cases hm : m.1 = j
    · have hk : m.1 ≠ k := fun hk => h (hm.symm.trans hk)
      rw [if_pos hm, if_neg h, if_neg hk, if_pos hm]
    · by_cases hk : m.1 = k
      · rw [if_neg hm, if_pos hk, if_neg (Ne.symm h)]
      · rw [if_neg hm, if_neg hk, if_neg hm]
  · rw [replace, List.map_append, List.map_cons, List.map_nil, if_neg h]
    rfl

theorem replace_set_self (d : List (K × V)) (k : K) (u v : V) : replace (set d k u) k v = set d k v := by
  by_cases h : k ∈ d.map Prod.fst
  · rw [set_of_mem h, set_of_mem h, replace_replace]
  · rw [set_of_not_mem h, set_of_not_mem h, replace_append, replace_of_not_mem h]

theorem replace_update (d e : List (K × V)) (k : K) (v : V) :
    update (replace d k v) (replace e k v) = replace (update d e) k v := by
  induction e generalizing d with
  | nil => rfl
  | cons m e ih =>
    rw [replace_cons, update_cons, update_cons, ← ih]
    refine congrArg (update · _) ?_
    by_cases hm : m.1 = k
    · rw [if_pos hm, set_replace, hm, replace_set_self]
    · rw [if_neg hm, replace_set hm]

theorem update_replace {e : List (K × V)} {k : K} (v : V) (d : List (K × V)) (h : k ∈ e.map Prod.fst) :
    update d (replace e k v) = replace (update d e) k v := by
  induction e generalizing d with
  | nil => cases h
  | cons m e ih =>
    rw [replace_cons, update_cons, update_cons]
    by_cases hm : m.1 = k
    · rw [if_pos hm, ← replace_update, hm, replace_set_self]
    · rw [if_neg hm]
      exact ih _ ((List.mem_cons.mp h).resolve_left (Ne.symm hm))

theorem update_set (d e : List (K × V)) (k : K) (v : V) : update d (set e k v) = set (update d e) k v := by
  by_cases h : k ∈ e.map Prod.fst
  · rw [set_of_mem h, update_replace v d h, set_of_mem (mem_keys_update.mpr (Or.inr h))]
  · rw [set, if_neg h, update_append]
    rfl

theorem update_assoc (d e f : List (K × V)) : update d (update e f) = update (update d e) f := by
  induction f generalizing e with
  | nil => rfl
  | cons m f ih => rw [update_cons, ih, update_set, update_cons]

end Dict

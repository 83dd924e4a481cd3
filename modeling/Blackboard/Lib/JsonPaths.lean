import Blackboard.Lib.Jsonb

/-! Where a document can be read and written by the names that lead there. A path is followed
through objects only; what is inside an array counts as one value. -/

namespace Json

theorem member?_append (ms ns : List (String × Json)) (k : String) :
    member? (ms ++ ns) k = (member? ns k).or (member? ms k) := by
  have hfold : ∀ (ns : List (String × Json)) (found : Option Json),
      ns.foldl (fun found m => if m.1 = k then some m.2 else found) found = (member? ns k).or found := by
    intro ns
    induction ns with
    | nil => exact fun _ => rfl
    | cons n ns ih =>
      intro found
      have hcons : member? (n :: ns) k = (member? ns k).or (if n.1 = k then some n.2 else none) := ih _
      rw [List.foldl_cons, ih, hcons]
      by_cases h : n.1 = k <;> cases member? ns k <;> simp [h]
  rw [member?, List.foldl_append, hfold]
  rfl

@[simp] theorem member?_nil (k : String) : member? [] k = none := rfl

theorem member?_cons (m : String × Json) (ms : List (String × Json)) (k : String) :
    member? (m :: ms) k = (member? ms k).or (if m.1 = k then some m.2 else none) :=
  member?_append [m] ms k

theorem member?_eq_none {ms : List (String × Json)} {k : String} : member? ms k = none ↔ ∀ m ∈ ms, m.1 ≠ k := by
  induction ms with
  | nil => simp
  | cons m ms ih =>
    rw [member?_cons, Option.or_eq_none_iff, ih]
    by_cases h : m.1 = k <;> simp [h]

theorem member?_mem {ms : List (String × Json)} {k : String} {v : Json} (h : member? ms k = some v) : (k, v) ∈ ms := by
  induction ms with
  | nil => cases h
  | cons m ms ih =>
    rw [member?_cons, Option.or_eq_some_iff] at h
    rcases h with h | ⟨-, h⟩
    · exact List.mem_cons_of_mem _ (ih h)
    · split_ifs at h with hm
      obtain rfl := Option.some.inj h
      exact hm ▸ List.mem_cons_self

theorem member?_of_mem {ms : List (String × Json)} {k : String} {v : Json} (hd : (ms.map Prod.fst).Nodup)
    (h : (k, v) ∈ ms) : member? ms k = some v := by
  cases hk : member? ms k with
  | none => exact absurd rfl (member?_eq_none.mp hk _ h)
  | some w => exact congrArg (some ∘ Prod.snd) (eq_of_key hd (member?_mem hk) h rfl)

theorem member?_map (ms : List (String × Json)) (k : String) (f : String → Json → Json) :
    member? (ms.map fun m => (m.1, f m.1 m.2)) k = (member? ms k).map (f k) := by
  induction ms with
  | nil => rfl
  | cons m ms ih =>
    rw [List.map_cons, member?_cons, member?_cons, ih]
    by_cases h : m.1 = k
    · cases member? ms k <;> simp [h]
    · cases member? ms k <;> simp [h]

theorem member?_assign (ms : List (String × Json)) (k : String) (v : Json) (k' : String) :
    member? (assign ms k v) k' = if k' = k then some v else member? ms k' := by
  unfold assign
  split_ifs with hany hk hk
  · subst hk
    have hmap : (ms.map fun m => if m.1 = k' then (k', v) else m) =
        ms.map fun m => (m.1, if m.1 = k' then v else m.2) :=
      List.map_congr_left fun m _ => by by_cases h : m.1 = k' <;> simp [h]
    obtain ⟨m, hm, hmk⟩ := List.any_eq_true.mp hany
    rw [hmap, member?_map ms k' fun n w => if n = k' then v else w]
    cases hf : member? ms k' with
    | none => exact absurd (of_decide_eq_true hmk) (member?_eq_none.mp hf m hm)
    | some w => simp
  · have hmap : (ms.map fun m => if m.1 = k then (k, v) else m) = ms.map fun m => (m.1, if m.1 = k then v else m.2) :=
      List.map_congr_left fun m _ => by by_cases h : m.1 = k <;> simp [h]
    rw [hmap, member?_map ms k' fun n w => if n = k then v else w]
    simp [hk]
  · rw [member?_append, member?_cons]
    simp [hk]
  · rw [member?_append, member?_cons]
    simp [Ne.symm hk]

theorem member?_erase (ms : List (String × Json)) (k k' : String) :
    member? (ms.filter fun m => m.1 ≠ k) k' = if k' = k then none else member? ms k' := by
  induction ms with
  | nil => simp
  | cons m ms ih =>
    by_cases hm : m.1 = k
    · rw [List.filter_cons_of_neg (by simpa using hm), ih, member?_cons]
      by_cases hk : k' = k
      · rw [if_pos hk, if_pos hk]
      · have hne : m.1 ≠ k' := fun h => hk (h.symm.trans hm)
        rw [if_neg hk, if_neg hk, if_neg hne, Option.or_none]
    · rw [List.filter_cons_of_pos (by simpa using hm), member?_cons, ih, member?_cons]
      split_ifs with hk hk'
      · exact absurd (hk'.trans hk) hm
      · simp
      · rfl
      · rfl

@[simp] theorem get?_obj (ms : List (String × Json)) (k : String) : (obj ms).get? k = member? ms k := rfl

@[simp] theorem path?_nil (j : Json) : j.path? [] = some j := by cases j <;> rfl

theorem path?_cons (j : Json) (k : String) (ks : List String) :
    j.path? (k :: ks) = (j.get? k).bind fun v => v.path? ks := by
  cases j <;> rfl

theorem path?_append (j : Json) (ks ls : List String) : j.path? (ks ++ ls) = (j.path? ks).bind fun v => v.path? ls := by
  induction ks generalizing j with
  | nil => simp
  | cons k ks ih =>
    rw [List.cons_append, path?_cons, path?_cons]
    cases j.get? k with
    | none => rfl
    | some v => exact ih v

theorem get?_obj_of_some {j : Json} {k : String} {v : Json} (h : j.get? k = some v) : ∃ ms, j = obj ms := by
  cases j with
  | obj ms => exact ⟨ms, rfl⟩
  | _ => cases h

/-! Writing. -/

def members : Json → List (String × Json)
  | obj ms => ms
  | _ => []

/-- The document with `v` at the path; what is no object on the way becomes one. -/
def put (v : Json) : List String → Json → Json
  | [], _ => v
  | k :: ks, j => obj (assign j.members k (put v ks ((j.get? k).getD null)))

theorem get?_members (j : Json) (k : String) : member? j.members k = j.get? k := by cases j <;> rfl

theorem get?_put (v : Json) (k : String) (ks : List String) (j : Json) (k' : String) :
    (put v (k :: ks) j).get? k' = if k' = k then some (put v ks ((j.get? k).getD null)) else j.get? k' := by
  rw [put, get?_obj, member?_assign, get?_members]

theorem path?_put_self (v : Json) (ks ls : List String) (j : Json) : (put v ks j).path? (ks ++ ls) = v.path? ls := by
  induction ks generalizing j with
  | nil => rfl
  | cons k ks ih => rw [List.cons_append, path?_cons, get?_put, if_pos rfl, Option.bind_some, ih]

theorem path?_null {ks : List String} (h : ks ≠ []) : null.path? ks = none := by
  cases ks with
  | nil => exact absurd rfl h
  | cons k ks => rfl

/-- Nothing off the path changes. -/
theorem path?_put_of_ne (v : Json) {ks ls : List String} (j : Json) (h1 : ¬ ks <+: ls) (h2 : ¬ ls <+: ks) :
    (put v ks j).path? ls = j.path? ls := by
  induction ks generalizing j ls with
  | nil => exact absurd List.nil_prefix h1
  | cons k ks ih =>
    cases ls with
    | nil => exact absurd List.nil_prefix h2
    | cons l ls =>
      rw [path?_cons, path?_cons, get?_put]
      split_ifs with hl
      · subst hl
        rw [List.cons_prefix_cons, not_and] at h1 h2
        rw [Option.bind_some, ih _ (h1 rfl) (h2 rfl)]
        cases j.get? l with
        | some w => rfl
        | none => exact path?_null fun hn => h2 rfl (hn ▸ List.nil_prefix)
      · rfl

theorem get?_erase (j : Json) (k k' : String) : (j.erase k).get? k' = if k' = k then none else j.get? k' := by
  cases j with
  | obj ms => exact member?_erase ms k k'
  | _ => exact (ite_self none).symm

theorem get?_modify (j : Json) (k : String) (ks : List String) (f : Json → Json) (k' : String) :
    (j.modify (k :: ks) f).get? k' = if k' = k then (j.get? k).map fun v => v.modify ks f else j.get? k' := by
  cases j with
  | obj ms =>
    have hmap : (ms.map fun m => if m.1 = k then (m.1, m.2.modify ks f) else m) =
        ms.map fun m => (m.1, if m.1 = k then m.2.modify ks f else m.2) :=
      List.map_congr_left fun m _ => by by_cases h : m.1 = k <;> simp [h]
    rw [modify, get?_obj, hmap, member?_map ms k' fun n w => if n = k then w.modify ks f else w]
    split_ifs with hk
    · rw [hk]; rfl
    · exact Option.map_id'
  | _ => exact (ite_self none).symm

/-! Equality. Of objects with distinct names it is equality name by name. -/

/-- Both are missing, or they are the same value. -/
def Agree : Option Json → Option Json → Prop
  | none, none => True
  | some v, some w => v.same w = true
  | _, _ => False

theorem Agree.isSome {x y : Option Json} (h : Agree x y) : x.isSome = y.isSome := by
  cases x <;> cases y <;> first | rfl | exact h.elim

theorem sameMembers_iff (ms ns : List (String × Json)) :
    sameMembers ms ns = true ↔ ∀ m ∈ ms, ∃ w, member? ns m.1 = some w ∧ m.2.same w = true := by
  induction ms with
  | nil => simp [sameMembers]
  | cons m ms ih =>
    obtain ⟨k, v⟩ := m
    rw [sameMembers, Bool.and_eq_true, ih, List.forall_mem_cons]
    cases member? ns k with
    | none => simp
    | some w => simp

theorem DistinctMembers.of_mem {ms : List (String × Json)} (h : DistinctMembers ms) {k : String} {v : Json}
    (hm : (k, v) ∈ ms) :
    v.Distinct := by
  induction ms with
  | nil => cases hm
  | cons n ms ih =>
    obtain ⟨l, w⟩ := n
    rcases List.mem_cons.mp hm with he | hm
    · obtain ⟨-, rfl⟩ := Prod.mk.inj he
      exact h.1
    · exact ih h.2 hm

theorem Distinct.get? {j : Json} (h : j.Distinct) {k : String} {v : Json} (hv : j.get? k = some v) : v.Distinct := by
  obtain ⟨ms, rfl⟩ := get?_obj_of_some hv
  exact DistinctMembers.of_mem h.2 (member?_mem hv)

theorem Distinct.path? {j : Json} (h : j.Distinct) {ks : List String} {v : Json} (hv : j.path? ks = some v) :
    v.Distinct := by
  induction ks generalizing j with
  | nil =>
    obtain rfl := Option.some.inj ((path?_nil j).symm.trans hv)
    exact h
  | cons k ks ih =>
    rw [path?_cons, Option.bind_eq_some_iff] at hv
    obtain ⟨w, hw, hv⟩ := hv
    exact ih (h.get? hw) hv

theorem same_obj_iff {ms ns : List (String × Json)} (hm : (ms.map Prod.fst).Nodup) (hn : (ns.map Prod.fst).Nodup) :
    (obj ms).same (obj ns) = true ↔ ∀ k, Agree (member? ms k) (member? ns k) := by
  rw [same, Bool.and_eq_true, decide_eq_true_eq, sameMembers_iff]
  constructor
  · rintro ⟨hlen, hall⟩ k
    cases hk : member? ms k with
    | some v =>
      obtain ⟨w, hw, hs⟩ := hall _ (member?_mem hk)
      rw [hw]
      exact hs
    | none =>
      -- the names of `ms` are among those of `ns`, and there are as many of them
      cases hl : member? ns k with
      | none => trivial
      | some w =>
        have hsub : (ms.map Prod.fst) ⊆ ns.map Prod.fst := fun l hl' => by
          obtain ⟨m, hmem, rfl⟩ := List.mem_map.mp hl'
          obtain ⟨w', hw', -⟩ := hall m hmem
          exact List.mem_map.mpr ⟨_, member?_mem hw', rfl⟩
        have hperm := (List.subperm_of_subset hm hsub).perm_of_length_le (by simp [hlen])
        obtain ⟨m, hmem, hmk⟩ := List.mem_map.mp (hperm.mem_iff.mpr (List.mem_map_of_mem (member?_mem hl)))
        exact absurd hmk (member?_eq_none.mp hk m hmem)
  · intro h
    have hmem : ∀ k, k ∈ ms.map Prod.fst ↔ k ∈ ns.map Prod.fst := fun k => by
      have hsome : ∀ ls : List (String × Json), k ∈ ls.map Prod.fst ↔ (member? ls k).isSome = true := fun ls => by
        rw [← not_iff_not, Bool.not_eq_true, Option.isSome_eq_false_iff, Option.isNone_iff_eq_none, member?_eq_none]
        simp only [List.mem_map, not_exists, not_and]
      rw [hsome, hsome, (h k).isSome]
    have hperm : (ms.map Prod.fst).Perm (ns.map Prod.fst) := (List.perm_ext_iff_of_nodup hm hn).mpr hmem
    refine ⟨by simpa using hperm.length_eq, fun m hmm => ?_⟩
    have hk := h m.1
    rw [member?_of_mem hm (v := m.2) hmm] at hk
    cases hw : member? ns m.1 with
    | none => rw [hw] at hk; exact hk.elim
    | some w => rw [hw] at hk; exact ⟨w, rfl, hk⟩

/-! The canonical form has the same members. -/

theorem member?_orderedInsert (m : String × Json) (ms : List (String × Json)) (k : String) :
    member? (ms.orderedInsert (fun a b => a.1 ≤ b.1) m) k = member? (m :: ms) k := by
  induction ms with
  | nil => rfl
  | cons n ms ih =>
    rw [List.orderedInsert_cons]
    split_ifs with h
    · rfl
    · have hne : m.1 ≠ n.1 := fun he => h (he ▸ String.le_refl _)
      rw [member?_cons, ih, member?_cons, member?_cons, member?_cons]
      by_cases hm : m.1 = k
      · rw [if_pos hm, if_neg fun hn => hne (hm.trans hn.symm), Option.or_none, Option.or_none]
      · rw [if_neg hm, Option.or_none, Option.or_none]

/-- A stable sort keeps the last of two members with one name the last. -/
theorem member?_sort (ms : List (String × Json)) (k : String) :
    member? (ms.insertionSort fun a b => a.1 ≤ b.1) k = member? ms k := by
  induction ms with
  | nil => rfl
  | cons m ms ih => rw [List.insertionSort_cons, member?_orderedInsert, member?_cons, ih, member?_cons]

theorem get?_canon (j : Json) (k : String) : j.canon.get? k = (j.get? k).map canon := by
  cases j with
  | obj ms => rw [canon, get?_obj, member?_sort, canonMembers_eq, member?_map ms k fun _ => canon, get?_obj]
  | _ => rfl

theorem asStr?_canon (j : Json) : j.canon.asStr? = j.asStr? := by cases j <;> rfl

end Json

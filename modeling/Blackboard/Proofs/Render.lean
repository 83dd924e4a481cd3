import Mathlib.Data.Finset.Card
import Mathlib.Data.List.Dedup
import Mathlib.Logic.Relation
import Blackboard.Lib.JsonPaths
import Blackboard.Spec.Render

/-! `inline_refs` replaces each reference by its unfolded definition. Definitions are merged before they are
walked, so the induction is over what a definition leads to, for any members laid over it. -/

namespace Blackboard.Render

/-! References. -/

mutual

/-- The names that a value refers to. Members called "$defs" are left out, as in the walk. -/
def refs : Json → List String
  | .obj node => (ref? node).toList ++ refsMembers node
  | .arr xs => refsAll xs
  | .null | .bool _ | .num _ | .float _ | .str _ => []

def refsAll : List Json → List String
  | [] => []
  | x :: xs => refs x ++ refsAll xs

def refsMembers : List (String × Json) → List String
  | [] => []
  | (k, v) :: ms => (if k = "$defs" then [] else refs v) ++ refsMembers ms

end

theorem mem_refsAll {b : String} {xs : List Json} : b ∈ refsAll xs ↔ ∃ x ∈ xs, b ∈ refs x := by
  induction xs with
  | nil => simp [refsAll]
  | cons x xs ih => rw [refsAll, List.mem_append, ih, List.exists_mem_cons_iff]

theorem mem_refsMembers {b : String} {ms : List (String × Json)} :
    b ∈ refsMembers ms ↔ ∃ m ∈ ms, m.1 ≠ "$defs" ∧ b ∈ refs m.2 := by
  induction ms with
  | nil => simp [refsMembers]
  | cons m ms ih =>
    rw [refsMembers, List.mem_append, ih, List.exists_mem_cons_iff]
    refine or_congr_left ?_
    split_ifs with h
    · exact iff_of_false List.not_mem_nil fun hb => hb.1 h
    · exact ⟨fun hb => ⟨h, hb⟩, And.right⟩

mutual

/-- No object anywhere is a reference. -/
def noRefs : Json → Bool
  | .obj node => (ref? node).isNone && noRefsMembers node
  | .arr xs => noRefsAll xs
  | .null | .bool _ | .num _ | .float _ | .str _ => true

def noRefsAll : List Json → Bool
  | [] => true
  | x :: xs => noRefs x && noRefsAll xs

def noRefsMembers : List (String × Json) → Bool
  | [] => true
  | (_, v) :: ms => noRefs v && noRefsMembers ms

end

theorem noRefsAll_iff {xs : List Json} : noRefsAll xs = true ↔ ∀ x ∈ xs, noRefs x = true := by
  induction xs with
  | nil => simp [noRefsAll]
  | cons x xs ih => rw [noRefsAll, Bool.and_eq_true, ih, List.forall_mem_cons]

theorem noRefsMembers_iff {ms : List (String × Json)} : noRefsMembers ms = true ↔ ∀ m ∈ ms, noRefs m.2 = true := by
  induction ms with
  | nil => simp [noRefsMembers]
  | cons m ms ih => rw [noRefsMembers, Bool.and_eq_true, ih, List.forall_mem_cons]

theorem noRefs_obj {ms : List (String × Json)} :
    noRefs (.obj ms) = true ↔ ref? ms = none ∧ ∀ m ∈ ms, noRefs m.2 = true := by
  rw [noRefs, Bool.and_eq_true, Option.isNone_iff_eq_none, noRefsMembers_iff]

/-! Unfolding. -/

mutual

/-- Each reference replaced by what its definition unfolds to, under the members beside it. Members called
"$defs" are dropped. -/
def subst (U : String → List (String × Json)) : Json → Json
  | .obj node =>
    .obj (match ref? node with
      | some name => Dict.update (U name) (without "$ref" (substMembers U node))
      | none => substMembers U node)
  | .arr xs => .arr (substAll U xs)
  | .null => .null
  | .bool b => .bool b
  | .num n => .num n
  | .float x => .float x
  | .str s => .str s

def substAll (U : String → List (String × Json)) : List Json → List Json
  | [] => []
  | x :: xs => subst U x :: substAll U xs

def substMembers (U : String → List (String × Json)) : List (String × Json) → List (String × Json)
  | [] => []
  | (k, v) :: ms => if k = "$defs" then substMembers U ms else (k, subst U v) :: substMembers U ms

end

theorem substAll_eq (U : String → List (String × Json)) (xs : List Json) : substAll U xs = xs.map (subst U) := by
  induction xs with
  | nil => rfl
  | cons x xs ih => rw [substAll, ih, List.map_cons]

theorem substMembers_eq (U : String → List (String × Json)) (ms : List (String × Json)) :
    substMembers U ms = (without "$defs" ms).map (Prod.map id (subst U)) := by
  induction ms with
  | nil => rfl
  | cons m ms ih =>
    rw [substMembers, ih]
    by_cases h : m.1 = "$defs"
    · rw [if_pos h, without, without, List.filter_cons_of_neg (by simpa using h)]
    · rw [if_neg h, without, without, List.filter_cons_of_pos (by simpa using h)]
      rfl

theorem subst_leaf (U : String → List (String × Json)) {v : Json} (h : v.isLeaf = true) : subst U v = v := by
  cases v with
  | arr xs => cases h
  | obj ms => cases h
  | _ => rfl

/-- What each definition unfolds to. -/
def Unfolding (defs : List (String × Json)) (U : String → List (String × Json)) : Prop :=
  ∀ name target, defs.lookup name = some (.obj target) → Json.obj (U name) = subst U (.obj target)

def Refers (defs : List (String × Json)) (a b : String) : Prop := ∃ t, defs.lookup a = some t ∧ b ∈ refs t

def Acyclic (defs : List (String × Json)) : Prop := ∀ a, ¬ Relation.TransGen (Refers defs) a a

/-- A reference in the schema or in a definition. -/
def Referred (schema : List (String × Json)) (b : String) : Prop :=
  b ∈ refs (.obj schema) ∨ ∃ a, Refers (definitions schema) a b

def Resolved (schema : List (String × Json)) : Prop :=
  ∀ b, Referred schema b → ∃ t, (definitions schema).lookup b = some t

/-- Every definition that is referred to is an object. -/
def Objects (schema : List (String × Json)) : Prop :=
  ∀ b t, Referred schema b → (definitions schema).lookup b = some t → ∃ ms, t = .obj ms

/-! Acyclic definitions can be gone through from those that refer to no other. -/

section

open Classical

/-- The definitions that one leads to, itself among them. -/
noncomputable def reached (defs : List (String × Json)) (a : String) : Finset String :=
  (defs.map Prod.fst).toFinset.filter (Relation.ReflTransGen (Refers defs) a)

theorem card_reached {defs : List (String × Json)} (h : Acyclic defs) {a b : String} (hab : Refers defs a b) :
    (reached defs b).card < (reached defs a).card := by
  refine Finset.card_lt_card (Finset.ssubset_iff_of_subset (fun c hc => ?_) |>.mpr ⟨a, ?_, fun ha => ?_⟩)
  · obtain ⟨hmem, hbc⟩ := Finset.mem_filter.mp hc
    exact Finset.mem_filter.mpr ⟨hmem, hbc.head hab⟩
  · obtain ⟨t, ht, -⟩ := hab
    refine Finset.mem_filter.mpr ⟨List.mem_toFinset.mpr ?_, Relation.ReflTransGen.refl⟩
    by_contra hnot
    rw [List.lookup_eq_none_iff.mpr] at ht
    · cases ht
    · exact fun p hp => bne_iff_ne.mpr fun he => hnot (he ▸ List.mem_map_of_mem hp)
  · exact h a (Relation.TransGen.head' hab (Finset.mem_filter.mp ha).2)

end

theorem wellFounded_refers {defs : List (String × Json)} (h : Acyclic defs) : WellFounded fun b a => Refers defs a b :=
  Subrelation.wf (fun hab => card_reached h hab) (measure fun a => (reached defs a).card).wf

/-! What the definitions unfold to. -/

theorem refs_obj {node : List (String × Json)} {b : String} :
    b ∈ refs (.obj node) ↔ ref? node = some b ∨ ∃ m ∈ node, m.1 ≠ "$defs" ∧ b ∈ refs m.2 := by
  rw [refs, List.mem_append, Option.mem_toList, mem_refsMembers]

theorem mem_without {name : String} {node : List (String × Json)} {m : String × Json} :
    m ∈ without name node ↔ m ∈ node ∧ m.1 ≠ name := by
  rw [without, List.mem_filter, decide_eq_true_eq]

theorem subst_congr {U U' : String → List (String × Json)} (v : Json) :
    (∀ b ∈ refs v, U b = U' b) → subst U v = subst U' v := by
  induction v using Json.induct with
  | leaf v hv =>
    intro _
    rw [subst_leaf U hv, subst_leaf U' hv]
  | list xs ih =>
    intro h
    rw [subst, subst, substAll_eq, substAll_eq]
    exact congrArg Json.arr (List.map_congr_left fun x hx => ih x hx fun b hb => h b (mem_refsAll.mpr ⟨x, hx, hb⟩))
  | dict node ih =>
    intro h
    have hmembers : substMembers U node = substMembers U' node := by
      rw [substMembers_eq, substMembers_eq]
      refine List.map_congr_left fun m hm => ?_
      obtain ⟨hm, hk⟩ := mem_without.mp hm
      exact Prod.ext rfl (ih m hm fun b hb => h b (refs_obj.mpr (Or.inr ⟨m, hm, hk, hb⟩)))
    rw [subst, subst, hmembers]
    cases hr : ref? node with
    | none => rfl
    | some name => simp only [h name (refs_obj.mpr (Or.inl hr))]

theorem exists_unfolding {defs : List (String × Json)} (h : Acyclic defs) : ∃ U, Unfolding defs U := by
  classical
  -- each definition is unfolded with those that it refers to
  let F : (a : String) → ((b : String) → Refers defs a b → List (String × Json)) → List (String × Json) := fun a rec =>
    (defs.lookup a).elim [] fun target =>
      (subst (fun b => if hb : Refers defs a b then rec b hb else []) target).members
  refine ⟨(wellFounded_refers h).fix F, fun name target ht => ?_⟩
  rw [WellFounded.fix_eq]
  have hcongr : subst (fun b => if hb : Refers defs name b then (wellFounded_refers h).fix F b else []) (.obj target) =
      subst ((wellFounded_refers h).fix F) (.obj target) :=
    subst_congr _ fun b hb => dif_pos ⟨_, ht, hb⟩
  simp only [F, ht, Option.elim_some]
  rw [← hcongr, subst]
  rfl

/-! The walk ends. -/

/-- The walk gives this, however much deeper it may go. -/
def Finishes (defs : List (String × Json)) (v w : Json) : Prop := ∃ n, ∀ m, n ≤ m → walk defs m v = some w

variable {defs : List (String × Json)} {U : String → List (String × Json)}

theorem finishes_leaf {v : Json} (h : v.isLeaf = true) : Finishes defs v v := by
  refine ⟨1, fun m hm => ?_⟩
  obtain ⟨m, rfl⟩ := Nat.exists_eq_succ_of_ne_zero (Nat.one_le_iff_ne_zero.mp hm)
  cases v with
  | arr xs => cases h
  | obj ms => cases h
  | _ => rfl

theorem exists_bound {A : Type} {P : A → ℕ → Prop} {xs : List A} (h : ∀ x ∈ xs, ∃ n, ∀ m, n ≤ m → P x m) :
    ∃ n, ∀ m, n ≤ m → ∀ x ∈ xs, P x m := by
  induction xs with
  | nil => exact ⟨0, fun _ _ _ hx => absurd hx List.not_mem_nil⟩
  | cons x xs ih =>
    obtain ⟨n, hn⟩ := h x List.mem_cons_self
    obtain ⟨k, hk⟩ := ih fun y hy => h y (List.mem_cons_of_mem x hy)
    refine ⟨max n k, fun m hm => List.forall_mem_cons.mpr ⟨?_, ?_⟩⟩
    · exact hn m (le_trans (le_max_left n k) hm)
    · exact hk m (le_trans (le_max_right n k) hm)

theorem mapM_eq {A B : Type} {g : A → Option B} {f : A → B} {xs : List A} (h : ∀ x ∈ xs, g x = some (f x)) :
    xs.mapM g = some (xs.map f) := by
  induction xs with
  | nil => rfl
  | cons x xs ih =>
    rw [List.mapM_cons, h x List.mem_cons_self, ih fun y hy => h y (List.mem_cons_of_mem x hy)]
    rfl

theorem finishes_arr {xs : List Json} (h : ∀ x ∈ xs, Finishes defs x (subst U x)) :
    Finishes defs (.arr xs) (subst U (.arr xs)) := by
  obtain ⟨n, hn⟩ := exists_bound h
  refine ⟨n + 1, fun m hm => ?_⟩
  obtain ⟨m, rfl⟩ := Nat.exists_eq_add_of_le' (Nat.succ_le_of_lt (Nat.lt_of_lt_of_le (Nat.succ_pos n) hm))
  rw [walk, mapM_eq (hn m (Nat.le_of_succ_le_succ hm)), subst, substAll_eq]
  rfl

theorem finishes_node {node : List (String × Json)} (hr : ref? node = none)
    (h : ∀ m ∈ node, m.1 ≠ "$defs" → Finishes defs m.2 (subst U m.2)) :
    Finishes defs (.obj node) (.obj (substMembers U node)) := by
  have hall : ∀ m ∈ without "$defs" node, ∃ n, ∀ k, n ≤ k → walk defs k m.2 = some (subst U m.2) := by
    intro m hm
    obtain ⟨hm, hk⟩ := mem_without.mp hm
    exact h m hm hk
  obtain ⟨n, hn⟩ := exists_bound hall
  refine ⟨n + 1, fun m hm => ?_⟩
  obtain ⟨m, rfl⟩ := Nat.exists_eq_add_of_le' (Nat.succ_le_of_lt (Nat.lt_of_lt_of_le (Nat.succ_pos n) hm))
  have hmap : (without "$defs" node).mapM (fun k => (walk defs m k.2).map (k.1, ·)) =
      some ((without "$defs" node).map (Prod.map id (subst U))) := by
    refine mapM_eq fun k hk => ?_
    rw [hn m (Nat.le_of_succ_le_succ hm) k hk]
    rfl
  rw [walk, hr]
  simp only
  rw [hmap, substMembers_eq]
  rfl

theorem finishes_ref {node target : List (String × Json)} {name : String} {w : Json} (hr : ref? node = some name)
    (ht : defs.lookup name = some (.obj target))
    (h : Finishes defs (.obj (Dict.update target (without "$ref" node))) w) :
    Finishes defs (.obj node) w := by
  obtain ⟨n, hn⟩ := h
  refine ⟨n + 1, fun m hm => ?_⟩
  obtain ⟨m, rfl⟩ := Nat.exists_eq_add_of_le' (Nat.succ_le_of_lt (Nat.lt_of_lt_of_le (Nat.succ_pos n) hm))
  rw [walk, hr]
  simp only [ht]
  exact hn m (Nat.le_of_succ_le_succ hm)

/-- A definition with members laid over it, which are walked to what they unfold to. -/
def Merges (defs : List (String × Json)) (U : String → List (String × Json)) (name : String) : Prop :=
  ∀ target extra, defs.lookup name = some (.obj target) → "$ref" ∉ extra.map Prod.fst →
    (∀ m ∈ extra, m.1 ≠ "$defs" → Finishes defs m.2 (subst U m.2)) →
      Finishes defs (.obj (Dict.update target extra)) (.obj (Dict.update (U name) (substMembers U extra)))

theorem not_mem_without (name : String) (node : List (String × Json)) : name ∉ (without name node).map Prod.fst := by
  intro h
  obtain ⟨m, hm, he⟩ := List.mem_map.mp h
  exact (mem_without.mp hm).2 he

theorem substMembers_update (d e : List (String × Json)) :
    substMembers U (Dict.update d e) = Dict.update (substMembers U d) (substMembers U e) := by
  simp only [substMembers_eq, without]
  rw [Dict.filter_update (fun k => k ≠ "$defs"), Dict.map_update]

theorem without_substMembers (name : String) (node : List (String × Json)) :
    without name (substMembers U node) = substMembers U (without name node) := by
  simp only [substMembers_eq, without, List.filter_map, List.filter_filter]
  refine congrArg _ (List.filter_congr fun m _ => ?_)
  simp only [Function.comp_apply, Prod.map_fst, id_eq, Bool.and_comm]

/-- Without reference the members are walked; a reference is laid under the others. -/
theorem finishes_subst (v : Json) :
    (∀ b ∈ refs v, (∃ t, defs.lookup b = some (.obj t)) ∧ Merges defs U b) → Finishes defs v (subst U v) := by
  induction v using Json.induct with
  | leaf v hv =>
    intro _
    rw [subst_leaf U hv]
    exact finishes_leaf hv
  | list xs ih => exact fun h => finishes_arr fun x hx => ih x hx fun b hb => h b (mem_refsAll.mpr ⟨x, hx, hb⟩)
  | dict node ih =>
    intro h
    have hmembers : ∀ m ∈ node, m.1 ≠ "$defs" → Finishes defs m.2 (subst U m.2) := fun m hm hk =>
      ih m hm fun b hb => h b (refs_obj.mpr (Or.inr ⟨m, hm, hk, hb⟩))
    rw [subst]
    cases hr : ref? node with
    | none => exact finishes_node hr hmembers
    | some name =>
      obtain ⟨⟨target, ht⟩, hmerge⟩ := h name (refs_obj.mpr (Or.inl hr))
      simp only [without_substMembers]
      exact finishes_ref hr ht (hmerge target (without "$ref" node) ht (not_mem_without _ _) fun m hm =>
        hmembers m (mem_without.mp hm).1)

theorem ref?_update {target extra : List (String × Json)} (h : "$ref" ∉ extra.map Prod.fst) :
    ref? (Dict.update target extra) = ref? target := by
  rw [ref?, ref?, Dict.lookup_update h]

theorem without_of_not_mem {name : String} {node : List (String × Json)} (h : name ∉ node.map Prod.fst) :
    without name node = node := by
  refine List.filter_eq_self.mpr fun m hm => decide_eq_true fun he => h ?_
  exact he ▸ List.mem_map_of_mem hm

theorem merges (hacyclic : Acyclic defs) (hobjects : ∀ a b, Refers defs a b → ∃ t, defs.lookup b = some (.obj t))
    (hU : Unfolding defs U) (name : String) : Merges defs U name := by
  induction name using (wellFounded_refers hacyclic).induction with
  | _ name ih =>
    intro target extra ht hextra hfin
    have hrefs : ∀ b ∈ refs (.obj target), (∃ t, defs.lookup b = some (.obj t)) ∧ Merges defs U b := fun b hb =>
      ⟨hobjects name b ⟨_, ht, hb⟩, ih b ⟨_, ht, hb⟩⟩
    have hmembers : ∀ m ∈ Dict.update target extra, m.1 ≠ "$defs" → Finishes defs m.2 (subst U m.2) := by
      intro m hm hk
      rcases Dict.mem_update hm with hm | hm
      · exact finishes_subst m.2 fun b hb => hrefs b (refs_obj.mpr (Or.inr ⟨m, hm, hk, hb⟩))
      · exact hfin m hm hk
    have hunfold := hU name target ht
    rw [subst, Json.obj.injEq] at hunfold
    cases hr : ref? target with
    | none =>
      rw [hr] at hunfold
      rw [hunfold, ← substMembers_update]
      exact finishes_node ((ref?_update hextra).trans hr) hmembers
    | some inner =>
      -- the definition is itself a reference: what is beside it goes over the inner one, and then the extra members
      rw [hr] at hunfold
      obtain ⟨⟨innerTarget, hinner⟩, hmerge⟩ := hrefs inner (refs_obj.mpr (Or.inl hr))
      have hlaid : without "$ref" (Dict.update target extra) = Dict.update (without "$ref" target) extra := by
        rw [without, Dict.filter_update (fun k => k ≠ "$ref")]
        exact congrArg _ (without_of_not_mem hextra)
      have hresult : Dict.update (U name) (substMembers U extra) =
          Dict.update (U inner) (substMembers U (Dict.update (without "$ref" target) extra)) := by
        rw [hunfold, substMembers_update, Dict.update_assoc, without_substMembers]
      rw [hresult]
      refine finishes_ref ((ref?_update hextra).trans hr) hinner ?_
      rw [hlaid]
      refine hmerge innerTarget _ hinner (fun h => ?_) fun m hm hk => ?_
      · rcases Dict.mem_keys_update.mp h with h | h
        · exact not_mem_without _ _ h
        · exact hextra h
      · rw [← hlaid] at hm
        exact hmembers m (mem_without.mp hm).1 hk

/-! The result has no reference. -/

theorem lookup_substMembers {k : String} (hk : k ≠ "$defs") (node : List (String × Json)) :
    (substMembers U node).lookup k = (node.lookup k).map (subst U) := by
  induction node with
  | nil => rfl
  | cons m node ih =>
    rw [substMembers]
    by_cases hm : k = m.1
    · subst hm
      rw [if_neg hk, List.lookup_cons, List.lookup_cons, beq_self_eq_true]
      rfl
    · have hne : (k == m.1) = false := beq_false_of_ne hm
      split_ifs
      · rw [ih, List.lookup_cons, hne]
      · rw [List.lookup_cons, List.lookup_cons, hne, ih]

theorem ref?_substMembers {node : List (String × Json)} (h : ref? node = none) : ref? (substMembers U node) = none := by
  rw [ref?, lookup_substMembers (by decide)]
  rw [ref?] at h
  cases hl : node.lookup "$ref" with
  | none => rfl
  | some v =>
    rw [hl] at h
    cases v with
    | str s => exact h
    | _ => rfl

theorem noRefs_subst (v : Json) : (∀ b ∈ refs v, noRefs (.obj (U b)) = true) → noRefs (subst U v) = true := by
  induction v using Json.induct with
  | leaf v hv =>
    intro _
    rw [subst_leaf U hv]
    cases v with
    | arr xs => cases hv
    | obj ms => cases hv
    | _ => rfl
  | list xs ih =>
    intro h
    rw [subst, substAll_eq, noRefs, noRefsAll_iff]
    intro y hy
    obtain ⟨x, hx, rfl⟩ := List.mem_map.mp hy
    exact ih x hx fun b hb => h b (mem_refsAll.mpr ⟨x, hx, hb⟩)
  | dict node ih =>
    intro h
    have hmembers : ∀ m ∈ substMembers U node, noRefs m.2 = true := by
      intro m hm
      rw [substMembers_eq] at hm
      obtain ⟨k, hk, rfl⟩ := List.mem_map.mp hm
      obtain ⟨hk, hne⟩ := mem_without.mp hk
      exact ih k hk fun b hb => h b (refs_obj.mpr (Or.inr ⟨k, hk, hne, hb⟩))
    rw [subst, noRefs_obj]
    cases hr : ref? node with
    | none => exact ⟨ref?_substMembers hr, hmembers⟩
    | some name =>
      obtain ⟨href, hvalues⟩ := noRefs_obj.mp (h name (refs_obj.mpr (Or.inl hr)))
      refine ⟨(ref?_update (not_mem_without _ _)).trans href, fun m hm => ?_⟩
      rcases Dict.mem_update hm with hm | hm
      · exact hvalues m hm
      · exact hmembers m (mem_without.mp hm).1

theorem noRefs_unfolding (hacyclic : Acyclic defs)
    (hobjects : ∀ a b, Refers defs a b → ∃ t, defs.lookup b = some (.obj t))
    (hU : Unfolding defs U) (name : String) :
    (∃ t, defs.lookup name = some (.obj t)) → noRefs (.obj (U name)) = true := by
  induction name using (wellFounded_refers hacyclic).induction with
  | _ name ih =>
    rintro ⟨t, ht⟩
    rw [hU name t ht]
    exact noRefs_subst _ fun b hb => ih b ⟨_, ht, hb⟩ (hobjects name b ⟨_, ht, hb⟩)

theorem noRefs_erase {v : Json} (h : noRefs v = true) (k : String) (hk : k ≠ "$ref") : noRefs (v.erase k) = true := by
  cases v with
  | obj ms =>
    obtain ⟨href, hms⟩ := noRefs_obj.mp h
    refine noRefs_obj.mpr ⟨?_, fun m hm => hms m (List.mem_filter.mp hm).1⟩
    rw [← href, ref?, ref?]
    have hlookup : (ms.filter fun m => m.1 ≠ k).lookup "$ref" = ms.lookup "$ref" := by
      clear h href hms
      induction ms with
      | nil => rfl
      | cons m ms ih =>
        by_cases hm : m.1 = k
        · rw [List.filter_cons_of_neg (by simpa using hm), ih, List.lookup_cons, beq_false_of_ne (hm ▸ Ne.symm hk)]
        · rw [List.filter_cons_of_pos (by simpa using hm), List.lookup_cons, List.lookup_cons, ih]
    rw [hlookup]
  | _ => exact h

/-! `inline_refs`. -/

/-- The definitions unfold, and however they are unfolded, the walk ends with what the schema then is, which has no
reference. -/
def Inlined (schema : List (String × Json)) : Prop :=
  (∃ U, Unfolding (definitions schema) U) ∧ ∀ U, Unfolding (definitions schema) U →
    noRefs ((subst U (.obj schema)).erase "title") = true ∧
      ∃ n, ∀ m, n ≤ m → inlineRefs m schema = some ((subst U (.obj schema)).erase "title")

theorem inlineRefs_unfolds {schema : List (String × Json)} (hacyclic : Acyclic (definitions schema))
    (hresolved : Resolved schema) (hobjects : Objects schema) : Inlined schema := by
  have hreferred : ∀ b, Referred schema b → ∃ ms, (definitions schema).lookup b = some (.obj ms) := by
    intro b hb
    obtain ⟨t, ht⟩ := hresolved b hb
    obtain ⟨ms, rfl⟩ := hobjects b t hb ht
    exact ⟨ms, ht⟩
  have hdefs : ∀ a b, Refers (definitions schema) a b → ∃ ms, (definitions schema).lookup b = some (.obj ms) :=
    fun a b hab => hreferred b (Or.inr ⟨a, hab⟩)
  refine ⟨exists_unfolding hacyclic, fun U hU => ⟨?_, ?_⟩⟩
  · exact noRefs_erase (noRefs_subst _ fun b hb => noRefs_unfolding hacyclic hdefs hU b (hreferred b (Or.inl hb))) _
      (by decide)
  · obtain ⟨n, hn⟩ := finishes_subst (.obj schema) fun b hb =>
      ⟨hreferred b (Or.inl hb), merges hacyclic hdefs hU b⟩
    exact ⟨n, fun m hm => by rw [inlineRefs, hn m hm, Option.map_some]⟩

theorem mem_of_refers {a b : String} (h : Refers defs a b) : ∃ d ∈ defs, d.1 = a ∧ b ∈ refs d.2 := by
  obtain ⟨t, ht, hb⟩ := h
  obtain ⟨l₁, l₂, rfl, -⟩ := List.lookup_eq_some_iff.mp ht
  exact ⟨(a, t), by simp, rfl, hb⟩

/-! A schema of a tool, and one with a definition that is not an object. -/

theorem acyclic_of_rank {defs : List (String × Json)} (rank : String → ℕ)
    (h : ∀ d ∈ defs, ∀ b ∈ refs d.2, rank b < rank d.1) : Acyclic defs := by
  have hlt : ∀ {a b}, Relation.TransGen (Refers defs) a b → rank b < rank a := by
    have hone : ∀ {a b}, Refers defs a b → rank b < rank a := by
      intro a b hab
      obtain ⟨d, hd, rfl, hb⟩ := mem_of_refers hab
      exact h d hd b hb
    intro a b hab
    induction hab with
    | single hab => exact hone hab
    | tail _ hbc ih => exact (hone hbc).trans ih
  exact fun a ha => lt_irrefl _ (hlt ha)

namespace Sample

/-- Two fields of one type, and a type that is another one with a description of its own. -/
def schema : List (String × Json) :=
  [("title", .str "Args"),
    ("properties", .obj [("from", .obj [("$ref", .str "#/$defs/Moment"), ("title", .str "From")])]),
    ("$defs", .obj [("Moment", .obj [("$ref", .str "#/$defs/Text"), ("description", .str "RFC 3339")]),
      ("Text", .obj [("type", .str "string")])])]

def anyDefinition : List (String × Json) := [("$ref", .str "#/$defs/Any"), ("$defs", .obj [("Any", .bool true)])]

end Sample

theorem inlineRefs_unfolds_schema : Inlined Sample.schema := by
  have hroot : refs (.obj Sample.schema) = ["Moment"] := by decide +kernel
  have hranks : (definitions Sample.schema).all (fun d => (refs d.2).all fun b =>
      (if b = "Text" then 0 else 1) < (if d.1 = "Text" then 0 else 1)) = true := by decide +kernel
  have htext : (definitions Sample.schema).all (fun d => (refs d.2).all fun b => b = "Text") = true := by decide +kernel
  have hreferred : ∀ b, Referred Sample.schema b → b = "Moment" ∨ b = "Text" := by
    rintro b (hb | ⟨a, hab⟩)
    · exact Or.inl (List.mem_singleton.mp (hroot ▸ hb))
    · obtain ⟨d, hd, -, hb⟩ := mem_of_refers hab
      exact Or.inr (of_decide_eq_true (List.all_eq_true.mp (List.all_eq_true.mp htext d hd) b hb))
  refine inlineRefs_unfolds (acyclic_of_rank (fun b => if b = "Text" then 0 else 1) fun d hd b hb => ?_)
    (fun b hb => ?_) fun b t hb ht => ?_
  · exact of_decide_eq_true (List.all_eq_true.mp (List.all_eq_true.mp hranks d hd) b hb)
  · rcases hreferred b hb with rfl | rfl
    · exact ⟨_, rfl⟩
    · exact ⟨_, rfl⟩
  · rcases hreferred b hb with rfl | rfl
    · exact ⟨_, (Option.some.inj ht).symm⟩
    · exact ⟨_, (Option.some.inj ht).symm⟩

/-- `{**True}` raises. -/
theorem inlineRefs_raises : ¬ ∀ schema, Acyclic (definitions schema) → Resolved schema → Inlined schema := by
  intro h
  have hrefers : ∀ a b, ¬ Refers (definitions Sample.anyDefinition) a b := by
    intro a b hab
    obtain ⟨d, hd, -, hb⟩ := mem_of_refers hab
    rw [List.mem_singleton.mp hd] at hb
    cases hb
  have hroot : refs (.obj Sample.anyDefinition) = ["Any"] := by decide +kernel
  have hacyclic : Acyclic (definitions Sample.anyDefinition) := by
    intro a ha
    obtain ⟨b, -, hab⟩ := (Relation.TransGen.tail'_iff).mp ha
    exact hrefers _ _ hab
  have hresolved : Resolved Sample.anyDefinition := by
    rintro b (hb | ⟨a, hab⟩)
    · rw [hroot] at hb
      rw [List.mem_singleton.mp hb]
      exact ⟨_, rfl⟩
    · exact absurd hab (hrefers a b)
  obtain ⟨⟨U, hU⟩, hall⟩ := h _ hacyclic hresolved
  obtain ⟨-, n, hn⟩ := hall U hU
  have hsome := hn (n + 1) (Nat.le_succ n)
  have hnone : inlineRefs (n + 1) Sample.anyDefinition = none := by
    have href : ref? Sample.anyDefinition = some "Any" := by decide +kernel
    rw [inlineRefs, walk, href]
    rfl
  rw [hnone] at hsome
  cases hsome

end Blackboard.Render

import Mathlib.Data.List.Sort
import Blackboard.Spec.Retrieval

/-! When two reports have no differences. Objects are compared member by member, with the tolerance, but lists
whole and exactly. -/

namespace Blackboard.Kb

variable (repr : PyJson → PyStr) (tolerance : Double)

/-! Agreement. -/

/-- Two leaves are equal, or numbers within the tolerance of which at least one is a float. -/
def agreesLeaf (a b : PyJson) : Bool :=
  a.equal b || (a.isFloat || b.isFloat) && (operand? a).any fun x => (operand? b).any fun y => near tolerance x y

mutual

/-- The reports have one shape, and their leaves agree. -/
def agrees : PyJson → PyJson → Bool
  | .arr xs, .arr ys => agreesAll xs ys
  | .obj ms, .obj ns => agreesMembers ms ns && ns.all fun n => n.1 ∈ ms.map Prod.fst
  | a, b => agreesLeaf tolerance a b

def agreesAll : List PyJson → List PyJson → Bool
  | [], [] => true
  | x :: xs, y :: ys => agrees x y && agreesAll xs ys
  | _, _ => false

def agreesMembers : List (PyStr × PyJson) → List (PyStr × PyJson) → Bool
  | [], _ => true
  | (k, v) :: ms, ns => (ns.lookup k).any (fun w => agrees v w) && agreesMembers ms ns

end

mutual

/-- Corresponding objects have the same keys, and corresponding lists the same length. -/
def sameShape : PyJson → PyJson → Bool
  | .arr xs, .arr ys => sameShapeAll xs ys
  | .obj ms, .obj ns => sameShapeMembers ms ns && ns.all fun n => n.1 ∈ ms.map Prod.fst
  | .arr _, _ | .obj _, _ | _, .arr _ | _, .obj _ => false
  | _, _ => true

def sameShapeAll : List PyJson → List PyJson → Bool
  | [], [] => true
  | x :: xs, y :: ys => sameShape x y && sameShapeAll xs ys
  | _, _ => false

def sameShapeMembers : List (PyStr × PyJson) → List (PyStr × PyJson) → Bool
  | [], _ => true
  | (k, v) :: ms, ns => (ns.lookup k).any (fun w => sameShape v w) && sameShapeMembers ms ns

end

mutual

/-- Corresponding lists are equal, down to the first list on each way. -/
def listsEqual : PyJson → PyJson → Bool
  | .arr xs, .arr ys => PyJson.equalAll xs ys
  | .obj ms, .obj ns => listsEqualMembers ms ns
  | _, _ => true

def listsEqualMembers : List (PyStr × PyJson) → List (PyStr × PyJson) → Bool
  | [], _ => true
  | (k, v) :: ms, ns => (ns.lookup k).all (fun w => listsEqual v w) && listsEqualMembers ms ns

end

variable {repr tolerance}

theorem agrees_unlike {a b : PyJson} (h : a.Unlike b) : agrees tolerance a b = agreesLeaf tolerance a b := by
  rw [agrees]
  · exact h.lists
  · exact h.dicts

theorem listsEqual_unlike {a b : PyJson} (h : a.Unlike b) : listsEqual a b = true := by
  rw [listsEqual]
  · exact h.lists
  · exact h.dicts

theorem differences_unlike {a b : PyJson} (h : a.Unlike b) (path : PyStr) :
    differences repr tolerance a b path = leafDifferences repr tolerance a b path := by
  rw [differences]
  exact h.dicts

theorem agreesAll_iff : ∀ {xs ys : List PyJson},
    agreesAll tolerance xs ys = true ↔ List.Forall₂ (fun x y => agrees tolerance x y = true) xs ys
  | [], [] => iff_of_true rfl .nil
  | [], _ :: _ => iff_of_false Bool.false_ne_true (fun h => by cases h)
  | _ :: _, [] => iff_of_false Bool.false_ne_true (fun h => by cases h)
  | x :: xs, y :: ys => by rw [agreesAll, Bool.and_eq_true, agreesAll_iff, List.forall₂_cons]

theorem agreesMembers_iff {ns ms : List (PyStr × PyJson)} :
    agreesMembers tolerance ms ns = true ↔ ∀ m ∈ ms, ∃ w, ns.lookup m.1 = some w ∧ agrees tolerance m.2 w = true := by
  induction ms with
  | nil => exact iff_of_true rfl fun _ h => absurd h List.not_mem_nil
  | cons m ms ih => rw [agreesMembers, Bool.and_eq_true, ih, Option.any_eq_true, List.forall_mem_cons]

theorem sameShapeAll_iff : ∀ {xs ys : List PyJson},
    sameShapeAll xs ys = true ↔ List.Forall₂ (fun x y => sameShape x y = true) xs ys
  | [], [] => iff_of_true rfl .nil
  | [], _ :: _ => iff_of_false Bool.false_ne_true (fun h => by cases h)
  | _ :: _, [] => iff_of_false Bool.false_ne_true (fun h => by cases h)
  | x :: xs, y :: ys => by rw [sameShapeAll, Bool.and_eq_true, sameShapeAll_iff, List.forall₂_cons]

theorem sameShapeMembers_iff {ns ms : List (PyStr × PyJson)} :
    sameShapeMembers ms ns = true ↔ ∀ m ∈ ms, ∃ w, ns.lookup m.1 = some w ∧ sameShape m.2 w = true := by
  induction ms with
  | nil => exact iff_of_true rfl fun _ h => absurd h List.not_mem_nil
  | cons m ms ih => rw [sameShapeMembers, Bool.and_eq_true, ih, Option.any_eq_true, List.forall_mem_cons]

theorem listsEqualMembers_iff {ns ms : List (PyStr × PyJson)} :
    listsEqualMembers ms ns = true ↔ ∀ m ∈ ms, ∀ w, ns.lookup m.1 = some w → listsEqual m.2 w = true := by
  induction ms with
  | nil => exact iff_of_true rfl fun _ h => absurd h List.not_mem_nil
  | cons m ms ih => rw [listsEqualMembers, Bool.and_eq_true, ih, Option.all_eq_true, List.forall_mem_cons]

/-! Equal reports agree, and reports that agree have one shape. -/

theorem forall₂_imp_mem {A B : Type} {R S : A → B → Prop} {xs : List A} {ys : List B} (h : ∀ x ∈ xs, ∀ y, R x y → S x y)
    (hr : List.Forall₂ R xs ys) : List.Forall₂ S xs ys := by
  induction hr with
  | nil => exact .nil
  | cons hxy _ ih =>
    exact .cons (h _ List.mem_cons_self _ hxy) (ih fun x hx => h x (List.mem_cons_of_mem _ hx))

theorem agreesLeaf_of_equal {a b : PyJson} (hu : a.Unlike b) (h : a.equal b = true) : agrees tolerance a b = true := by
  rw [agrees_unlike hu, agreesLeaf, h, Bool.true_or]

theorem unlike_of_isLeaf {a : PyJson} (h : a.isLeaf = true) (b : PyJson) : a.Unlike b :=
  ⟨fun _ _ ha _ => (by rw [ha] at h; cases h), fun _ _ ha _ => (by rw [ha] at h; cases h)⟩

theorem agrees_of_equal (a : PyJson) : ∀ b, a.equal b = true → agrees tolerance a b = true := by
  induction a using PyJson.induct with
  | leaf a ha => exact fun b h => agreesLeaf_of_equal (unlike_of_isLeaf ha b) h
  | list xs ih =>
    intro b h
    cases b with
    | arr ys => exact agreesAll_iff.mpr (forall₂_imp_mem ih (PyJson.equalAll_iff.mp h))
    | _ => cases h
  | dict ms ih =>
    intro b h
    cases b with
    | obj ns =>
      obtain ⟨hms, hns⟩ := Bool.and_eq_true_iff.mp (show (PyJson.equalMembers ms ns && _) = true from h)
      refine Bool.and_eq_true_iff.mpr ⟨agreesMembers_iff.mpr fun m hm => ?_, hns⟩
      obtain ⟨w, hw, he⟩ := PyJson.equalMembers_iff.mp hms m hm
      exact ⟨w, hw, ih m hm w he⟩
    | _ => cases h

theorem isLeaf_of_operand? {a : PyJson} {x : Operand} (h : operand? a = some x) : a.isLeaf = true := by
  cases a with
  | arr xs => cases h
  | obj ms => cases h
  | _ => rfl

theorem isLeaf_of_number? {a : PyJson} {q : ℚ} (h : a.number? = some q) : a.isLeaf = true := by
  cases a with
  | arr xs => cases h
  | obj ms => cases h
  | _ => rfl

theorem isLeaf_of_equalLeaf {a b : PyJson} (h : a.equalLeaf b = true) : a.isLeaf = true ∧ b.isLeaf = true := by
  unfold PyJson.equalLeaf at h
  split at h
  · exact ⟨rfl, rfl⟩
  · exact ⟨rfl, rfl⟩
  · exact ⟨rfl, rfl⟩
  · split at h
    · rename_i ha hb
      exact ⟨isLeaf_of_number? ha, isLeaf_of_number? hb⟩
    · cases h

/-- What agrees as leaves is leaves. -/
theorem isLeaf_of_agrees {a b : PyJson} (hu : a.Unlike b) (h : agrees tolerance a b = true) :
    a.isLeaf = true ∧ b.isLeaf = true := by
  rw [agrees_unlike hu, agreesLeaf, Bool.or_eq_true, PyJson.equal_unlike hu] at h
  rcases h with h | h
  · exact isLeaf_of_equalLeaf h
  · obtain ⟨x, hx, h⟩ := (Option.any_eq_true _ _).mp (Bool.and_eq_true_iff.mp h).2
    obtain ⟨y, hy, -⟩ := (Option.any_eq_true _ _).mp h
    exact ⟨isLeaf_of_operand? hx, isLeaf_of_operand? hy⟩

theorem sameShape_of_isLeaf {a b : PyJson} (ha : a.isLeaf = true) (hb : b.isLeaf = true) : sameShape a b = true := by
  cases a with
  | arr xs => cases ha
  | obj ms => cases ha
  | _ =>
    cases b with
    | arr ys => cases hb
    | obj ns => cases hb
    | _ => rfl

theorem sameShape_of_agrees (a : PyJson) : ∀ b, agrees tolerance a b = true → sameShape a b = true := by
  induction a using PyJson.induct with
  | leaf a ha =>
    intro b h
    exact sameShape_of_isLeaf ha (isLeaf_of_agrees (unlike_of_isLeaf ha b) h).2
  | list xs ih =>
    intro b h
    rcases PyJson.pair_cases (.arr xs) b with ⟨xs', ys, hx, rfl⟩ | ⟨ms, ns, hx, -⟩ | hu
    · cases hx
      exact sameShapeAll_iff.mpr (forall₂_imp_mem ih (agreesAll_iff.mp h))
    · cases hx
    · exact absurd (isLeaf_of_agrees hu h).1 Bool.false_ne_true
  | dict ms ih =>
    intro b h
    rcases PyJson.pair_cases (.obj ms) b with ⟨xs, ys, hx, -⟩ | ⟨ms', ns, hx, rfl⟩ | hu
    · cases hx
    · cases hx
      obtain ⟨hms, hns⟩ := Bool.and_eq_true_iff.mp (show (agreesMembers tolerance ms ns && _) = true from h)
      refine Bool.and_eq_true_iff.mpr ⟨sameShapeMembers_iff.mpr fun m hm => ?_, hns⟩
      obtain ⟨w, hw, he⟩ := agreesMembers_iff.mp hms m hm
      exact ⟨w, hw, ih m hm w he⟩
    · exact absurd (isLeaf_of_agrees hu h).1 Bool.false_ne_true

/-! No differences. -/

theorem isSome_round (neg neg' : Bool) (q : ℚ) : (Double.round neg q).isSome = (Double.round neg' q).isSome := by
  have hparts : ∀ m e, (Double.ofParts neg m e).isSome = (Double.ofParts neg' m e).isSome := by
    intro m e
    unfold Double.ofParts
    split_ifs <;> rfl
  unfold Double.round
  dsimp only
  split_ifs <;> exact hparts _ _

theorem abs_value (x : Double) : |x.value| = x.magnitude := by
  unfold Double.value
  split_ifs
  · rw [abs_neg, abs_of_nonneg x.magnitude_nonneg]
  · exact abs_of_nonneg x.magnitude_nonneg

/-- A number that is the value of a float has a float. -/
theorem isSome_round_of_value {x : Double} {q : ℚ} (h : x.value = q) (neg : Bool) :
    (Double.round neg |q|).isSome = true := by
  rw [← h, abs_value, isSome_round neg x.neg, x.round_magnitude]
  rfl

theorem isSome_operand? {a : PyJson} {q : ℚ} (ha : a.number? = some q) {x : Double} (hx : x.value = q) :
    (operand? a).isSome = true := by
  cases a with
  | bool b =>
    have h := isSome_round_of_value hx false
    rw [← Option.some.inj ha] at h
    rw [operand?, Option.isSome_map]
    cases b
    · rwa [abs_of_nonneg (by decide)] at h
    · rwa [abs_of_nonneg (by decide)] at h
  | int n =>
    have h := isSome_round_of_value hx (n < 0)
    rw [← Option.some.inj ha] at h
    rw [operand?, Option.isSome_map, Nat.cast_natAbs, Int.cast_abs]
    exact h
  | float y => rfl
  | _ => cases ha

/-- Equal numbers, one of them a float, can be subtracted. -/
theorem operands_of_equalLeaf {a b : PyJson} (h : a.equalLeaf b = true) (hf : (a.isFloat || b.isFloat) = true) :
    (operand? a).isSome = true ∧ (operand? b).isSome = true := by
  unfold PyJson.equalLeaf at h
  split at h
  · cases hf
  · cases hf
  · exact ⟨rfl, rfl⟩
  · split at h
    · rename_i q r ha hb
      obtain rfl : q = r := of_decide_eq_true h
      rcases Bool.or_eq_true_iff.mp hf with hf | hf
      · cases a with
        | float x => exact ⟨rfl, isSome_operand? hb (Option.some.inj ha)⟩
        | nan => cases ha
        | infinite neg => cases ha
        | _ => cases hf
      · cases b with
        | float x => exact ⟨isSome_operand? ha (Option.some.inj hb), rfl⟩
        | nan => cases hb
        | infinite neg => cases hb
        | _ => cases hf
    · cases h

theorem isNumber_of_operand? {a : PyJson} {x : Operand} (h : operand? a = some x) : a.isNumber = true := by
  cases a with
  | null => cases h
  | str s => cases h
  | arr xs => cases h
  | obj ms => cases h
  | _ => rfl

/-- The comparison of two leaves finds nothing exactly if they agree. -/
theorem leafDifferences_eq_nil {a b : PyJson} (hu : a.Unlike b) {path : PyStr} :
    leafDifferences repr tolerance a b path = some [] ↔ agreesLeaf tolerance a b = true := by
  have hrest : ∀ m : PyStr, (if a.equal b = true then [] else [m]) = ([] : List PyStr) ↔ a.equal b = true := by
    intro m
    by_cases h : a.equal b = true
    · rw [if_pos h]
      exact iff_of_true rfl h
    · rw [if_neg h]
      exact iff_of_false (List.cons_ne_nil _ _) h
  unfold leafDifferences agreesLeaf
  dsimp only
  by_cases hn : (a.isNumber && b.isNumber && (a.isFloat || b.isFloat)) = true
  · obtain ⟨-, hf⟩ := Bool.and_eq_true_iff.mp hn
    have hoperands : a.equal b = true → (operand? a).isSome = true ∧ (operand? b).isSome = true := fun h =>
      operands_of_equalLeaf (PyJson.equal_unlike hu ▸ h) hf
    rw [if_pos hn, hf, Bool.true_and]
    cases hx : operand? a with
    | none =>
      refine iff_of_false (by simp) fun h => ?_
      have h := (hoperands (by simpa using h)).1
      rw [hx] at h
      cases h
    | some x =>
      cases hy : operand? b with
      | none =>
        refine iff_of_false (by simp) fun h => ?_
        have h := (hoperands (by simpa using h)).2
        rw [hy] at h
        cases h
      | some y =>
        simp only [Option.some.injEq, Option.any_some, Bool.or_eq_true]
        by_cases hnear : near tolerance x y = true
        · rw [if_pos hnear]
          exact iff_of_true rfl (Or.inr hnear)
        · rw [if_neg hnear, hrest]
          exact (or_iff_left hnear).symm
  · rw [if_neg hn, Option.some.injEq, hrest]
    refine ⟨fun h => by rw [h, Bool.true_or], fun h => ?_⟩
    rcases Bool.or_eq_true_iff.mp h with h | h
    · exact h
    · obtain ⟨hf, h⟩ := Bool.and_eq_true_iff.mp h
      obtain ⟨x, hx, h⟩ := (Option.any_eq_true _ _).mp h
      obtain ⟨y, hy, -⟩ := (Option.any_eq_true _ _).mp h
      rw [isNumber_of_operand? hx, isNumber_of_operand? hy, hf] at hn
      exact absurd rfl hn

/-- The members of two objects: the keys of the first in turn. -/
theorem memberDifferences_eq_nil {ns ms : List (PyStr × PyJson)} {path : PyStr} :
    (∃ out, memberDifferences repr tolerance ms ns path = some out ∧ ∀ d ∈ out, d.2 = []) ↔
      ∀ m ∈ ms, ∃ w, ns.lookup m.1 = some w ∧
        differences repr tolerance m.2 w (path ++ PyStr.ofString "/" ++ m.1) = some [] := by
  induction ms with
  | nil => exact iff_of_true ⟨[], rfl, fun _ h => absurd h List.not_mem_nil⟩ fun _ h => absurd h List.not_mem_nil
  | cons m ms ih =>
    obtain ⟨k, v⟩ := m
    rw [List.forall_mem_cons, ← ih, memberDifferences]
    dsimp only
    cases hk : ns.lookup k with
    | none =>
      refine iff_of_false ?_ fun h => ?_
      · rintro ⟨out, h, hnil⟩
        obtain ⟨d, hd, h⟩ := Option.bind_eq_some_iff.mp h
        obtain ⟨rest, -, rfl⟩ := Option.map_eq_some_iff.mp h
        rw [← Option.some.inj hd] at hnil
        exact List.cons_ne_nil _ _ (hnil _ List.mem_cons_self)
      · obtain ⟨w, hw, -⟩ := h.1
        cases hw
    | some w =>
      constructor
      · rintro ⟨out, h, hnil⟩
        obtain ⟨d, hd, h⟩ := Option.bind_eq_some_iff.mp h
        obtain ⟨rest, hrest, rfl⟩ := Option.map_eq_some_iff.mp h
        obtain ⟨rfl, hall⟩ := List.forall_mem_cons.mp hnil
        exact ⟨⟨w, rfl, hd⟩, rest, hrest, hall⟩
      · rintro ⟨⟨w', hw', hd⟩, rest, hrest, hall⟩
        obtain rfl := Option.some.inj hw'
        refine ⟨(k, []) :: rest, ?_, List.forall_mem_cons.mpr ⟨rfl, hall⟩⟩
        simp only [hd, hrest, Option.bind_some, Option.map_some]

theorem listDifferences_eq_nil {xs ys : List PyJson} {path : PyStr} :
    differences repr tolerance (.arr xs) (.arr ys) path = some [] ↔ PyJson.equalAll xs ys = true := by
  have hdiff : differences repr tolerance (.arr xs) (.arr ys) path = leafDifferences repr tolerance (.arr xs)
      (.arr ys) path := by
    rw [differences]
    exact fun ms ns h _ => (by cases h)
  have heq : (PyJson.arr xs).equal (.arr ys) = PyJson.equalAll xs ys := rfl
  rw [hdiff, leafDifferences, heq]
  by_cases h : PyJson.equalAll xs ys = true
  · rw [if_pos h]
    exact iff_of_true rfl h
  · rw [if_neg h]
    exact iff_of_false (fun he => List.cons_ne_nil _ _ (Option.some.inj he)) h

/-- Of two dicts, at each key of one or of both. -/
theorem dictDifferences_eq_nil {ms ns : List (PyStr × PyJson)} {path : PyStr} :
    differences repr tolerance (.obj ms) (.obj ns) path = some [] ↔
      (∀ m ∈ ms, ∃ w, ns.lookup m.1 = some w ∧
        differences repr tolerance m.2 w (path ++ PyStr.ofString "/" ++ m.1) = some []) ∧
        (ns.all fun n => n.1 ∈ ms.map Prod.fst) = true := by
  rw [differences, Option.map_eq_some_iff, ← memberDifferences_eq_nil]
  have hnil : ∀ out : List (PyStr × List PyStr),
      ((out ++ (ns.filter fun n => n.1 ∉ ms.map Prod.fst).map fun n => (n.1, [onlyIn path n.1 "new"])).mergeSort
        fun a b => a.1 ≤ b.1).flatMap Prod.snd = [] ↔
        (∀ d ∈ out, d.2 = []) ∧ (ns.all fun n => n.1 ∈ ms.map Prod.fst) = true := by
    intro out
    simp only [List.flatMap_eq_nil_iff, List.mem_mergeSort, List.mem_append, or_imp, forall_and]
    refine and_congr_right fun _ => ⟨fun h => List.all_eq_true.mpr fun n hn => ?_, fun h d hd => ?_⟩
    · by_contra hnot
      have hmem : n ∈ ns.filter fun n => n.1 ∉ ms.map Prod.fst :=
        List.mem_filter.mpr ⟨hn, decide_eq_true fun h => hnot (decide_eq_true h)⟩
      exact List.cons_ne_nil _ _ (h _ (List.mem_map_of_mem hmem))
    · obtain ⟨n, hn, rfl⟩ := List.mem_map.mp hd
      obtain ⟨hn, hnot⟩ := List.mem_filter.mp hn
      exact absurd (of_decide_eq_true (List.all_eq_true.mp h n hn)) (of_decide_eq_true hnot)
  simp only [hnil]
  exact ⟨fun ⟨out, h, hall, hns⟩ => ⟨⟨out, h, hall⟩, hns⟩, fun ⟨⟨out, h, hall⟩, hns⟩ => ⟨out, h, hall, hns⟩⟩

/-- Nothing differs exactly if the reports agree and their lists are equal. -/
theorem differences_eq_nil (a : PyJson) : ∀ b path,
    differences repr tolerance a b path = some [] ↔ agrees tolerance a b = true ∧ listsEqual a b = true := by
  have hunlike : ∀ {a b : PyJson} {path : PyStr}, a.Unlike b →
      (differences repr tolerance a b path = some [] ↔ agrees tolerance a b = true ∧ listsEqual a b = true) := by
    intro a b path hu
    rw [differences_unlike hu, leafDifferences_eq_nil hu, agrees_unlike hu, listsEqual_unlike hu]
    exact (and_iff_left rfl).symm
  induction a using PyJson.induct with
  | leaf a ha => exact fun b path => hunlike (unlike_of_isLeaf ha b)
  | list xs ih =>
    intro b path
    rcases PyJson.pair_cases (.arr xs) b with ⟨xs', ys, hx, rfl⟩ | ⟨ms, ns, hx, -⟩ | hu
    · cases hx
      refine listDifferences_eq_nil.trans ⟨fun h => ⟨agrees_of_equal _ _ h, h⟩, And.right⟩
    · cases hx
    · exact hunlike hu
  | dict ms ih =>
    intro b path
    rcases PyJson.pair_cases (.obj ms) b with ⟨xs, ys, hx, -⟩ | ⟨ms', ns, hx, rfl⟩ | hu
    · cases hx
    · cases hx
      have hag : agrees tolerance (.obj ms) (.obj ns) = true ↔ _ := Bool.and_eq_true_iff
      have hls : listsEqual (.obj ms) (.obj ns) = true ↔ _ := listsEqualMembers_iff
      rw [dictDifferences_eq_nil, hag, hls, agreesMembers_iff]
      constructor
      · rintro ⟨h, hns⟩
        refine ⟨⟨fun m hm => ?_, hns⟩, fun m hm w hw => ?_⟩
        · obtain ⟨w, hw, hd⟩ := h m hm
          exact ⟨w, hw, ((ih m hm w _).mp hd).1⟩
        · obtain ⟨w', hw', hd⟩ := h m hm
          obtain rfl := Option.some.inj (hw.symm.trans hw')
          exact ((ih m hm w _).mp hd).2
      · rintro ⟨⟨h, hns⟩, hl⟩
        refine ⟨fun m hm => ?_, hns⟩
        obtain ⟨w, hw, ha⟩ := h m hm
        exact ⟨w, hw, (ih m hm w _).mpr ⟨ha, hl m hm w hw⟩⟩
    · exact hunlike hu

/-- The comparison honours its tolerance, and never takes reports of two shapes for equal, exactly if reports that
agree have equal lists. -/
theorem differences_tolerant_iff (repr : PyJson → PyStr) (tolerance : Double) (expected got : PyJson) (path : PyStr) :
    ((differences repr tolerance expected got path = some [] ↔ agrees tolerance expected got = true) ∧
        (differences repr tolerance expected got path = some [] → sameShape expected got = true)) ↔
      (agrees tolerance expected got = true → listsEqual expected got = true) := by
  rw [differences_eq_nil]
  constructor
  · rintro ⟨h, -⟩ ha
    exact (h.mpr ha).2
  · exact fun h => ⟨⟨And.left, fun ha => ⟨ha, h ha⟩⟩, fun h => sameShape_of_agrees _ _ h.1⟩

/-! A report whose results are within the tolerance. -/

namespace Sample

theorem least_half : (-1074 : ℤ) ≤ -53 := by decide

theorem half_most : (-53 : ℤ) ≤ 971 := by decide

def half : Double := ⟨false, 4503599627370496, -53, by decide, least_half, half_most, by decide⟩

/-- One bit more than a half. -/
def aboveHalf : Double := ⟨false, 2 ^ 52 + 1, -53, by decide, least_half, half_most, by decide⟩

/-- `{"results": [{"mrr": ...}]}` -/
def report (mrr : Double) : PyJson :=
  .obj [(PyStr.ofString "results", .arr [.obj [(PyStr.ofString "mrr", .float mrr)]])]

end Sample

theorem differences_not_tolerant : ¬ ∀ (repr : PyJson → PyStr) (expected got : PyJson),
    (differences repr TOLERANCE expected got [] = some [] ↔ agrees TOLERANCE expected got = true) ∧
      (differences repr TOLERANCE expected got [] = some [] → sameShape expected got = true) := by
  intro h
  have hagree : agrees TOLERANCE (Sample.report Sample.half) (Sample.report Sample.aboveHalf) = true := by
    decide +kernel
  have hnone := (h (fun _ => []) _ _).1.mpr hagree
  have hlists : listsEqual (Sample.report Sample.half) (Sample.report Sample.aboveHalf) = false := by decide +kernel
  rw [((differences_eq_nil _ _ _).mp hnone).2] at hlists
  cases hlists

end Blackboard.Kb

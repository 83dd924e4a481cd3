import Mathlib.Algebra.BigOperators.Group.List.Basic
import Blackboard.Spec.Compress

/-! What `bound` keeps of a summary. Each round halves one list, so the rounds end, and what is left is the
bounded form of a prefix of every list. The mark that a list was cut is put in after the last
measurement: the bound holds exactly if there was room for it. -/

namespace Blackboard.Tools

/-! What is kept, and what is lost. -/

mutual

/-- A value with strings cut short and every list a prefix, not empty unless the list was. -/
def Form : Json → Json → Prop
  | .str s, w => w = .str (clip s MAX_STRING)
  | .arr xs, w => ∃ ys, w = .arr ys ∧ FormAll xs ys ∧ (xs ≠ [] → ys ≠ [])
  | .obj ms, w => ∃ ns, w = .obj ns ∧ FormMembers ms ns
  | .null, w => w = .null
  | .bool b, w => w = .bool b
  | .num n, w => w = .num n
  | .float x, w => w = .float x

def FormAll : List Json → List Json → Prop
  | _, [] => True
  | [], _ :: _ => False
  | x :: xs, y :: ys => Form x y ∧ FormAll xs ys

def FormMembers : List (String × Json) → List (String × Json) → Prop
  | [], ns => ns = []
  | (k, v) :: ms, ns => ∃ w rest, ns = (k, w) :: rest ∧ Form v w ∧ FormMembers ms rest

end

mutual

/-- Some list has fewer items. -/
def Lost : Json → Json → Prop
  | .arr xs, .arr ys => LostAll xs ys
  | .obj ms, .obj ns => LostMembers ms ns
  | _, _ => False

def LostAll : List Json → List Json → Prop
  | _ :: _, [] => True
  | x :: xs, y :: ys => Lost x y ∨ LostAll xs ys
  | [], _ => False

def LostMembers : List (String × Json) → List (String × Json) → Prop
  | (_, v) :: ms, (_, w) :: ns => Lost v w ∨ LostMembers ms ns
  | _, _ => False

end

mutual

theorem form_clip : ∀ v : Json, Form v (clipStrings v)
  | .null | .bool _ | .num _ | .float _ | .str _ => by simp only [Form, clipStrings]
  | .arr xs => by
    simp only [Form, clipStrings]
    refine ⟨_, rfl, formAll_clip xs, fun h => ?_⟩
    cases xs with
    | nil => exact absurd rfl h
    | cons x xs => simp [clipAll]
  | .obj ms => by
    simp only [Form, clipStrings]
    exact ⟨_, rfl, formMembers_clip ms⟩

theorem formAll_clip : ∀ xs : List Json, FormAll xs (clipAll xs)
  | [] => by simp only [FormAll, clipAll]
  | x :: xs => by
    simp only [FormAll, clipAll]
    exact ⟨form_clip x, formAll_clip xs⟩

theorem formMembers_clip : ∀ ms : List (String × Json), FormMembers ms (clipMembers ms)
  | [] => by simp only [FormMembers, clipMembers]
  | (k, v) :: ms => by
    simp only [FormMembers, clipMembers]
    exact ⟨_, _, rfl, form_clip v, formMembers_clip ms⟩

end

mutual

theorem not_lost_clip : ∀ v : Json, ¬ Lost v (clipStrings v)
  | .null | .bool _ | .num _ | .float _ | .str _ => by simp [Lost]
  | .arr xs => by
    simp only [Lost, clipStrings]
    exact not_lostAll_clip xs
  | .obj ms => by
    simp only [Lost, clipStrings]
    exact not_lostMembers_clip ms

theorem not_lostAll_clip : ∀ xs : List Json, ¬ LostAll xs (clipAll xs)
  | [] => by simp [LostAll]
  | x :: xs => by
    simp only [LostAll, clipAll]
    exact not_or.mpr ⟨not_lost_clip x, not_lostAll_clip xs⟩

theorem not_lostMembers_clip : ∀ ms : List (String × Json), ¬ LostMembers ms (clipMembers ms)
  | [] => by simp [LostMembers]
  | (_, v) :: ms => by
    simp only [LostMembers, clipMembers]
    exact not_or.mpr ⟨not_lost_clip v, not_lostMembers_clip ms⟩

end

/-! The lists of a value. -/

theorem mem_listsAll {xs : List Json} : ∀ {i : ℕ} {p : List Step} {l : List Json}, (p, l) ∈ listsAll i xs ↔
    ∃ j x q, xs[j]? = some x ∧ p = .index (i + j) :: q ∧ (q, l) ∈ lists x := by
  induction xs with
  | nil => simp [listsAll]
  | cons x xs ih =>
    intro i p l
    simp only [listsAll, List.mem_append, List.mem_map, Prod.mk.injEq, Prod.exists, ih]
    constructor
    · rintro (⟨q, _, hq, rfl, rfl⟩ | ⟨j, y, q, hj, rfl, hq⟩)
      · exact ⟨0, x, q, rfl, rfl, hq⟩
      · exact ⟨j + 1, y, q, hj, by rw [Nat.add_right_comm, Nat.add_assoc], hq⟩
    · rintro ⟨j, y, q, hj, rfl, hq⟩
      cases j with
      | zero =>
        cases hj
        exact Or.inl ⟨q, l, hq, rfl, rfl⟩
      | succ j => exact Or.inr ⟨j, y, q, hj, by rw [Nat.add_right_comm, Nat.add_assoc], hq⟩

theorem mem_listsMembers {ms : List (String × Json)} {p : List Step} {l : List Json} : (p, l) ∈ listsMembers ms ↔
    ∃ k x q, (k, x) ∈ ms ∧ p = .key k :: q ∧ (q, l) ∈ lists x := by
  induction ms with
  | nil => simp [listsMembers]
  | cons m ms ih =>
    obtain ⟨k, v⟩ := m
    simp only [listsMembers, List.mem_append, List.mem_map, Prod.mk.injEq, Prod.exists, ih, List.mem_cons]
    constructor
    · rintro (⟨q, _, hq, rfl, rfl⟩ | ⟨j, y, q, hj, rfl, hq⟩)
      · exact ⟨k, v, q, Or.inl ⟨rfl, rfl⟩, rfl, hq⟩
      · exact ⟨j, y, q, Or.inr hj, rfl, hq⟩
    · rintro ⟨j, y, q, ⟨rfl, rfl⟩ | hj, rfl, hq⟩
      · exact Or.inl ⟨q, l, hq, rfl, rfl⟩
      · exact Or.inr ⟨j, y, q, hj, rfl, hq⟩

/-- Where a list is: the value itself, or an item or a member further down. -/
theorem mem_lists {w : Json} {p : List Step} {l : List Json} (h : (p, l) ∈ lists w) :
    (p = [] ∧ w = .arr l) ∨ (∃ ys i y q, w = .arr ys ∧ ys[i]? = some y ∧ p = .index i :: q ∧ (q, l) ∈ lists y) ∨
      ∃ ns k y q, w = .obj ns ∧ (k, y) ∈ ns ∧ p = .key k :: q ∧ (q, l) ∈ lists y := by
  cases w with
  | arr ys =>
    simp only [lists, List.mem_cons, Prod.mk.injEq] at h
    rcases h with ⟨rfl, rfl⟩ | h
    · exact Or.inl ⟨rfl, rfl⟩
    · obtain ⟨j, y, q, hj, rfl, hq⟩ := mem_listsAll.mp h
      exact Or.inr (Or.inl ⟨ys, j, y, q, rfl, hj, by rw [Nat.zero_add], hq⟩)
  | obj ns =>
    simp only [lists] at h
    obtain ⟨k, y, q, hk, rfl, hq⟩ := mem_listsMembers.mp h
    exact Or.inr (Or.inr ⟨ns, k, y, q, rfl, hk, rfl, hq⟩)
  | null | bool b | num n | float x | str s => simp [lists] at h

/-! Halving one list. -/

/-- `del largest[max(1, len(largest) // 2) :]` -/
def cut (xs : List Json) : List Json := xs.take (max 1 (xs.length / 2))

theorem cut_ne_nil {xs : List Json} (h : xs ≠ []) : cut xs ≠ [] := by
  have hpos := List.length_pos_iff.mpr h
  refine List.ne_nil_of_length_pos ?_
  rw [cut, List.length_take]
  omega

theorem length_cut_lt {xs : List Json} (h : 1 < xs.length) : (cut xs).length < xs.length := by
  rw [cut, List.length_take]
  omega

theorem formAll_take {xs : List Json} : ∀ {ys : List Json} (n : ℕ), FormAll xs ys → FormAll xs (ys.take n) := by
  induction xs with
  | nil =>
    intro ys n h
    cases ys with
    | nil => simpa using h
    | cons y ys => simp only [FormAll] at h
  | cons x xs ih =>
    intro ys n h
    cases ys with
    | nil => simp only [List.take_nil, FormAll]
    | cons y ys =>
      cases n with
      | zero => simp only [List.take_zero, FormAll]
      | succ n =>
        simp only [FormAll, List.take_succ_cons] at h ⊢
        exact ⟨h.1, ih n h.2⟩

theorem formAll_modify {g : Json → Json} (hg : ∀ x y, Form x y → Form x (g y)) {xs : List Json} :
    ∀ {ys : List Json} (i : ℕ), FormAll xs ys → FormAll xs (ys.modify i g) := by
  induction xs with
  | nil =>
    intro ys i h
    cases ys with
    | nil => simpa using h
    | cons y ys => simp only [FormAll] at h
  | cons x xs ih =>
    intro ys i h
    cases ys with
    | nil => simp only [List.modify_nil, FormAll]
    | cons y ys =>
      simp only [FormAll] at h
      cases i with
      | zero =>
        simp only [List.modify_zero_cons, FormAll]
        exact ⟨hg x y h.1, h.2⟩
      | succ i =>
        simp only [List.modify_succ_cons, FormAll]
        exact ⟨h.1, ih i h.2⟩

theorem formMembers_map {k : String} {g : Json → Json} (hg : ∀ x y, Form x y → Form x (g y))
    {ms : List (String × Json)} :
    ∀ {ns : List (String × Json)}, FormMembers ms ns →
      FormMembers ms (ns.map fun m => if m.1 = k then (k, g m.2) else m) := by
  induction ms with
  | nil =>
    intro ns h
    simp only [FormMembers] at h ⊢
    rw [h, List.map_nil]
  | cons m ms ih =>
    obtain ⟨j, v⟩ := m
    intro ns h
    simp only [FormMembers] at h ⊢
    obtain ⟨w, rest, rfl, hw, hrest⟩ := h
    by_cases hj : j = k
    · subst hj
      exact ⟨g w, _, by rw [List.map_cons, if_pos rfl], hg v w hw, ih hrest⟩
    · exact ⟨w, _, by rw [List.map_cons, if_neg hj], hw, ih hrest⟩

/-- Halving a list keeps the form, wherever the path leads. -/
theorem form_modify (p : List Step) : ∀ {v w : Json}, Form v w → Form v (modifyList p cut w) := by
  induction p with
  | nil =>
    intro v w h
    cases w with
    | arr ys =>
      cases v <;> simp only [Form, reduceCtorEq, false_and, exists_false] at h
      obtain ⟨_, hy, h1, h2⟩ := h
      cases hy
      simp only [modifyList, Form]
      exact ⟨_, rfl, formAll_take _ h1, fun hne => cut_ne_nil (h2 hne)⟩
    | null | bool b | num n | float x | str s | obj ns => exact h
  | cons step p ih =>
    intro v w h
    have hih : ∀ x y, Form x y → Form x (modifyList p cut y) := fun x y => ih
    cases step with
    | index i =>
      cases w with
      | arr ys =>
        cases v <;> simp only [Form, reduceCtorEq, false_and, exists_false] at h
        obtain ⟨_, hy, h1, h2⟩ := h
        cases hy
        simp only [modifyList, Form]
        refine ⟨_, rfl, formAll_modify hih i h1, fun hne hnil => h2 hne ?_⟩
        exact List.length_eq_zero_iff.mp ((List.length_modify ..).symm.trans (congrArg List.length hnil))
      | null | bool b | num n | float x | str s | obj ns => exact h
    | key k =>
      cases w with
      | obj ns =>
        cases v <;> simp only [Form, reduceCtorEq, false_and, exists_false] at h
        obtain ⟨_, hn, h1⟩ := h
        cases hn
        simp only [modifyList, Form]
        exact ⟨_, rfl, formMembers_map hih h1⟩
      | null | bool b | num n | float x | str s | arr ys => exact h

theorem lostAll_take {xs : List Json} :
    ∀ {ys : List Json} {n : ℕ}, FormAll xs ys → n < ys.length → LostAll xs (ys.take n) := by
  induction xs with
  | nil =>
    intro ys n h hn
    cases ys with
    | nil => cases hn
    | cons y ys => simp only [FormAll] at h
  | cons x xs ih =>
    intro ys n h hn
    cases ys with
    | nil => cases hn
    | cons y ys =>
      cases n with
      | zero => simp only [List.take_zero, LostAll]
      | succ n =>
        simp only [FormAll] at h
        simp only [List.take_succ_cons, LostAll]
        exact Or.inr (ih h.2 (Nat.lt_of_succ_lt_succ hn))

theorem lostAll_modify {g : Json → Json} {y : Json} (hg : ∀ x, Form x y → Lost x (g y)) {xs : List Json} :
    ∀ {ys : List Json} {i : ℕ}, FormAll xs ys → ys[i]? = some y → LostAll xs (ys.modify i g) := by
  induction xs with
  | nil =>
    intro ys i h hi
    cases ys with
    | nil => cases hi
    | cons z ys => simp only [FormAll] at h
  | cons x xs ih =>
    intro ys i h hi
    cases ys with
    | nil => cases hi
    | cons z ys =>
      simp only [FormAll] at h
      cases i with
      | zero =>
        cases hi
        simp only [List.modify_zero_cons, LostAll]
        exact Or.inl (hg x h.1)
      | succ i =>
        simp only [List.modify_succ_cons, LostAll]
        exact Or.inr (ih h.2 hi)

theorem lostMembers_map {k : String} {g : Json → Json} {y : Json} (hg : ∀ x, Form x y → Lost x (g y))
    {ms : List (String × Json)} : ∀ {ns : List (String × Json)}, FormMembers ms ns → (k, y) ∈ ns →
      LostMembers ms (ns.map fun m => if m.1 = k then (k, g m.2) else m) := by
  induction ms with
  | nil =>
    intro ns h hk
    simp only [FormMembers] at h
    subst h
    cases hk
  | cons m ms ih =>
    obtain ⟨j, v⟩ := m
    intro ns h hk
    simp only [FormMembers] at h
    obtain ⟨w, rest, rfl, hw, hrest⟩ := h
    rcases List.mem_cons.mp hk with he | hk
    · cases he
      rw [List.map_cons, if_pos rfl, LostMembers]
      exact Or.inl (hg v hw)
    · have hr := ih hrest hk
      rw [List.map_cons]
      split_ifs <;> exact Or.inr hr

/-- A list of the value lost items. -/
theorem lost_modify (p : List Step) : ∀ {v w : Json} {l : List Json}, Form v w → (p, l) ∈ lists w → 1 < l.length →
    Lost v (modifyList p cut w) := by
  induction p with
  | nil =>
    intro v w l h hmem hl
    rcases mem_lists hmem with ⟨-, rfl⟩ | ⟨ys, i, y, q, rfl, -, hq, -⟩ | ⟨ns, k, y, q, rfl, -, hq, -⟩
    · cases v <;> simp only [Form, reduceCtorEq, false_and, exists_false] at h
      obtain ⟨_, hy, h1, -⟩ := h
      cases hy
      simp only [modifyList, Lost]
      exact lostAll_take h1 (by omega)
    · cases hq
    · cases hq
  | cons step p ih =>
    intro v w l h hmem hl
    rcases mem_lists hmem with ⟨hq, -⟩ | ⟨ys, i, y, q, rfl, hi, hq, hin⟩ | ⟨ns, k, y, q, rfl, hk, hq, hin⟩
    · cases hq
    · cases hq
      cases v <;> simp only [Form, reduceCtorEq, false_and, exists_false] at h
      obtain ⟨_, hy, h1, -⟩ := h
      cases hy
      simp only [modifyList, Lost]
      exact lostAll_modify (fun x hx => ih hx hin hl) h1 hi
    · cases hq
      cases v <;> simp only [Form, reduceCtorEq, false_and, exists_false] at h
      obtain ⟨_, hn, h1⟩ := h
      cases hn
      simp only [modifyList, Lost]
      exact lostMembers_map (fun x hx => ih hx hin hl) h1 hk

/-! Each halving takes an item out of a list. -/

theorem items_arr (xs : List Json) : items (.arr xs) = xs.length + (xs.map items).sum := by
  have hall : ∀ (xs : List Json) (i : ℕ), ((listsAll i xs).map fun l => l.2.length).sum = (xs.map items).sum := by
    intro xs
    induction xs with
    | nil => intro i; rfl
    | cons x xs ih =>
      intro i
      simp only [listsAll, List.map_append, List.sum_append, List.map_map, List.map_cons, List.sum_cons, ih]
      rfl
  rw [items, lists, List.map_cons, List.sum_cons, hall]

theorem items_obj (ms : List (String × Json)) : items (.obj ms) = (ms.map fun m => items m.2).sum := by
  rw [items, lists]
  induction ms with
  | nil => rfl
  | cons m ms ih =>
    simp only [listsMembers, List.map_append, List.sum_append, List.map_map, List.map_cons, List.sum_cons, ih]
    rfl

section Measure

variable {f : Json → ℕ} {g : Json → Json}

theorem sum_modify_le (hg : ∀ y, f (g y) ≤ f y) {ys : List Json} : ∀ i :
    ℕ, ((ys.modify i g).map f).sum ≤ (ys.map f).sum := by
  induction ys with
  | nil => simp
  | cons y ys ih =>
    intro i
    cases i with
    | zero =>
      have := hg y
      simp only [List.modify_zero_cons, List.map_cons, List.sum_cons]
      omega
    | succ i =>
      have := ih i
      simp only [List.modify_succ_cons, List.map_cons, List.sum_cons]
      omega

theorem sum_modify_lt {y : Json} (hg : f (g y) < f y) {ys : List Json} :
    ∀ {i : ℕ}, ys[i]? = some y → ((ys.modify i g).map f).sum < (ys.map f).sum := by
  induction ys with
  | nil => intro i h; cases h
  | cons z ys ih =>
    intro i h
    cases i with
    | zero =>
      cases h
      simp only [List.modify_zero_cons, List.map_cons, List.sum_cons]
      omega
    | succ i =>
      have := ih (i := i) h
      simp only [List.modify_succ_cons, List.map_cons, List.sum_cons]
      omega

theorem sum_take_le (n : ℕ) (xs : List Json) : ((xs.take n).map f).sum ≤ (xs.map f).sum := by
  have h : xs.map f = (xs.take n).map f ++ (xs.drop n).map f := by
    rw [← List.map_append, List.take_append_drop]
  rw [h, List.sum_append]
  omega

/-- The same of the members of an object, where the name may count as well. -/
theorem sum_map_le {f : String × Json → ℕ} {k : String} (hg : ∀ y, f (k, g y) ≤ f (k, y)) (ns : List (String × Json)) :
    ((ns.map fun m => if m.1 = k then (k, g m.2) else m).map f).sum ≤ (ns.map f).sum := by
  induction ns with
  | nil => simp
  | cons m ns ih =>
    obtain ⟨j, v⟩ := m
    simp only [List.map_cons, List.sum_cons]
    split_ifs with hj
    · exact Nat.add_le_add (hj ▸ hg v) ih
    · exact Nat.add_le_add_left ih _

theorem sum_map_lt {k : String} {y : Json} (hle : ∀ y, f (g y) ≤ f y) (hg : f (g y) < f y)
    {ns : List (String × Json)} (hk : (k, y) ∈ ns) :
    ((ns.map fun m => if m.1 = k then (k, g m.2) else m).map fun m => f m.2).sum < (ns.map fun m => f m.2).sum := by
  induction ns with
  | nil => cases hk
  | cons m ns ih =>
    simp only [List.map_cons, List.sum_cons]
    rcases List.mem_cons.mp hk with rfl | hk
    · rw [if_pos rfl]
      exact Nat.add_lt_add_of_lt_of_le hg (sum_map_le (f := fun m => f m.2) hle ns)
    · split_ifs
      · exact Nat.add_lt_add_of_le_of_lt (hle m.2) (ih hk)
      · exact Nat.add_lt_add_left (ih hk) _

end Measure

theorem items_modify_le (p : List Step) : ∀ w : Json, items (modifyList p cut w) ≤ items w := by
  induction p with
  | nil =>
    intro w
    cases w with
    | arr xs =>
      have h1 := sum_take_le (f := items) (max 1 (xs.length / 2)) xs
      have h2 : (cut xs).length ≤ xs.length := List.length_take_le' _ _
      rw [modifyList, items_arr, items_arr]
      exact Nat.add_le_add h2 h1
    | null | bool b | num n | float x | str s | obj ns => exact le_refl _
  | cons step p ih =>
    intro w
    cases step with
    | index i =>
      cases w with
      | arr ys =>
        rw [modifyList, items_arr, items_arr, List.length_modify]
        exact Nat.add_le_add_left (sum_modify_le ih i) _
      | null | bool b | num n | float x | str s | obj ns => exact le_refl _
    | key k =>
      cases w with
      | obj ns =>
        rw [modifyList, items_obj, items_obj]
        exact sum_map_le (f := fun m => items m.2) ih ns
      | null | bool b | num n | float x | str s | arr ys => exact le_refl _

theorem items_modify_lt (p : List Step) : ∀ {w : Json} {l : List Json}, (p, l) ∈ lists w → 1 < l.length →
    items (modifyList p cut w) < items w := by
  induction p with
  | nil =>
    intro w l hmem hl
    rcases mem_lists hmem with ⟨-, rfl⟩ | ⟨ys, i, y, q, rfl, -, hq, -⟩ | ⟨ns, k, y, q, rfl, -, hq, -⟩
    · have h1 := sum_take_le (f := items) (max 1 (l.length / 2)) l
      rw [modifyList, items_arr, items_arr]
      exact Nat.add_lt_add_of_lt_of_le (length_cut_lt hl) h1
    · cases hq
    · cases hq
  | cons step p ih =>
    intro w l hmem hl
    rcases mem_lists hmem with ⟨hq, -⟩ | ⟨ys, i, y, q, rfl, hi, hq, hin⟩ | ⟨ns, k, y, q, rfl, hk, hq, hin⟩
    · cases hq
    · cases hq
      have := sum_modify_lt (ih hin hl) hi
      rw [modifyList, items_arr, items_arr, List.length_modify]
      omega
    · cases hq
      rw [modifyList, items_obj, items_obj]
      exact sum_map_lt (items_modify_le p) (ih hin hl) hk

/-! The loop. -/

theorem largest_eq_none {size : List Step × List Json → ℕ} {cs : List (List Step × List Json)} :
    largest size cs = none ↔ cs = [] := by
  cases cs with
  | nil => simp [largest]
  | cons c cs =>
    rw [largest]
    cases largest size cs <;> simp

/-- What is chosen is longer than all before it, and no shorter than those after it. -/
theorem largest_iff {size : List Step × List Json → ℕ} {cs : List (List Step × List Json)} {c : List Step × List Json} :
    largest size cs = some c ↔ ∃ before after, cs = before ++ c :: after ∧
      (∀ x ∈ before, size x < size c) ∧ ∀ x ∈ after, size x ≤ size c := by
  induction cs generalizing c with
  | nil => simp [largest]
  | cons d cs ih =>
    rw [largest]
    constructor
    · intro h
      cases hl : largest size cs with
      | none =>
        obtain rfl := largest_eq_none.mp hl
        rw [hl] at h
        cases h
        exact ⟨[], [], rfl, nofun, nofun⟩
      | some e =>
        obtain ⟨before, after, rfl, hb, ha⟩ := ih.mp hl
        rw [hl] at h
        simp only [Option.some.injEq] at h
        split_ifs at h with hlt <;> subst h
        · exact ⟨d :: before, after, rfl, List.forall_mem_cons.mpr ⟨hlt, hb⟩, ha⟩
        · refine ⟨[], before ++ e :: after, rfl, nofun, fun x hx => ?_⟩
          rcases List.mem_append.mp hx with hx | hx
          · have := hb x hx
            omega
          · rcases List.mem_cons.mp hx with rfl | hx
            · omega
            · have := ha x hx
              omega
    · rintro ⟨before, after, he, hb, ha⟩
      cases before with
      | nil =>
        obtain ⟨rfl, rfl⟩ := List.cons.inj he
        cases hl : largest size cs with
        | none => rfl
        | some e =>
          obtain ⟨_, _, rfl, -, -⟩ := ih.mp hl
          have := ha e (by simp)
          simp only
          rw [if_neg (by omega)]
      | cons x before =>
        obtain ⟨rfl, rfl⟩ := List.cons.inj he
        obtain ⟨hd, hb⟩ := List.forall_mem_cons.mp hb
        rw [ih.mpr ⟨before, after, rfl, hb, ha⟩]
        simp only
        rw [if_pos hd]

/-- A list of two or more items is left. -/
def Halvable (w : Json) : Prop := ∃ l ∈ lists w, 1 < l.2.length

theorem halve_eq_none {w : Json} : halve w = none ↔ ¬ Halvable w := by
  rw [halve, Option.map_eq_none_iff, largest_eq_none, List.filter_eq_nil_iff]
  simp [Halvable]

/-- The longest of the lists of two or more items, the first of them where there are several, loses its second
half. -/
def Halved (w d : Json) : Prop :=
  ∃ before p l after, ((lists w).filter fun x => 1 < x.2.length) = before ++ (p, l) :: after ∧
    (∀ x ∈ before, (Json.arr x.2).dumps.length < (Json.arr l).dumps.length) ∧
    (∀ x ∈ after, (Json.arr x.2).dumps.length ≤ (Json.arr l).dumps.length) ∧ d = modifyList p cut w

theorem halve_iff {w d : Json} : halve w = some d ↔ Halved w d := by
  rw [halve, Option.map_eq_some_iff]
  constructor
  · rintro ⟨⟨p, l⟩, hl, rfl⟩
    obtain ⟨before, after, he, hb, ha⟩ := largest_iff.mp hl
    exact ⟨before, p, l, after, he, hb, ha, rfl⟩
  · rintro ⟨before, p, l, after, he, hb, ha, rfl⟩
    exact ⟨(p, l), largest_iff.mpr ⟨before, after, he, hb, ha⟩, rfl⟩

theorem Halved.list {w d : Json} (h : Halved w d) :
    ∃ p l, (p, l) ∈ lists w ∧ 1 < l.length ∧ d = modifyList p cut w := by
  obtain ⟨before, p, l, after, he, -, -, rfl⟩ := h
  have hmem : (p, l) ∈ (lists w).filter fun x => 1 < x.2.length := by simp [he]
  obtain ⟨hl, hlen⟩ := List.mem_filter.mp hmem
  exact ⟨p, l, hl, of_decide_eq_true hlen, rfl⟩

theorem halve_eq_some {w d : Json} (h : halve w = some d) :
    ∃ p l, (p, l) ∈ lists w ∧ 1 < l.length ∧ d = modifyList p cut w :=
  (halve_iff.mp h).list

/-- The value after so many halvings of its largest list. -/
def halvings (w : Json) : ℕ → Json
  | 0 => w
  | n + 1 => (halve (halvings w n)).getD (halvings w n)

theorem halvings_succ {w d : Json} (h : halve w = some d) (n : ℕ) : halvings w (n + 1) = halvings d n := by
  induction n with
  | zero =>
    show (halve w).getD w = d
    rw [h, Option.getD_some]
  | succ n ih => rw [halvings, ih, halvings]

/-- They are what halving leads to. -/
theorem halvings_iff {w d : Json} : Relation.ReflTransGen Halved w d ↔ ∃ n, d = halvings w n := by
  constructor
  · intro h
    induction h with
    | refl => exact ⟨0, rfl⟩
    | tail _ hstep ih =>
      obtain ⟨n, rfl⟩ := ih
      exact ⟨n + 1, by rw [halvings, halve_iff.mpr hstep, Option.getD_some]⟩
  · rintro ⟨n, rfl⟩
    induction n with
    | zero => exact .refl
    | succ n ih =>
      rw [halvings]
      cases hh : halve (halvings w n) with
      | none => exact ih
      | some d => exact ih.tail (halve_iff.mp hh)

/-- The halvings stop here: all before were too long, and this one fits or has nothing left to halve. -/
structure Stops (maxChars : ℕ) (w : Json) (n : ℕ) : Prop where
  before : ∀ m < n, maxChars < (halvings w m).dumps.length ∧ Halvable (halvings w m)
  here : (halvings w n).dumps.length ≤ maxChars ∨ ¬ Halvable (halvings w n)

theorem Stops.unique {maxChars : ℕ} {w : Json} {m n : ℕ} (hm : Stops maxChars w m) (hn : Stops maxChars w n) :
    m = n := by
  have hnot : ∀ {a b}, Stops maxChars w a → Stops maxChars w b → ¬ a < b := by
    intro a b ha hb hlt
    obtain ⟨hlong, hhalf⟩ := hb.before a hlt
    rcases ha.here with h | h
    · omega
    · exact h hhalf
  exact Nat.le_antisymm (Nat.not_lt.mp (hnot hn hm)) (Nat.not_lt.mp (hnot hm hn))

/-- The loop ends where the halvings stop, and needs no more rounds than there are items. -/
theorem fit_stops (maxChars rounds : ℕ) : ∀ (w : Json) (truncated : Bool), items w ≤ rounds →
    ∃ n, Stops maxChars w n ∧ fit maxChars rounds w truncated = (halvings w n, truncated || decide (0 < n)) := by
  induction rounds with
  | zero =>
    intro w truncated h
    refine ⟨0, ⟨fun m hm => absurd hm (Nat.not_lt_zero m), Or.inr ?_⟩, by simp [fit, halvings]⟩
    rintro ⟨⟨p, l⟩, hl, hlen⟩
    have hlt : items (modifyList p cut w) < items w := items_modify_lt p hl hlen
    omega
  | succ rounds ih =>
    intro w truncated h
    rw [fit]
    split_ifs with hfits
    · exact ⟨0, ⟨fun m hm => absurd hm (Nat.not_lt_zero m), Or.inl hfits⟩, by simp [halvings]⟩
    · cases hh : halve w with
      | none => exact ⟨0, ⟨fun m hm => absurd hm (Nat.not_lt_zero m), Or.inr (halve_eq_none.mp hh)⟩, by simp [halvings]⟩
      | some d =>
        obtain ⟨p, l, hl, hlen, rfl⟩ := halve_eq_some hh
        have hlt := items_modify_lt p hl hlen
        obtain ⟨n, hn, he⟩ := ih (modifyList p cut w) true (by omega)
        refine ⟨n + 1, ⟨fun m hm => ?_, ?_⟩, ?_⟩
        · cases m with
          | zero => exact ⟨by simpa [halvings] using hfits, ⟨(p, l), hl, hlen⟩⟩
          | succ m =>
            rw [halvings_succ hh]
            exact hn.before m (by omega)
        · rw [halvings_succ hh]
          exact hn.here
        · rw [halvings_succ hh]
          simpa using he

theorem form_halvings {v w : Json} (h : Form v w) (n : ℕ) : Form v (halvings w n) := by
  induction n with
  | zero => exact h
  | succ n ih =>
    rw [halvings]
    cases hh : halve (halvings w n) with
    | none => exact ih
    | some d =>
      obtain ⟨p, l, -, -, rfl⟩ := halve_eq_some hh
      exact form_modify p ih

theorem lost_halvings {v w : Json} (h : Form v w) {maxChars n : ℕ} (hn : Stops maxChars w (n + 1)) :
    Lost v (halvings w (n + 1)) := by
  rw [halvings]
  cases hh : halve (halvings w n) with
  | none => exact absurd (hn.before n (Nat.lt_succ_self n)).2 (halve_eq_none.mp hh)
  | some d =>
    obtain ⟨p, l, hl, hlen, rfl⟩ := halve_eq_some hh
    exact lost_modify p (form_halvings h n) hl hlen

/-! The mark. -/

/-- What the members of an object take in its text. -/
def width (m : String × Json) : ℕ := (Json.quote m.1).length + (Json.print m.2.canon).length + 2

theorem length_printMembers (ms : List (String × Json)) : (Json.printMembers ms).length =
    1 + (ms.map fun m => (Json.quote m.1).length + (Json.print m.2).length + 2).sum := by
  induction ms with
  | nil => rfl
  | cons m ms ih =>
    simp only [Json.printMembers, List.length_cons, List.length_append, List.map_cons, List.sum_cons, ih]
    omega

theorem length_dumps_obj {ms : List (String × Json)} (h : ms ≠ []) :
    (Json.obj ms).dumps.length = 1 + (ms.map width).sum := by
  have hperm : ((Json.canonMembers ms).insertionSort fun a b => a.1 ≤ b.1).Perm (Json.canonMembers ms) :=
    List.perm_insertionSort _ _
  have hsum := (hperm.map fun m => (Json.quote m.1).length + (Json.print m.2).length + 2).sum_eq
  have hwidth : (Json.canonMembers ms).map (fun m => (Json.quote m.1).length + (Json.print m.2).length + 2) =
      ms.map width := by
    rw [Json.canonMembers_eq, List.map_map]
    rfl
  rw [hwidth] at hsum
  rw [Json.dumps, String.length_ofList, Json.canon, ← hsum]
  cases hs : (Json.canonMembers ms).insertionSort fun a b => a.1 ≤ b.1 with
  | nil =>
    rw [hs, Json.canonMembers_eq] at hperm
    exact absurd (List.map_eq_nil_iff.mp (List.nil_perm.mp hperm)) h
  | cons m ns =>
    simp only [Json.print, List.length_cons, List.length_append, length_printMembers, List.map_cons, List.sum_cons]
    omega

theorem length_printItems (xs : List Json) :
    (Json.printItems xs).length = 1 + (xs.map fun x => (Json.print x).length + 1).sum := by
  induction xs with
  | nil => rfl
  | cons x xs ih =>
    simp only [Json.printItems, List.length_cons, List.length_append, List.map_cons, List.sum_cons, ih]
    omega

theorem length_dumps_arr {xs : List Json} (h : xs ≠ []) :
    (Json.arr xs).dumps.length = 1 + (xs.map fun x => x.dumps.length + 1).sum := by
  have hall : (fun x : Json => x.dumps.length + 1) = fun x => (Json.print x.canon).length + 1 :=
    funext fun x => by rw [Json.dumps, String.length_ofList]
  cases xs with
  | nil => exact absurd rfl h
  | cons x xs =>
    rw [hall, Json.dumps, String.length_ofList, Json.canon, Json.canonAll_eq]
    simp only [List.map_cons, Json.print, List.length_cons, List.length_append, length_printItems, List.map_map,
      List.sum_cons, Function.comp_def]
    omega

/-- Halving a list never makes the text longer. -/
theorem dumps_modify_le (p : List Step) : ∀ w : Json, (modifyList p cut w).dumps.length ≤ w.dumps.length := by
  induction p with
  | nil =>
    intro w
    cases w with
    | arr xs =>
      by_cases h : xs = []
      · rw [h]
        exact le_rfl
      rw [modifyList, length_dumps_arr h, length_dumps_arr (cut_ne_nil h)]
      exact Nat.add_le_add_left (sum_take_le _ xs) 1
    | null | bool b | num n | float x | str s | obj ns => exact le_rfl
  | cons step p ih =>
    intro w
    cases step with
    | index i =>
      cases w with
      | arr xs =>
        by_cases h : xs = []
        · rw [h, modifyList, List.modify_nil]
        have h' : xs.modify i (modifyList p cut) ≠ [] := List.ne_nil_of_length_pos (by
          rw [List.length_modify]
          exact List.length_pos_iff.mpr h)
        rw [modifyList, length_dumps_arr h, length_dumps_arr h']
        exact Nat.add_le_add_left (sum_modify_le (fun y => Nat.add_le_add_right (ih y) 1) i) 1
      | null | bool b | num n | float x | str s | obj ns => exact le_rfl
    | key k =>
      cases w with
      | obj ns =>
        by_cases h : ns = []
        · rw [h, modifyList, List.map_nil]
        rw [modifyList, length_dumps_obj h, length_dumps_obj (by simpa using h)]
        refine Nat.add_le_add_left (sum_map_le (fun y => ?_) ns) 1
        have := ih y
        rw [Json.dumps, Json.dumps, String.length_ofList, String.length_ofList] at this
        simp only [width]
        omega
      | null | bool b | num n | float x | str s | arr ys => exact le_rfl

theorem dumps_halvings_le (w : Json) {m n : ℕ} (h : m ≤ n) :
    (halvings w n).dumps.length ≤ (halvings w m).dumps.length := by
  induction n, h using Nat.le_induction with
  | base => exact le_rfl
  | succ n _ ih =>
    rw [halvings]
    cases hh : halve (halvings w n) with
    | none => exact ih
    | some d =>
      obtain ⟨p, l, -, -, rfl⟩ := halve_eq_some hh
      exact (dumps_modify_le p _).trans ih

/-- What has nothing left to halve stays as it is. -/
theorem halvings_last (w : Json) {m n : ℕ} (h : m ≤ n) (hm : ¬ Halvable (halvings w m)) :
    halvings w n = halvings w m := by
  induction n, h using Nat.le_induction with
  | base => rfl
  | succ n _ ih => rw [halvings, ih, halve_eq_none.mpr hm, Option.getD_none]

/-- The mark takes 17 characters. -/
theorem length_dumps_marked {ns : List (String × Json)} (h : ns ≠ []) :
    (Json.obj (ns ++ [("truncated", .bool true)])).dumps.length = (Json.obj ns).dumps.length + 17 := by
  rw [length_dumps_obj h, length_dumps_obj (by simp), List.map_append, List.sum_append]
  have hmark : [("truncated", Json.bool true)].map width = [17] := by decide
  rw [hmark]
  simp only [List.sum_cons, List.sum_nil]
  omega

theorem formMembers_left {ms : List (String × Json)} : ∀ {ns : List (String × Json)}, FormMembers ms ns →
    ∀ {k v}, (k, v) ∈ ms → ∃ w, (k, w) ∈ ns ∧ Form v w := by
  induction ms with
  | nil => intro ns _ k v hk; cases hk
  | cons m ms ih =>
    intro ns h k v hk
    simp only [FormMembers] at h
    obtain ⟨w, rest, rfl, hw, hrest⟩ := h
    rcases List.mem_cons.mp hk with rfl | hk
    · exact ⟨w, List.mem_cons_self, hw⟩
    · obtain ⟨x, hx, hf⟩ := ih hrest hk
      exact ⟨x, List.mem_cons_of_mem _ hx, hf⟩

theorem formMembers_right {ms : List (String × Json)} : ∀ {ns : List (String × Json)}, FormMembers ms ns →
    ∀ {k w}, (k, w) ∈ ns → ∃ v, (k, v) ∈ ms ∧ Form v w := by
  induction ms with
  | nil =>
    intro ns h k w hk
    simp only [FormMembers] at h
    subst h
    cases hk
  | cons m ms ih =>
    intro ns h k w hk
    simp only [FormMembers] at h
    obtain ⟨x, rest, rfl, hx, hrest⟩ := h
    rcases List.mem_cons.mp hk with he | hk
    · cases he
      exact ⟨m.2, List.mem_cons_self, hx⟩
    · obtain ⟨v, hv, hf⟩ := ih hrest hk
      exact ⟨v, List.mem_cons_of_mem _ hv, hf⟩

theorem lostMembers_exists {ms : List (String × Json)} : ∀ {ns : List (String × Json)}, FormMembers ms ns →
    LostMembers ms ns → ∃ k v w, (k, v) ∈ ms ∧ (k, w) ∈ ns ∧ Lost v w := by
  induction ms with
  | nil => intro ns _ hl; simp only [LostMembers] at hl
  | cons m ms ih =>
    intro ns h hl
    simp only [FormMembers] at h
    obtain ⟨w, rest, rfl, -, hrest⟩ := h
    simp only [LostMembers] at hl
    rcases hl with hl | hl
    · exact ⟨m.1, m.2, w, List.mem_cons_self, List.mem_cons_self, hl⟩
    · obtain ⟨k, v, x, hv, hx, hlost⟩ := ih hrest hl
      exact ⟨k, v, x, List.mem_cons_of_mem _ hv, List.mem_cons_of_mem _ hx, hlost⟩

theorem clipMembers_eq (ms : List (String × Json)) : clipMembers ms = ms.map fun m => (m.1, clipStrings m.2) := by
  induction ms with
  | nil => rfl
  | cons m ms ih => rw [clipMembers, ih, List.map_cons]

theorem form_true {v : Json} (h : Form v (.bool true)) : v = .bool true := by
  cases v <;> simp [Form] at h
  rw [h]

/-- A member of the name "truncated", where there is one, is the mark. -/
def MarkOnly (ms : List (String × Json)) : Prop := ∀ v, ("truncated", v) ∈ ms → v = .bool true

def hasMark (ms : List (String × Json)) : Bool := ms.any fun m => m.1 = "truncated"

theorem mem_assign_mark {ns : List (String × Json)} {w : Json}
    (h : ("truncated", w) ∈ Json.assign ns "truncated" (.bool true)) : w = .bool true := by
  unfold Json.assign at h
  split_ifs at h with hany
  · obtain ⟨m, -, he⟩ := List.mem_map.mp h
    split_ifs at he with hm
    · exact ((Prod.mk.inj he).2).symm
    · exact absurd (congrArg Prod.fst he) hm
  · rcases List.mem_append.mp h with h | h
    · exact absurd (List.any_eq_true.mpr ⟨_, h, decide_eq_true rfl⟩) hany
    · exact (Prod.mk.inj (List.mem_singleton.mp h)).2

/-- Putting the mark in adds a member, or leaves the mark that is there. -/
theorem assign_mark {ms ns : List (String × Json)} (h : FormMembers ms ns) (hm : MarkOnly ms) :
    Json.assign ns "truncated" (.bool true) = if hasMark ms then ns else ns ++ [("truncated", .bool true)] := by
  have hmark : (ns.any fun m => m.1 = "truncated") = hasMark ms := by
    rw [Bool.eq_iff_iff, hasMark, List.any_eq_true, List.any_eq_true]
    constructor
    · rintro ⟨⟨k, w⟩, hw, hk⟩
      obtain ⟨v, hv, -⟩ := formMembers_right h hw
      exact ⟨(k, v), hv, hk⟩
    · rintro ⟨⟨k, v⟩, hv, hk⟩
      obtain ⟨w, hw, -⟩ := formMembers_left h hv
      exact ⟨(k, w), hw, hk⟩
  rw [Json.assign, hmark]
  split_ifs with hany
  · refine (List.map_congr_left fun m hmem => ?_).trans (List.map_id' ns)
    obtain ⟨k, w⟩ := m
    split_ifs with hk
    · obtain rfl : k = "truncated" := hk
      obtain ⟨v, hv, hf⟩ := formMembers_right h hmem
      rw [hm v hv] at hf
      simp only [Form] at hf
      rw [hf]
    · rfl
  · rfl

theorem halvable_mark (ns : List (String × Json)) :
    Halvable (.obj (ns ++ [("truncated", .bool true)])) ↔ Halvable (.obj ns) := by
  have hlists : ∀ ns : List (String × Json), listsMembers (ns ++ [("truncated", .bool true)]) = listsMembers ns := by
    intro ns
    induction ns with
    | nil => rfl
    | cons m ns ih => rw [List.cons_append, listsMembers, listsMembers, ih]
  rw [Halvable, Halvable, lists, lists, hlists]

/-! The bound. -/

/-- The members of a summary in what `bound` returns: each in its bounded form, no others but the mark, and the
mark exactly if some list lost an item. -/
structure Kept (ms ns : List (String × Json)) (truncated : Bool) : Prop where
  members : ∀ k v, (k, v) ∈ ms → ∃ w, (k, w) ∈ ns ∧ Form v w
  only : ∀ k w, (k, w) ∈ ns → (∃ v, (k, v) ∈ ms ∧ Form v w) ∨ (truncated = true ∧ k = "truncated" ∧ w = .bool true)
  told : truncated = true ↔ ∃ k v w, (k, v) ∈ ms ∧ (k, w) ∈ ns ∧ Lost v w

/-- More rounds change nothing, the text fits or no list has two items, and the members are kept. -/
structure Bounded (ms : List (String × Json)) (maxChars : ℕ) : Prop where
  ends : ∀ rounds, items (clipStrings (.obj ms)) ≤ rounds → fit maxChars rounds (clipStrings (.obj ms)) false =
    fit maxChars (items (clipStrings (.obj ms))) (clipStrings (.obj ms)) false
  small : (bound (.obj ms) maxChars).1.dumps.length ≤ maxChars ∨ ¬ Halvable (bound (.obj ms) maxChars).1
  kept : ∃ ns, (bound (.obj ms) maxChars).1 = .obj ns ∧ Kept ms ns (bound (.obj ms) maxChars).2

/-- If a list has to be halved, no other member has the name of the mark, and none of the values that come of
halving the longest list over and over is, with lists left to halve, as long as the bound allows or so little shorter
that the mark does not fit. -/
def Roomy (ms : List (String × Json)) (maxChars : ℕ) : Prop :=
  maxChars < (clipStrings (.obj ms)).dumps.length → Halvable (clipStrings (.obj ms)) → MarkOnly ms ∧
    ∀ w, Relation.ReflTransGen Halved (clipStrings (.obj ms)) w → Halvable w → w.dumps.length ≤ maxChars →
      w.dumps.length + (if hasMark ms then 0 else 17) ≤ maxChars

theorem fit_ends (maxChars : ℕ) (w : Json) {rounds : ℕ} (h : items w ≤ rounds) :
    fit maxChars rounds w false = fit maxChars (items w) w false := by
  obtain ⟨m, hm, he⟩ := fit_stops maxChars rounds w false h
  obtain ⟨n, hn, he'⟩ := fit_stops maxChars (items w) w false le_rfl
  rw [he, he', hm.unique hn]

theorem bound_eq (ms : List (String × Json)) (maxChars : ℕ) : ∃ n ns, Stops maxChars (clipStrings (.obj ms)) n ∧
    halvings (clipStrings (.obj ms)) n = .obj ns ∧ FormMembers ms ns ∧
    bound (.obj ms) maxChars = if 0 < n then (.obj (Json.assign ns "truncated" (.bool true)), true)
    else (.obj ns, false) := by
  obtain ⟨n, hn, he⟩ := fit_stops maxChars (items (clipStrings (.obj ms))) (clipStrings (.obj ms)) false le_rfl
  have hform := form_halvings (form_clip (.obj ms)) n
  simp only [Form] at hform
  obtain ⟨ns, hns, hf⟩ := hform
  refine ⟨n, ns, hn, hns, hf, ?_⟩
  rw [bound, he, hns]
  by_cases h0 : 0 < n <;> simp [h0]

/-- Where the halvings stop after at least one, there is room for the mark. -/
theorem roomy_iff {ms : List (String × Json)} {maxChars n : ℕ} (hn : Stops maxChars (clipStrings (.obj ms)) n) :
    Roomy ms maxChars ↔ (0 < n → MarkOnly ms ∧
      ((halvings (clipStrings (.obj ms)) n).dumps.length + (if hasMark ms then 0 else 17) ≤ maxChars ∨
        ¬ Halvable (halvings (clipStrings (.obj ms)) n))) := by
  constructor
  · intro h hpos
    obtain ⟨hlong, hhalf⟩ := hn.before 0 hpos
    obtain ⟨hmark, hroom⟩ := h hlong hhalf
    refine ⟨hmark, or_iff_not_imp_right.mpr fun hh => ?_⟩
    rw [not_not] at hh
    exact hroom _ (halvings_iff.mpr ⟨n, rfl⟩) hh (hn.here.resolve_right fun h => h hh)
  · intro h hlong hhalf
    have hpos : 0 < n := by
      rcases Nat.eq_zero_or_pos n with rfl | hpos
      · rcases hn.here with hfits | hnot
        · exact absurd hfits (Nat.not_le.mpr hlong)
        · exact absurd hhalf hnot
      · exact hpos
    obtain ⟨hmark, hroom⟩ := h hpos
    refine ⟨hmark, fun w hw hh hfits => ?_⟩
    obtain ⟨m, rfl⟩ := halvings_iff.mp hw
    have hle : n ≤ m := by
      by_contra hlt
      exact absurd hfits (Nat.not_le.mpr (hn.before m (Nat.not_le.mp hlt)).1)
    rcases hroom with hroom | hnot
    · exact (Nat.add_le_add_right (dumps_halvings_le _ hle) _).trans hroom
    · exact absurd (halvings_last _ hle hnot ▸ hh) hnot

/-- Nothing is cut. -/
theorem bounded_uncut {ms ns : List (String × Json)} {maxChars : ℕ} (hd : (ms.map Prod.fst).Nodup)
    (hn : Stops maxChars (clipStrings (.obj ms)) 0) (hns : halvings (clipStrings (.obj ms)) 0 = .obj ns)
    (hf : FormMembers ms ns) (he : bound (.obj ms) maxChars = (.obj ns, false)) : Bounded ms maxChars := by
  refine ⟨fun _ => fit_ends maxChars _, ?_, ns, by rw [he], ?_⟩
  · rw [he, ← hns]
    exact hn.here
  · rw [he]
    refine ⟨fun k v hk => formMembers_left hf hk, fun k w hk => Or.inl (formMembers_right hf hk), ?_⟩
    simp only [Bool.false_eq_true, false_iff]
    rintro ⟨k, v, w, hv, hw, hlost⟩
    have hclip : Json.obj ns = .obj (clipMembers ms) := hns.symm
    rw [Json.obj.inj hclip, clipMembers_eq] at hw
    obtain ⟨⟨j, x⟩, hx, hjx⟩ := List.mem_map.mp hw
    obtain ⟨rfl, rfl⟩ := Prod.mk.inj hjx
    obtain rfl := Prod.mk.inj (List.inj_on_of_nodup_map hd hv hx rfl) |>.2
    exact not_lost_clip v hlost

/-- What is cut is marked, and the mark needs room. -/
theorem bounded_cut {ms ns : List (String × Json)} {maxChars n : ℕ} (hn : Stops maxChars (clipStrings (.obj ms)) n)
    (hpos : 0 < n) (hns : halvings (clipStrings (.obj ms)) n = .obj ns) (hf : FormMembers ms ns)
    (he : bound (.obj ms) maxChars = (.obj (Json.assign ns "truncated" (.bool true)), true)) :
    Bounded ms maxChars ↔ MarkOnly ms ∧ ((Json.obj ns).dumps.length + (if hasMark ms then 0 else 17) ≤ maxChars ∨
      ¬ Halvable (.obj ns)) := by
  obtain ⟨m, rfl⟩ := Nat.exists_eq_succ_of_ne_zero (Nat.ne_of_gt hpos)
  have hlost := lost_halvings (form_clip (.obj ms)) hn
  rw [hns] at hlost
  simp only [Lost] at hlost
  obtain ⟨k, v, w, hv, hw, hl⟩ := lostMembers_exists hf hlost
  have hne : ns ≠ [] := List.ne_nil_of_mem hw
  have hsize : MarkOnly ms → ((bound (.obj ms) maxChars).1.dumps.length =
      (Json.obj ns).dumps.length + (if hasMark ms then 0 else 17) ∧
      (Halvable (bound (.obj ms) maxChars).1 ↔ Halvable (.obj ns))) := by
    intro hm
    rw [he, assign_mark hf hm]
    split_ifs
    · exact ⟨rfl, Iff.rfl⟩
    · exact ⟨length_dumps_marked hne, halvable_mark ns⟩
  constructor
  · rintro ⟨-, hsmall, ms', hms', hkept⟩
    have hmark : MarkOnly ms := by
      intro x hx
      obtain ⟨y, hy, hform⟩ := hkept.members _ x hx
      rw [he] at hms'
      rw [← Json.obj.inj hms'] at hy
      rw [mem_assign_mark hy] at hform
      exact form_true hform
    rw [(hsize hmark).1, (hsize hmark).2] at hsmall
    exact ⟨hmark, hsmall⟩
  · rintro ⟨hmark, hsmall⟩
    refine ⟨fun _ => fit_ends maxChars _, ?_, _, by rw [he], ?_⟩
    · rw [(hsize hmark).1, (hsize hmark).2]
      exact hsmall
    · rw [he, assign_mark hf hmark]
      have hsub : ∀ x ∈ ns, x ∈ (if hasMark ms then ns else ns ++ [("truncated", .bool true)]) := by
        intro x hx
        split_ifs
        · exact hx
        · exact List.mem_append_left _ hx
      refine ⟨fun j x hx => ?_, fun j y hy => ?_, fun _ => ⟨k, v, w, hv, hsub _ hw, hl⟩, fun _ => rfl⟩
      · obtain ⟨y, hy, hform⟩ := formMembers_left hf hx
        exact ⟨y, hsub _ hy, hform⟩
      · have hmem : (j, y) ∈ ns ∨ (j, y) = ("truncated", .bool true) := by
          split_ifs at hy
          · exact Or.inl hy
          · exact (List.mem_append.mp hy).imp_right List.mem_singleton.mp
        rcases hmem with hy | hy
        · exact Or.inl (formMembers_right hf hy)
        · exact Or.inr ⟨rfl, (Prod.mk.inj hy).1, (Prod.mk.inj hy).2⟩

/-- `bound` keeps its bound exactly if the halvings leave room for the mark. -/
theorem bound_bounded_iff {ms : List (String × Json)} (hd : (ms.map Prod.fst).Nodup) (maxChars : ℕ) :
    Bounded ms maxChars ↔ Roomy ms maxChars := by
  obtain ⟨n, ns, hn, hns, hf, he⟩ := bound_eq ms maxChars
  rw [roomy_iff hn]
  rcases Nat.eq_zero_or_pos n with rfl | hpos
  · rw [if_neg (Nat.lt_irrefl 0)] at he
    exact iff_of_true (bounded_uncut hd hn hns hf he) fun h => absurd h (Nat.lt_irrefl 0)
  · rw [if_pos hpos] at he
    rw [bounded_cut hn hpos hns hf he, hns]
    exact ⟨fun h _ => h, fun h => h hpos⟩

/-- Two groups of log lines: the list of the groups is halved, and then the group that is left,
and the mark takes what room there is. -/
def sampleGroups : List (String × Json) :=
  [("top", .bool true),
    ("groups", .arr [.arr [.str "pool exhausted", .str "refused by pg-0"], .arr [.str "retry", .str "gave up"]])]

theorem bound_bounded_groups : (Bounded sampleGroups 59 ↔ Roomy sampleGroups 59) ∧
    bound (.obj sampleGroups) 59 = (.obj [("top", .bool true), ("groups", .arr [.arr [.str "pool exhausted"]]),
      ("truncated", .bool true)], true) :=
  ⟨bound_bounded_iff (by decide) 59, by decide +kernel⟩

instance (w : Json) : Decidable (Halvable w) := inferInstanceAs (Decidable (∃ l ∈ lists w, 1 < l.2.length))

/-- Half of the list fits into 14 characters, and the mark makes 28 of them. -/
theorem bound_too_long : ¬ Bounded [("a", .arr [.num 1, .num 2, .num 3, .num 4])] 14 := by
  intro h
  have hlong : ¬ (bound (.obj [("a", .arr [.num 1, .num 2, .num 3, .num 4])]) 14).1.dumps.length ≤ 14 := by
    decide +kernel
  have hlist : Halvable (bound (.obj [("a", .arr [.num 1, .num 2, .num 3, .num 4])]) 14).1 := by decide +kernel
  exact h.small.elim hlong fun hn => hn hlist

end Blackboard.Tools

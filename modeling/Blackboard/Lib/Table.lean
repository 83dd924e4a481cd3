import Mathlib.Data.List.MinMax

/-! Tables whose rows are never removed. A row is addressed by its position, the
identity column of the table: `insert` appends, `update` rewrites rows in place.
`Keeps` says that every row is still there, changed at most in a stated way. -/

structure Table (α : Type) where
  rows : List α
deriving DecidableEq, Repr

namespace Table

variable {α : Type}

def empty : Table α := ⟨[]⟩

def size (t : Table α) : ℕ := t.rows.length

def get? (t : Table α) (i : ℕ) : Option α := t.rows[i]?

def insert (t : Table α) (a : α) : Table α := ⟨t.rows ++ [a]⟩

/-- One UPDATE statement: `f` sees the id of each row, and keeps those outside its WHERE. -/
def update (t : Table α) (f : ℕ → α → α) : Table α := ⟨t.rows.mapIdx f⟩

/-- An UPDATE of the row with one id. -/
def modify (t : Table α) (i : ℕ) (f : α → α) : Table α :=
  t.update fun j a => if j = i then f a else a

@[simp] theorem size_empty : (empty : Table α).size = 0 := rfl

@[simp] theorem get?_empty (i : ℕ) : (empty : Table α).get? i = none := by simp [empty, get?]

@[simp] theorem size_insert (t : Table α) (a : α) : (t.insert a).size = t.size + 1 := by
  simp [insert, size]

@[simp] theorem size_update (t : Table α) (f : ℕ → α → α) : (t.update f).size = t.size := by
  simp [update, size]

@[simp] theorem size_modify (t : Table α) (i : ℕ) (f : α → α) : (t.modify i f).size = t.size :=
  size_update t _

theorem get?_insert (t : Table α) (a : α) (i : ℕ) :
    (t.insert a).get? i = if i = t.size then some a else t.get? i := by
  unfold insert get? size
  rw [List.getElem?_append]
  split_ifs with h1 h2 h2
  · omega
  · rfl
  · subst h2; simp
  · rw [List.getElem?_eq_none (by simp; omega), List.getElem?_eq_none (by omega)]

@[simp] theorem get?_update (t : Table α) (f : ℕ → α → α) (i : ℕ) :
    (t.update f).get? i = (t.get? i).map (f i) := by
  simp [update, get?]

theorem rows_update (t : Table α) (f : α → α) : (t.update fun _ => f).rows = t.rows.map f :=
  List.ext_getElem? fun i => by simp [update]

theorem update_eq_self {t : Table α} {f : ℕ → α → α} (h : ∀ i a, t.get? i = some a → f i a = a) : t.update f = t := by
  obtain ⟨rows⟩ := t
  refine congrArg Table.mk (List.ext_getElem? fun i => ?_)
  rw [List.getElem?_mapIdx]
  cases ha : rows[i]? with
  | none => rfl
  | some a => exact congrArg some (h i a ha)

theorem get?_modify (t : Table α) (i : ℕ) (f : α → α) (j : ℕ) :
    (t.modify i f).get? j = if j = i then (t.get? j).map f else t.get? j := by
  unfold modify
  rw [get?_update]
  split_ifs with h
  · rfl
  · cases t.get? j <;> rfl

@[simp] theorem get?_modify_self (t : Table α) (i : ℕ) (f : α → α) :
    (t.modify i f).get? i = (t.get? i).map f := by simp [get?_modify]

theorem get?_modify_ne (t : Table α) {i j : ℕ} (f : α → α) (h : j ≠ i) :
    (t.modify i f).get? j = t.get? j := by simp [get?_modify, h]

theorem lt_size {t : Table α} {i : ℕ} {a : α} (h : t.get? i = some a) : i < t.size :=
  (List.getElem?_eq_some_iff.mp h).1

@[simp] theorem get?_size (t : Table α) : t.get? t.size = none := by simp [get?, size]

theorem get?_insert_of_some {t : Table α} {i : ℕ} {a : α} (b : α) (h : t.get? i = some a) :
    (t.insert b).get? i = some a := by
  rw [get?_insert, if_neg (Nat.ne_of_lt (lt_size h)), h]

theorem mem_rows {t : Table α} {a : α} : a ∈ t.rows ↔ ∃ i, t.get? i = some a :=
  List.mem_iff_getElem?

/-- The rows an index scan returns, with their ids. -/
def select (t : Table α) (p : ℕ → α → Bool) : List (ℕ × α) :=
  (List.range t.size).filterMap fun i => (t.get? i).bind fun a => if p i a then some (i, a) else none

theorem mem_select {t : Table α} {p : ℕ → α → Bool} {i : ℕ} {a : α} :
    (i, a) ∈ t.select p ↔ t.get? i = some a ∧ p i a = true := by
  simp only [select, List.mem_filterMap, List.mem_range, Option.bind_eq_some_iff]
  constructor
  · rintro ⟨j, -, b, hb, h⟩
    split at h
    · simp only [Option.some.injEq, Prod.mk.injEq] at h
      obtain ⟨rfl, rfl⟩ := h
      exact ⟨hb, by assumption⟩
    · simp at h
  · rintro ⟨ha, hp⟩
    exact ⟨i, lt_size ha, a, ha, by simp [hp]⟩

theorem select_insert (t : Table α) (a : α) (p : ℕ → α → Bool) :
    (t.insert a).select p = t.select p ++ if p t.size a then [(t.size, a)] else [] := by
  unfold select
  rw [size_insert, List.range_succ, List.filterMap_append]
  congr 1
  · refine List.filterMap_congr fun i hi => ?_
    rw [get?_insert, if_neg (Nat.ne_of_lt (List.mem_range.mp hi))]
  · simp only [List.filterMap_cons, List.filterMap_nil, get?_insert, if_true, Option.bind_some]
    split_ifs <;> rfl

/-! Rows persist: `Keeps R t t'` relates every row of `t` to the row of `t'` with its id. -/

def Keeps (R : α → α → Prop) (t t' : Table α) : Prop :=
  ∀ i a, t.get? i = some a → ∃ a', t'.get? i = some a' ∧ R a a'

theorem Keeps.refl {R : α → α → Prop} (hR : ∀ a, R a a) (t : Table α) : Keeps R t t :=
  fun _ a h => ⟨a, h, hR a⟩

theorem Keeps.trans {R : α → α → Prop} (hR : ∀ a b c, R a b → R b c → R a c) {t u v : Table α}
    (h1 : Keeps R t u) (h2 : Keeps R u v) : Keeps R t v := by
  intro i a ha
  obtain ⟨b, hb, hab⟩ := h1 i a ha
  obtain ⟨c, hc, hbc⟩ := h2 i b hb
  exact ⟨c, hc, hR a b c hab hbc⟩

theorem Keeps.insert {R : α → α → Prop} (hR : ∀ a, R a a) (t : Table α) (b : α) :
    Keeps R t (t.insert b) :=
  fun _ a h => ⟨a, get?_insert_of_some b h, hR a⟩

/-- A row that is kept as it is. -/
theorem Keeps.get {t u : Table α} (h : Keeps Eq t u) {i : ℕ} {a : α} (ha : t.get? i = some a) :
    u.get? i = some a := by
  obtain ⟨b, hb, rfl⟩ := h i a ha
  exact hb

theorem Keeps.update {R : α → α → Prop} {t : Table α} {f : ℕ → α → α}
    (hf : ∀ i a, t.get? i = some a → R a (f i a)) : Keeps R t (t.update f) :=
  fun i a h => ⟨f i a, by simp [h], hf i a h⟩

/-! Two tables that agree on the rows with a property. -/

theorem rows_filter (t : Table α) (p : α → Bool) : t.rows.filter p = (t.select fun _ => p).map Prod.snd := by
  obtain ⟨rows⟩ := t
  induction rows using List.reverseRecOn with
  | nil => rfl
  | append_singleton rows a ih =>
    rw [show (⟨rows ++ [a]⟩ : Table α) = insert ⟨rows⟩ a from rfl, select_insert, List.map_append, ← ih]
    change (rows ++ [a]).filter p = _
    rw [List.filter_append]
    by_cases ha : p a = true
    · simp [ha]
    · simp [ha]

theorem select_filter (t : Table α) (p q : ℕ → α → Bool) :
    ((t.select p).filter fun x => q x.1 x.2) = t.select fun i a => p i a && q i a := by
  obtain ⟨rows⟩ := t
  induction rows using List.reverseRecOn with
  | nil => rfl
  | append_singleton rows a ih =>
    rw [show (⟨rows ++ [a]⟩ : Table α) = insert ⟨rows⟩ a from rfl, select_insert, select_insert, List.filter_append, ih]
    congr 1
    by_cases hp : p (size ⟨rows⟩) a = true
    · simp [hp]
      split_ifs with hq
      · simp [hq]
      · simp [hq]
    · simp [hp]

theorem select_congr {t : Table α} {p q : ℕ → α → Bool} (h : ∀ i a, t.get? i = some a → p i a = q i a) :
    t.select p = t.select q := by
  unfold select
  refine List.filterMap_congr fun i _ => ?_
  rcases ht : t.get? i with _ | a
  · rfl
  · simp only [Option.bind_some, h i a ht]

theorem select_update {t : Table α} {p : ℕ → α → Bool} {f : ℕ → α → α}
    (hf : ∀ i a, t.get? i = some a → p i (f i a) = p i a ∧ (p i a = true → f i a = a)) :
    (t.update f).select p = t.select p := by
  unfold select
  rw [size_update]
  refine List.filterMap_congr fun i _ => ?_
  rw [get?_update]
  rcases ht : t.get? i with _ | a
  · rfl
  · obtain ⟨hp, ha⟩ := hf i a ht
    simp only [Option.map_some, Option.bind_some, hp]
    split_ifs with h
    · rw [ha h]
    · rfl

theorem get?_filter_eq {t u : Table α} {p : ℕ → α → Bool} (h : t.select p = u.select p) (i : ℕ) :
    (t.get? i).filter (p i) = (u.get? i).filter (p i) := by
  have hmem : ∀ a, t.get? i = some a ∧ p i a = true ↔ u.get? i = some a ∧ p i a = true := fun a => by
    rw [← mem_select, h, mem_select]
  refine Option.ext fun a => ?_
  simpa only [Option.filter_eq_some_iff] using hmem a

end Table

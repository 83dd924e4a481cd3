import Blackboard.Lib.JsonPaths

/-! Reading a value of a given shape out of JSON, by the names of its fields. A reader that is `Blind` does not see the
order of members, so it reads a value as well after it has been through a column or a canonical text. -/

namespace Schema

variable {α β : Type}

abbrev Reader (α : Type) := Json → Option α

def text (maxLength : ℕ) : Reader String
  | .str s => if s.length ≤ maxLength then some s else none
  | _ => none

/-- A whole number. A truth value counts as one, and so do a float of 64 bits without a fraction and a text that
`ofText` takes. -/
def int (ofText : String → Option ℤ) : Reader ℤ
  | .num n => some n
  | .str s => ofText s
  | .bool b => some b.toNat
  | .float x => if x.value.den = 1 ∧ -2 ^ 63 < x.value ∧ x.value < 2 ^ 63 then some x.value.num else none
  | _ => none

/-- `Field(min_length=lo, max_length=hi)` of a list. -/
def items (lo hi : ℕ) (r : Reader α) : Reader (List α)
  | .arr xs => if lo ≤ xs.length ∧ xs.length ≤ hi then xs.mapM r else none
  | _ => none

def nullable (r : Reader α) : Reader (Option α)
  | .null => some none
  | j => (r j).map some

/-- An object with no members but these. -/
def closed (names : List String) : Reader Unit
  | .obj ms => if ∀ m ∈ ms, m.1 ∈ names then some () else none
  | _ => none

/-! Readers that do not see the order of members. -/

def Blind (r : Reader α) : Prop := ∀ j : Json, r j.canon = r j

namespace Blind

theorem text (maxLength : ℕ) : Blind (text maxLength) := fun j => by cases j <;> rfl

theorem int (ofText : String → Option ℤ) : Blind (int ofText) := fun j => by cases j <;> rfl

theorem asStr? : Blind Json.asStr? := Json.asStr?_canon

theorem mapM {r : Reader α} (h : Blind r) (xs : List Json) : (Json.canonAll xs).mapM r = xs.mapM r := by
  induction xs with
  | nil => rfl
  | cons x xs ih => rw [Json.canonAll, List.mapM_cons, List.mapM_cons, h x, ih]

theorem items {r : Reader α} (h : Blind r) (lo hi : ℕ) : Blind (items lo hi r) := fun j => by
  cases j with
  | arr xs =>
    rw [Json.canon, Schema.items, Schema.items, h.mapM, Json.canonAll_eq, List.length_map]
  | _ => rfl

theorem nullable {r : Reader α} (h : Blind r) : Blind (nullable r) := fun j => by
  have hj := h j
  cases j with
  | null => rfl
  | arr xs => exact congrArg (Option.map some) hj
  | obj ms => exact congrArg (Option.map some) hj
  | bool b => rfl
  | num n => rfl
  | float x => rfl
  | str s => rfl

theorem closed (names : List String) : Blind (closed names) := fun j => by
  cases j with
  | obj ms =>
    have hmem : (∀ m ∈ (Json.canonMembers ms).insertionSort fun a b => a.1 ≤ b.1, m.1 ∈ names) ↔
        ∀ m ∈ ms, m.1 ∈ names := by
      simp only [List.mem_insertionSort, Json.canonMembers_eq, List.mem_map, forall_exists_index, and_imp,
        forall_apply_eq_imp_iff₂]
    rw [Json.canon, Schema.closed, Schema.closed]
    exact if_congr hmem rfl rfl
  | _ => rfl

theorem pure (a : α) : Blind fun _ => some a := fun _ => rfl

theorem bind {r : Reader α} {f : α → Reader β} (h : Blind r) (hf : ∀ a, Blind (f a)) :
    Blind fun j => (r j).bind fun a => f a j :=
  fun j => by
    dsimp only
    rw [h j]
    exact congrArg (Option.bind (r j)) (funext fun a => hf a j)

theorem map {r : Reader α} (h : Blind r) (f : α → β) : Blind fun j => (r j).map f :=
  fun j => congrArg (Option.map f) (h j)

theorem filter {r : Reader α} (h : Blind r) (p : α → Bool) : Blind fun j => (r j).filter p :=
  fun j => congrArg (Option.filter p) (h j)

theorem or {r s : Reader α} (h : Blind r) (h' : Blind s) : Blind fun j => (r j).or (s j) := fun j => by
  dsimp only
  rw [h j, h' j]

/-- What has been kept in a column is read as it was. -/
theorem readBack {r : Reader α} (h : Blind r) {v w : Json} (hd : v.Distinct) (hn : v.keepsNumbers = true)
    (hw : v.ReadBack w) :
    r w = r v := by
  rw [← h w, (Json.ReadBack.alike_iff v w hd hw).mpr hn, h v]

end Blind

/-! What readers accept. -/

end Schema

/-! Documents that are written field by field. -/

namespace Json

variable {α : Type} {f : α → Json}

theorem Alike.get? {v w : Json} (h : v.Alike w) (k : String) : (v.get? k).map canon = (w.get? k).map canon := by
  rw [← get?_canon, h, get?_canon]

theorem Alike.str (s t : String) (h : (str s).Alike (.str t)) : s = t := Json.str.inj h

theorem Alike.of_map (hf : ∀ a b, (f a).Alike (f b) → a = b) {xs ys : List α}
    (h : canonAll (xs.map f) = canonAll (ys.map f)) : xs = ys := by
  rw [canonAll_eq, canonAll_eq, List.map_map, List.map_map] at h
  exact List.map_injective_iff.mpr (fun a b hab => hf a b hab) h

end Json

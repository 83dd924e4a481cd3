import Mathlib.Data.List.Sort
import Blackboard.Lib.Numeral

/-! JSON documents as Python has them: an object is a list of members in order, the last of two
members with one name wins, and equality of objects ignores the order. A number is an integer
or a finite float. -/

inductive Json
  | null
  | bool (b : Bool)
  | num (n : ℤ)
  | float (x : Double)
  | str (s : String)
  | arr (xs : List Json)
  | obj (ms : List (String × Json))

namespace Json

def isLeaf : Json → Bool
  | arr _ | obj _ => false
  | _ => true

mutual

/-- Induction with the values of a list or of an object. -/
theorem induct {P : Json → Prop} (leaf : ∀ v, v.isLeaf = true → P v) (list : ∀ xs, (∀ x ∈ xs, P x) → P (arr xs))
    (dict : ∀ ms, (∀ m ∈ ms, P m.2) → P (obj ms)) : ∀ v, P v
  | null => leaf null rfl
  | bool b => leaf (bool b) rfl
  | num n => leaf (num n) rfl
  | float x => leaf (float x) rfl
  | str s => leaf (str s) rfl
  | arr xs => list xs (inductAll leaf list dict xs)
  | obj ms => dict ms (inductMembers leaf list dict ms)

theorem inductAll {P : Json → Prop} (leaf : ∀ v, v.isLeaf = true → P v) (list : ∀ xs, (∀ x ∈ xs, P x) → P (arr xs))
    (dict : ∀ ms, (∀ m ∈ ms, P m.2) → P (obj ms)) : ∀ xs : List Json, ∀ x ∈ xs, P x
  | [] => fun _ h => absurd h List.not_mem_nil
  | x :: xs => List.forall_mem_cons.mpr ⟨induct leaf list dict x, inductAll leaf list dict xs⟩

theorem inductMembers {P : Json → Prop} (leaf : ∀ v, v.isLeaf = true → P v) (list : ∀ xs, (∀ x ∈ xs, P x) → P (arr xs))
    (dict : ∀ ms, (∀ m ∈ ms, P m.2) → P (obj ms)) : ∀ ms : List (String × Json), ∀ m ∈ ms, P m.2
  | [] => fun _ h => absurd h List.not_mem_nil
  | (_, v) :: ms => List.forall_mem_cons.mpr ⟨induct leaf list dict v, inductMembers leaf list dict ms⟩

end

mutual

/-- The same document, its members in the same order. -/
def identical : Json → Json → Bool
  | null, null => true
  | bool a, bool b => a == b
  | num m, num n => m == n
  | float x, float y => x == y
  | str s, str t => s == t
  | arr xs, arr ys => identicalAll xs ys
  | obj ms, obj ns => identicalMembers ms ns
  | _, _ => false

def identicalAll : List Json → List Json → Bool
  | [], [] => true
  | x :: xs, y :: ys => identical x y && identicalAll xs ys
  | _, _ => false

def identicalMembers : List (String × Json) → List (String × Json) → Bool
  | [], [] => true
  | (k, v) :: ms, (l, w) :: ns => k == l && identical v w && identicalMembers ms ns
  | _, _ => false

end

mutual

theorem identical_iff : ∀ v w : Json, identical v w = true ↔ v = w
  | null, w | bool _, w | num _, w | float _, w | str _, w => by cases w <;> simp [identical]
  | arr xs, w => by cases w <;> simp [identical, identicalAll_iff xs]
  | obj ms, w => by cases w <;> simp [identical, identicalMembers_iff ms]

theorem identicalAll_iff : ∀ xs ys : List Json, identicalAll xs ys = true ↔ xs = ys
  | [], ys => by cases ys <;> simp [identicalAll]
  | x :: xs, ys => by cases ys <;> simp [identicalAll, identical_iff x, identicalAll_iff xs]

theorem identicalMembers_iff : ∀ ms ns : List (String × Json), identicalMembers ms ns = true ↔ ms = ns
  | [], ns => by cases ns <;> simp [identicalMembers]
  | (k, v) :: ms, ns => by
    cases ns with
    | nil => simp [identicalMembers]
    | cons n ns => simp [identicalMembers, identical_iff v, identicalMembers_iff ms, Prod.ext_iff, and_assoc]

end

instance decidableEqJson : DecidableEq Json := fun v w => decidable_of_iff _ (identical_iff v w)

def member? (ms : List (String × Json)) (k : String) : Option Json :=
  ms.foldl (fun found m => if m.1 = k then some m.2 else found) none

def get? : Json → String → Option Json
  | obj ms, k => member? ms k
  | _, _ => none

/-- `d.get(k, default)` for a chain of names. -/
def path? : Json → List String → Option Json
  | j, [] => some j
  | j, k :: ks => (j.get? k).bind fun j' => j'.path? ks

/-- `d.pop(k, None)` -/
def erase : Json → String → Json
  | obj ms, k => obj (ms.filter fun m => m.1 ≠ k)
  | j, _ => j

/-- `d[k] = v` -/
def assign (ms : List (String × Json)) (k : String) (v : Json) : List (String × Json) :=
  if ms.any fun m => m.1 = k then ms.map fun m => if m.1 = k then (k, v) else m else ms ++ [(k, v)]

/-- The document with the value at a path changed, where the path leads somewhere. -/
def modify : Json → List String → (Json → Json) → Json
  | j, [], f => f j
  | obj ms, k :: ks, f => obj (ms.map fun m => if m.1 = k then (m.1, modify m.2 ks f) else m)
  | j, _ :: _, _ => j

def asStr? : Json → Option String
  | str s => some s
  | _ => none

def asArr? : Json → Option (List Json)
  | arr xs => some xs
  | _ => none

/-- `bool(d)` -/
def truthy : Json → Bool
  | null => false
  | bool b => b
  | num n => n ≠ 0
  | float x => x.mantissa ≠ 0
  | str s => s ≠ ""
  | arr xs => !xs.isEmpty
  | obj ms => !ms.isEmpty

mutual

/-- `a == b`; the order of members does not matter, and `True == 1`. -/
def same : Json → Json → Bool
  | null, null => true
  | bool a, bool b => a = b
  | num a, num b => a = b
  | float a, float b => a.value = b.value
  | num a, float b => a = b.value
  | float a, num b => a.value = b
  | bool a, num b => (a.toNat : ℤ) = b
  | num a, bool b => a = (b.toNat : ℤ)
  | bool a, float b => (a.toNat : ℚ) = b.value
  | float a, bool b => a.value = (b.toNat : ℚ)
  | str a, str b => a = b
  | arr xs, arr ys => sameAll xs ys
  | obj ms, obj ns => ms.length = ns.length && sameMembers ms ns
  | _, _ => false

def sameAll : List Json → List Json → Bool
  | [], [] => true
  | x :: xs, y :: ys => same x y && sameAll xs ys
  | _, _ => false

def sameMembers : List (String × Json) → List (String × Json) → Bool
  | [], _ => true
  | (k, v) :: ms, ns =>
    (match member? ns k with
      | some w => same v w
      | none => false) && sameMembers ms ns

end

/-! Text without blanks, with only what JSON requires escaped. -/

def escape (c : Char) : List Char :=
  match c.toNat with
  | 8 => ['\\', 'b']
  | 9 => ['\\', 't']
  | 10 => ['\\', 'n']
  | 12 => ['\\', 'f']
  | 13 => ['\\', 'r']
  | 34 => ['\\', '"']
  | 92 => ['\\', '\\']
  | n => if n < 32 then ['\\', 'u', '0', '0', Nat.digitChar (n / 16), Nat.digitChar (n % 16)] else [c]

def quote (s : String) : List Char := '"' :: (s.toList.flatMap escape ++ ['"'])

/-! With `ensure_ascii`, what is not printable ASCII is written in UTF-16 code units. -/

def unit4 (n : ℕ) : List Char :=
  ['\\', 'u', Nat.digitChar (n / 4096), Nat.digitChar (n / 256 % 16), Nat.digitChar (n / 16 % 16),
    Nat.digitChar (n % 16)]

def escapeAscii (c : Char) : List Char :=
  if c.toNat < 127 then escape c
  else if c.toNat < 0x10000 then unit4 c.toNat
  else unit4 (0xD800 + (c.toNat - 0x10000) / 0x400) ++ unit4 (0xDC00 + (c.toNat - 0x10000) % 0x400)

def quoteAscii (s : String) : List Char := '"' :: (s.toList.flatMap escapeAscii ++ ['"'])

mutual

def print : Json → List Char
  | null => ['n', 'u', 'l', 'l']
  | bool true => ['t', 'r', 'u', 'e']
  | bool false => ['f', 'a', 'l', 's', 'e']
  | num n => (Numeral.ofInt n).text
  | float x => (Numeral.ofDouble x).text
  | str s => quote s
  | arr [] => ['[', ']']
  | arr (x :: xs) => '[' :: (print x ++ printItems xs)
  | obj [] => ['\x7b', '\x7d']
  | obj ((k, v) :: ms) => '\x7b' :: (quote k ++ ':' :: (print v ++ printMembers ms))

def printItems : List Json → List Char
  | [] => [']']
  | x :: xs => ',' :: (print x ++ printItems xs)

def printMembers : List (String × Json) → List Char
  | [] => ['\x7d']
  | (k, v) :: ms => ',' :: (quote k ++ ':' :: (print v ++ printMembers ms))

end

/-! The canonical form has the members of every object sorted by name. -/

mutual

def canon : Json → Json
  | arr xs => arr (canonAll xs)
  | obj ms => obj ((canonMembers ms).insertionSort fun a b => a.1 ≤ b.1)
  | j => j

def canonAll : List Json → List Json
  | [] => []
  | x :: xs => canon x :: canonAll xs

def canonMembers : List (String × Json) → List (String × Json)
  | [] => []
  | (k, v) :: ms => (k, canon v) :: canonMembers ms

end

theorem canonAll_eq (xs : List Json) : canonAll xs = xs.map canon := by
  induction xs with
  | nil => rfl
  | cons x xs ih => rw [canonAll, ih, List.map_cons]

theorem canonMembers_eq (ms : List (String × Json)) : canonMembers ms = ms.map fun m => (m.1, m.2.canon) := by
  induction ms with
  | nil => rfl
  | cons m ms ih => rw [canonMembers, ih, List.map_cons]

theorem sorted_byName (ms : List (String × Json)) :
    (ms.insertionSort fun a b => a.1 ≤ b.1).Pairwise fun a b => a.1 ≤ b.1 := by
  let le : String × Json → String × Json → Prop := fun a b => a.1 ≤ b.1
  have : Std.Total le := ⟨fun a b => String.le_total a.1 b.1⟩
  have : IsTrans (String × Json) le := ⟨fun _ _ _ => String.le_trans⟩
  exact List.pairwise_insertionSort le ms

mutual

theorem canon_canon : ∀ v : Json, v.canon.canon = v.canon
  | null | bool _ | num _ | float _ | str _ => rfl
  | arr xs => by rw [canon, canon, canonAll_canonAll xs]
  | obj ms => by
    have hmap := List.map_insertionSort (fun a b : String × Json => a.1 ≤ b.1) (fun a b : String × Json => a.1 ≤ b.1)
      (fun m => (m.1, m.2.canon)) (canonMembers ms) (fun _ _ _ _ => Iff.rfl)
    rw [canon, canon, canonMembers_eq (List.insertionSort _ _), hmap, ← canonMembers_eq, canonMembers_canonMembers ms,
      List.Pairwise.insertionSort_eq (sorted_byName _)]

theorem canonAll_canonAll : ∀ xs : List Json, canonAll (canonAll xs) = canonAll xs
  | [] => rfl
  | x :: xs => by rw [canonAll, canonAll, canon_canon x, canonAll_canonAll xs]

theorem canonMembers_canonMembers : ∀ ms : List (String × Json), canonMembers (canonMembers ms) = canonMembers ms
  | [] => rfl
  | (k, v) :: ms => by rw [canonMembers, canonMembers, canon_canon v, canonMembers_canonMembers ms]

end

/-- The same value, whatever the order of members. -/
def Alike (a b : Json) : Prop := a.canon = b.canon

/-- `json.dumps` with the members sorted, no blanks and `ensure_ascii` off. -/
def dumps (j : Json) : String := String.ofList (print j.canon)

end Json

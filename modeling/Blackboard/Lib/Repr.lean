import Blackboard.Lib.Json

/-! Python's `repr` of a value of JSON. Which characters are printable is for the Unicode tables. -/

namespace Json

section

variable (printable : Char → Bool)

def hex (width n : ℕ) : List Char := (List.range width).reverse.map fun i => Nat.digitChar (n / 16 ^ i % 16)

def reprChar (quote c : Char) : List Char :=
  if c = quote ∨ c = '\\' then ['\\', c]
  else if c = '\t' then ['\\', 't']
  else if c = '\n' then ['\\', 'n']
  else if c = '\r' then ['\\', 'r']
  else if printable c then [c]
  else if c.toNat < 0x100 then ['\\', 'x'] ++ hex 2 c.toNat
  else if c.toNat < 0x10000 then ['\\', 'u'] ++ hex 4 c.toNat
  else ['\\', 'U'] ++ hex 8 c.toNat

/-- Between single quotes, unless only those are in it. -/
def reprStr (s : String) : List Char :=
  let quote := if '\'' ∈ s.toList ∧ '"' ∉ s.toList then '"' else '\''
  quote :: (s.toList.flatMap (reprChar printable quote) ++ [quote])

mutual

def repr : Json → List Char
  | null => ['N', 'o', 'n', 'e']
  | bool true => ['T', 'r', 'u', 'e']
  | bool false => ['F', 'a', 'l', 's', 'e']
  | num n => (Numeral.ofInt n).text
  | float x => (Numeral.ofDouble x).text
  | str s => reprStr printable s
  | arr [] => ['[', ']']
  | arr (x :: xs) => '[' :: (repr x ++ reprItems xs)
  | obj [] => ['\x7b', '\x7d']
  | obj ((k, v) :: ms) => '\x7b' :: (reprStr printable k ++ ':' :: ' ' :: (repr v ++ reprMembers ms))

def reprItems : List Json → List Char
  | [] => [']']
  | x :: xs => ',' :: ' ' :: (repr x ++ reprItems xs)

def reprMembers : List (String × Json) → List Char
  | [] => ['\x7d']
  | (k, v) :: ms => ',' :: ' ' :: (reprStr printable k ++ ':' :: ' ' :: (repr v ++ reprMembers ms))

end

/-- `str(j)` -/
def pyStr : Json → String
  | str s => s
  | j => String.ofList (repr printable j)

end

/-! Values that have but one order. -/

mutual

/-- No object has two members or more. -/
def plain : Json → Bool
  | arr xs => plainAll xs
  | obj ms => decide (ms.length ≤ 1) && plainMembers ms
  | _ => true

def plainAll : List Json → Bool
  | [] => true
  | x :: xs => plain x && plainAll xs

def plainMembers : List (String × Json) → Bool
  | [] => true
  | (_, v) :: ms => plain v && plainMembers ms

end

theorem plainMembers_eq (ms : List (String × Json)) : plainMembers ms = ms.all fun m => m.2.plain := by
  induction ms with
  | nil => rfl
  | cons m ms ih => rw [plainMembers, ih, List.all_cons]

mutual

theorem plain_canon : ∀ v : Json, v.canon.plain = v.plain
  | null | bool _ | num _ | float _ | str _ => rfl
  | arr xs => plainAll_canon xs
  | obj ms => by
    rw [canon, plain, plainMembers_eq, List.length_insertionSort, canonMembers_eq, List.length_map,
      List.Perm.all_eq (List.perm_insertionSort (fun a b : String × Json => a.1 ≤ b.1) _), ← canonMembers_eq,
      ← plainMembers_eq, plainMembers_canon ms, plain]

theorem plainAll_canon : ∀ xs : List Json, plainAll (canonAll xs) = plainAll xs
  | [] => rfl
  | x :: xs => by rw [canonAll, plainAll, plain_canon x, plainAll_canon xs, plainAll]

theorem plainMembers_canon : ∀ ms : List (String × Json), plainMembers (canonMembers ms) = plainMembers ms
  | [] => rfl
  | (k, v) :: ms => by rw [canonMembers, plainMembers, plain_canon v, plainMembers_canon ms, plainMembers]

end

mutual

theorem canon_of_plain : ∀ v : Json, v.plain = true → v.canon = v
  | null, _ | bool _, _ | num _, _ | float _, _ | str _, _ => rfl
  | arr xs, h => by rw [canon, canonAll_of_plain xs h]
  | obj ms, h => by
    obtain ⟨hlen, hms⟩ := Bool.and_eq_true_iff.mp h
    rw [canon, canonMembers_of_plain ms hms, List.Pairwise.insertionSort_eq]
    rcases ms with _ | ⟨m, _ | ⟨n, ms⟩⟩
    · exact List.Pairwise.nil
    · exact List.pairwise_singleton _ m
    · exact absurd (of_decide_eq_true hlen) (by simp)

theorem canonAll_of_plain : ∀ xs : List Json, plainAll xs = true → canonAll xs = xs
  | [], _ => rfl
  | x :: xs, h => by
    obtain ⟨hx, hxs⟩ := Bool.and_eq_true_iff.mp h
    rw [canonAll, canon_of_plain x hx, canonAll_of_plain xs hxs]

theorem canonMembers_of_plain : ∀ ms : List (String × Json), plainMembers ms = true → canonMembers ms = ms
  | [], _ => rfl
  | (k, v) :: ms, h => by
    obtain ⟨hv, hms⟩ := Bool.and_eq_true_iff.mp h
    rw [canonMembers, canon_of_plain v hv, canonMembers_of_plain ms hms]

end

end Json

import Blackboard.Lib.Json

/-! Reading JSON text, as `json.loads` does, and the round trip: what `print` writes is read as
it was, so the canonical text of a document says what the document is. -/

namespace Json

/-! The reader. -/

def skipWs (cs : List Char) : List Char := cs.dropWhile fun c => c = ' ' || c = '\t' || c = '\n' || c = '\r'

def hexVal (c : Char) : Option ℕ :=
  if '0' ≤ c ∧ c ≤ '9' then some (c.toNat - 48)
  else if 'a' ≤ c ∧ c ≤ 'f' then some (c.toNat - 87)
  else if 'A' ≤ c ∧ c ≤ 'F' then some (c.toNat - 55)
  else none

def hex4 (a b c d : Char) : Option ℕ := do
  return (((← hexVal a) * 16 + (← hexVal b)) * 16 + (← hexVal c)) * 16 + (← hexVal d)

/-- The character after a backslash. -/
def unescape (c : Char) : Option ℕ :=
  match c with
  | '"' => some 34
  | '\\' => some 92
  | '/' => some 47
  | 'b' => some 8
  | 'f' => some 12
  | 'n' => some 10
  | 'r' => some 13
  | 't' => some 9
  | _ => none

/-- The code units of a string, up to its closing quote. -/
def scanString : List Char → Option (List ℕ × List Char)
  | [] => none
  | '"' :: r => some ([], r)
  | '\\' :: 'u' :: a :: b :: c :: d :: r =>
    (hex4 a b c d).bind fun u => (scanString r).map fun x => (u :: x.1, x.2)
  | '\\' :: c :: r => (unescape c).bind fun u => (scanString r).map fun x => (u :: x.1, x.2)
  | c :: r => if c.toNat < 32 then none else (scanString r).map fun x => (c.toNat :: x.1, x.2)

/-- A surrogate pair is one character. A surrogate on its own is not a Unicode string. -/
def joinUnits : List ℕ → Option (List Char)
  | [] => some []
  | [u] => if u.isValidChar then some [Char.ofNat u] else none
  | u :: v :: us =>
    if 0xD800 ≤ u ∧ u < 0xDC00 ∧ 0xDC00 ≤ v ∧ v < 0xE000 then
      (joinUnits us).map (Char.ofNat (0x10000 + (u - 0xD800) * 0x400 + (v - 0xDC00)) :: ·)
    else if u.isValidChar then (joinUnits (v :: us)).map (Char.ofNat u :: ·)
    else none

def readString (cs : List Char) : Option (String × List Char) := do
  let (us, r) ← scanString cs
  return (String.ofList (← joinUnits us), r)

/-- A float out of range is an infinity to Python and no JSON value. -/
def ofNumeral (x : Numeral) : Option Json :=
  if x.isInt then some (num x.int) else (Double.round x.neg x.magnitude).map float

def readNumber (cs : List Char) : Option (Json × List Char) := do
  let (x, r) ← Numeral.scan cs
  return (← ofNumeral x, r)

mutual

/-- Every call takes a character, so as much fuel as there are characters is enough. -/
def readValue : ℕ → List Char → Option (Json × List Char)
  | 0, _ => none
  | fuel + 1, cs =>
    match skipWs cs with
    | '"' :: r => (readString r).map fun x => (str x.1, x.2)
    | '[' :: r =>
      match skipWs r with
      | ']' :: r => some (arr [], r)
      | r => do
        let (x, r) ← readValue fuel r
        let (xs, r) ← readItems fuel r
        return (arr (x :: xs), r)
    | '\x7b' :: r =>
      match skipWs r with
      | '\x7d' :: r => some (obj [], r)
      | r => do
        let (m, r) ← readMember fuel r
        let (ms, r) ← readMembers fuel r
        return (obj (m :: ms), r)
    | 'n' :: 'u' :: 'l' :: 'l' :: r => some (null, r)
    | 't' :: 'r' :: 'u' :: 'e' :: r => some (bool true, r)
    | 'f' :: 'a' :: 'l' :: 's' :: 'e' :: r => some (bool false, r)
    | cs => readNumber cs

def readItems : ℕ → List Char → Option (List Json × List Char)
  | 0, _ => none
  | fuel + 1, cs =>
    match skipWs cs with
    | ']' :: r => some ([], r)
    | ',' :: r => do
      let (x, r) ← readValue fuel r
      let (xs, r) ← readItems fuel r
      return (x :: xs, r)
    | _ => none

def readMember : ℕ → List Char → Option ((String × Json) × List Char)
  | 0, _ => none
  | fuel + 1, cs =>
    match skipWs cs with
    | '"' :: r => do
      let (k, r) ← readString r
      match skipWs r with
      | ':' :: r => do
        let (v, r) ← readValue fuel r
        return ((k, v), r)
      | _ => none
    | _ => none

def readMembers : ℕ → List Char → Option (List (String × Json) × List Char)
  | 0, _ => none
  | fuel + 1, cs =>
    match skipWs cs with
    | '\x7d' :: r => some ([], r)
    | ',' :: r => do
      let (m, r) ← readMember fuel r
      let (ms, r) ← readMembers fuel r
      return (m :: ms, r)
    | _ => none

end

/-- `json.loads`; `none` is a JSONDecodeError. -/
def loads (s : String) : Option Json :=
  match readValue (s.toList.length + 1) s.toList with
  | some (j, r) => if (skipWs r).isEmpty then some j else none
  | none => none

/-! Strings. -/

theorem hexVal_digitChar {n : ℕ} (h : n < 16) : hexVal (Nat.digitChar n) = some n := by
  interval_cases n <;> rfl

theorem joinUnits_toNat (cs : List Char) : joinUnits (cs.map Char.toNat) = some cs := by
  have hvalid : ∀ c : Char, c.toNat.isValidChar := fun c => c.valid
  have hsur : ∀ c : Char, ¬ (0xD800 ≤ c.toNat ∧ c.toNat < 0xDC00) := fun c h => by
    rcases c.valid with h' | ⟨h', -⟩ <;> simp only [Char.toNat] at h <;> omega
  induction cs with
  | nil => rfl
  | cons c cs ih =>
    cases cs with
    | nil => simp [joinUnits, hvalid c, Char.ofNat_toNat]
    | cons d cs =>
      simp only [List.map_cons] at ih ⊢
      unfold joinUnits
      rw [if_neg fun h => hsur c ⟨h.1, h.2.1⟩, if_pos (hvalid c), ih, Char.ofNat_toNat]
      rfl

/-- An escaped character is read as itself. -/
theorem scanString_escape (c : Char) (r : List Char) :
    scanString (escape c ++ r) = (scanString r).map fun x => (c.toNat :: x.1, x.2) := by
  unfold escape
  split
  · rename_i h; rw [h]; simp [scanString, unescape]
  · rename_i h; rw [h]; simp [scanString, unescape]
  · rename_i h; rw [h]; simp [scanString, unescape]
  · rename_i h; rw [h]; simp [scanString, unescape]
  · rename_i h; rw [h]; simp [scanString, unescape]
  · rename_i h; rw [h]; simp [scanString, unescape]
  · rename_i h; rw [h]; simp [scanString, unescape]
  · rename_i h34 h92
    split_ifs with h
    · have h1 := hexVal_digitChar (n := c.toNat / 16) (by omega)
      have h2 := hexVal_digitChar (n := c.toNat % 16) (by omega)
      have h0 : hexVal '0' = some 0 := rfl
      have h4 : hex4 '0' '0' (Nat.digitChar (c.toNat / 16)) (Nat.digitChar (c.toNat % 16)) = some c.toNat := by
        simp only [hex4, h0, h1, h2, Option.bind_eq_bind, Option.bind_some, Option.pure_def, Option.some.injEq]
        omega
      simp only [List.cons_append, List.nil_append, scanString, h4, Option.bind_some]
    · have hq : c ≠ '"' := fun he => h34 (by rw [he]; rfl)
      have hb : c ≠ '\\' := fun he => h92 (by rw [he]; rfl)
      rw [List.singleton_append, scanString.eq_def]
      split <;> simp_all

theorem scanString_quote (cs : List Char) (r : List Char) :
    scanString (cs.flatMap escape ++ '"' :: r) = some (cs.map Char.toNat, r) := by
  induction cs with
  | nil => simp [scanString]
  | cons c cs ih => rw [List.flatMap_cons, List.append_assoc, scanString_escape, ih]; rfl

theorem readString_quote (s : String) (r : List Char) :
    readString (s.toList.flatMap escape ++ '"' :: r) = some (s, r) := by
  simp [readString, scanString_quote, joinUnits_toNat]

/-! Numbers. -/

theorem readNumber_text {x : Numeral} {j : Json} (h : x.Proper) (hj : ofNumeral x = some j) {rest : List Char}
    (hr : Numeral.Stops rest) : readNumber (x.text ++ rest) = some (j, rest) := by
  simp [readNumber, Numeral.scan_text h hr, hj]

theorem ofNumeral_ofInt (n : ℤ) : ofNumeral (Numeral.ofInt n) = some (num n) := by simp [ofNumeral]

theorem ofNumeral_ofDouble (x : Double) : ofNumeral (Numeral.ofDouble x) = some (float x) := by
  simp [ofNumeral, Numeral.isInt_ofDouble, Numeral.round_ofDouble]

/-! Values. -/

theorem skipWs_cons {c : Char} (h : c ≠ ' ' ∧ c ≠ '\t' ∧ c ≠ '\n' ∧ c ≠ '\r') (r : List Char) :
    skipWs (c :: r) = c :: r := by
  unfold skipWs
  rw [List.dropWhile_cons_of_neg (by simp [h])]

/-- What a number starts with. -/
def NumberStart (c : Char) : Prop := c = '-' ∨ c.isDigit = true

theorem NumberStart.ne {c d : Char} (h : NumberStart c) (hd : ¬ NumberStart d) : c ≠ d := fun he => hd (he ▸ h)

theorem not_numberStart {c : Char} (h : c ≠ '-' ∧ c.isDigit = false) : ¬ NumberStart c := fun hc => by
  rcases hc with hc | hc
  · exact h.1 hc
  · rw [h.2] at hc
    cases hc

theorem text_start {x : Numeral} (h : x.Proper) : ∃ c cs, x.text = c :: cs ∧ NumberStart c := by
  unfold Numeral.text
  cases x.neg with
  | true => exact ⟨'-', _, rfl, Or.inl rfl⟩
  | false =>
    rcases h.lead with hw | ⟨c, cs, hw, -⟩
    · exact ⟨'0', _, by rw [hw]; rfl, Or.inr rfl⟩
    · exact ⟨c, _, by rw [hw]; rfl, Or.inr (h.whole c (by rw [hw]; exact List.mem_cons_self))⟩

theorem readValue_number {fuel : ℕ} {c : Char} (h : NumberStart c) (r : List Char) :
    readValue (fuel + 1) (c :: r) = readNumber (c :: r) := by
  have hn : ∀ d, d ≠ '-' ∧ d.isDigit = false → c ≠ d := fun d hd => h.ne (not_numberStart hd)
  rw [readValue, skipWs_cons ⟨hn _ (by decide), hn _ (by decide), hn _ (by decide), hn _ (by decide)⟩]
  split <;> rename_i heq
  · exact absurd (List.cons.inj heq).1 (hn _ (by decide))
  · exact absurd (List.cons.inj heq).1 (hn _ (by decide))
  · exact absurd (List.cons.inj heq).1 (hn _ (by decide))
  · exact absurd (List.cons.inj heq).1 (hn _ (by decide))
  · exact absurd (List.cons.inj heq).1 (hn _ (by decide))
  · exact absurd (List.cons.inj heq).1 (hn _ (by decide))
  · rfl

theorem print_start (v : Json) : ∃ c cs, print v = c :: cs ∧ c ≠ ']' ∧ c ≠ ' ' ∧ c ≠ '\t' ∧ c ≠ '\n' ∧ c ≠ '\r' := by
  have hnum : ∀ x : Numeral, x.Proper →
      ∃ c cs, x.text = c :: cs ∧ c ≠ ']' ∧ c ≠ ' ' ∧ c ≠ '\t' ∧ c ≠ '\n' ∧ c ≠ '\r' := fun x hx => by
    obtain ⟨c, cs, hc, hs⟩ := text_start hx
    have hn : ∀ d, d ≠ '-' ∧ d.isDigit = false → c ≠ d := fun d hd => hs.ne (not_numberStart hd)
    exact ⟨c, cs, hc, hn _ (by decide), hn _ (by decide), hn _ (by decide), hn _ (by decide), hn _ (by decide)⟩
  cases v with
  | null => exact ⟨'n', _, by rw [print], by decide⟩
  | bool b => cases b with
    | true => exact ⟨'t', _, by rw [print], by decide⟩
    | false => exact ⟨'f', _, by rw [print], by decide⟩
  | num n =>
    rw [print]
    exact hnum _ (Numeral.proper_ofInt n)
  | float x =>
    rw [print]
    exact hnum _ (Numeral.proper_ofDouble x)
  | str s => exact ⟨'"', _, by rw [print, quote], by decide⟩
  | arr xs => cases xs with
    | nil => exact ⟨'[', _, by rw [print], by decide⟩
    | cons x xs => exact ⟨'[', _, by rw [print], by decide⟩
  | obj ms => cases ms with
    | nil => exact ⟨'\x7b', _, by rw [print], by decide⟩
    | cons m ms =>
      obtain ⟨k, v⟩ := m
      exact ⟨'\x7b', _, by rw [print], by decide⟩

theorem stops_items (xs : List Json) (rest : List Char) : Numeral.Stops (printItems xs ++ rest) := by
  cases xs with
  | nil => rw [printItems]; exact Numeral.stops_cons (by decide)
  | cons x xs => rw [printItems]; exact Numeral.stops_cons (by decide)

theorem stops_members (ms : List (String × Json)) (rest : List Char) : Numeral.Stops (printMembers ms ++ rest) := by
  cases ms with
  | nil => rw [printMembers]; exact Numeral.stops_cons (by decide)
  | cons m ms =>
    obtain ⟨k, v⟩ := m
    rw [printMembers]
    exact Numeral.stops_cons (by decide)

theorem readMember_print {fuel : ℕ} {k : String} {v : Json} {rest : List Char}
    (h : readValue fuel (print v ++ rest) = some (v, rest)) :
    readMember (fuel + 1) (quote k ++ ':' :: (print v ++ rest)) = some ((k, v), rest) := by
  rw [readMember, quote, List.cons_append, skipWs_cons (by decide)]
  simp only [List.append_assoc, List.singleton_append, readString_quote, Option.bind_eq_bind, Option.bind_some,
    skipWs_cons (show ':' ≠ ' ' ∧ ':' ≠ '\t' ∧ ':' ≠ '\n' ∧ ':' ≠ '\r' by decide), h, Option.pure_def]

theorem readValue_arr {fuel : ℕ} {c : Char} {cs r : List Char} {x : Json} {xs : List Json} {t : List Char}
    (hc : c ≠ ']' ∧ c ≠ ' ' ∧ c ≠ '\t' ∧ c ≠ '\n' ∧ c ≠ '\r') (h1 : readValue fuel (c :: cs) = some (x, t))
    (h2 : readItems fuel t = some (xs, r)) : readValue (fuel + 1) ('[' :: c :: cs) = some (arr (x :: xs), r) := by
  have hs : skipWs (c :: cs) = c :: cs := skipWs_cons hc.2 cs
  rw [readValue, skipWs_cons (by decide)]
  simp only [hs]
  split
  · rename_i heq
    exact absurd (List.cons.inj heq).1 hc.1
  · simp only [h1, h2, Option.bind_eq_bind, Option.bind_some, Option.pure_def]

theorem readValue_obj {fuel : ℕ} {cs r : List Char} {m : String × Json} {ms : List (String × Json)} {t : List Char}
    (h1 : readMember fuel ('"' :: cs) = some (m, t)) (h2 : readMembers fuel t = some (ms, r)) :
    readValue (fuel + 1) ('\x7b' :: '"' :: cs) = some (obj (m :: ms), r) := by
  have hs : skipWs ('"' :: cs) = '"' :: cs := skipWs_cons (by decide) cs
  rw [readValue, skipWs_cons (by decide)]
  simp only [hs]
  split
  · rename_i heq
    exact absurd (List.cons.inj heq).1 (by decide)
  · simp only [h1, h2, Option.bind_eq_bind, Option.bind_some, Option.pure_def]

mutual

/-- What was written is read as it was. -/
theorem readValue_print : ∀ (v : Json) (fuel : ℕ) (rest : List Char), Numeral.Stops rest →
    (print v).length ≤ fuel → readValue fuel (print v ++ rest) = some (v, rest)
  | v, 0, rest, _, hf => by
    obtain ⟨c, cs, hc, -⟩ := print_start v
    rw [hc] at hf
    simp at hf
  | .null, fuel + 1, rest, _, _ => by rw [print, readValue]; rfl
  | .bool true, fuel + 1, rest, _, _ => by rw [print, readValue]; rfl
  | .bool false, fuel + 1, rest, _, _ => by rw [print, readValue]; rfl
  | .num n, fuel + 1, rest, hr, _ => by
    obtain ⟨c, cs, hc, hs⟩ := text_start (Numeral.proper_ofInt n)
    have h := readNumber_text (Numeral.proper_ofInt n) (ofNumeral_ofInt n) hr
    rw [print]
    rw [hc] at h ⊢
    rw [List.cons_append, readValue_number hs]
    exact h
  | .float x, fuel + 1, rest, hr, _ => by
    obtain ⟨c, cs, hc, hs⟩ := text_start (Numeral.proper_ofDouble x)
    have h := readNumber_text (Numeral.proper_ofDouble x) (ofNumeral_ofDouble x) hr
    rw [print]
    rw [hc] at h ⊢
    rw [List.cons_append, readValue_number hs]
    exact h
  | .str s, fuel + 1, rest, _, _ => by
    rw [print, readValue, quote, List.cons_append, skipWs_cons (by decide)]
    simp only [List.append_assoc, List.singleton_append, readString_quote, Option.map_some]
  | .arr [], fuel + 1, rest, _, _ => by rw [print, readValue]; rfl
  | .arr (x :: xs), fuel + 1, rest, _, hf => by
    rw [print, List.length_cons, List.length_append] at hf
    obtain ⟨c, cs, hc, hne, hws⟩ := print_start x
    have h1 := readValue_print x fuel (printItems xs ++ rest) (stops_items xs rest) (by omega)
    have h2 := readItems_print xs fuel rest (by omega)
    rw [print, List.cons_append, List.append_assoc]
    rw [hc, List.cons_append] at h1 ⊢
    exact readValue_arr ⟨hne, hws⟩ h1 h2
  | .obj [], fuel + 1, rest, _, _ => by rw [print, readValue]; rfl
  | .obj ((k, v) :: ms), fuel + 1, rest, _, hf => by
    rw [print] at hf
    simp only [quote, List.length_cons, List.length_append] at hf
    obtain ⟨n, rfl⟩ : ∃ n, fuel = n + 1 := ⟨fuel - 1, by omega⟩
    have h1 := readMember_print (k := k)
      (readValue_print v n (printMembers ms ++ rest) (stops_members ms rest) (by omega))
    have h2 := readMembers_print ms (n + 1) rest (by omega)
    rw [print, List.cons_append, List.append_assoc, List.cons_append, List.append_assoc]
    rw [quote, List.cons_append] at h1 ⊢
    exact readValue_obj h1 h2

theorem readItems_print : ∀ (xs : List Json) (fuel : ℕ) (rest : List Char),
    (printItems xs).length ≤ fuel → readItems fuel (printItems xs ++ rest) = some (xs, rest)
  | [], 0, _, hf => by rw [printItems] at hf; simp at hf
  | _ :: _, 0, _, hf => by rw [printItems] at hf; simp at hf
  | [], fuel + 1, rest, _ => by rw [printItems, readItems]; rfl
  | x :: xs, fuel + 1, rest, hf => by
    rw [printItems, List.length_cons, List.length_append] at hf
    have h1 := readValue_print x fuel (printItems xs ++ rest) (stops_items xs rest) (by omega)
    have h2 := readItems_print xs fuel rest (by omega)
    rw [printItems, readItems, List.cons_append, skipWs_cons (by decide), List.append_assoc]
    simp only [h1, h2, Option.bind_eq_bind, Option.bind_some, Option.pure_def]

theorem readMembers_print : ∀ (ms : List (String × Json)) (fuel : ℕ) (rest : List Char),
    (printMembers ms).length ≤ fuel → readMembers fuel (printMembers ms ++ rest) = some (ms, rest)
  | [], 0, _, hf => by rw [printMembers] at hf; simp at hf
  | (_, _) :: _, 0, _, hf => by rw [printMembers] at hf; simp at hf
  | [], fuel + 1, rest, _ => by rw [printMembers, readMembers]; rfl
  | (k, v) :: ms, fuel + 1, rest, hf => by
    rw [printMembers] at hf
    simp only [quote, List.length_cons, List.length_append] at hf
    obtain ⟨n, rfl⟩ : ∃ n, fuel = n + 1 := ⟨fuel - 1, by omega⟩
    have h1 := readMember_print (k := k)
      (readValue_print v n (printMembers ms ++ rest) (stops_members ms rest) (by omega))
    have h2 := readMembers_print ms (n + 1) rest (by omega)
    rw [printMembers, readMembers, List.cons_append, skipWs_cons (by decide), List.append_assoc, List.cons_append,
      List.append_assoc]
    simp only [h1, h2, Option.bind_eq_bind, Option.bind_some, Option.pure_def]

end

theorem loads_print (v : Json) : loads (String.ofList (print v)) = some v := by
  have h := readValue_print v ((print v).length + 1) [] Numeral.stops_nil (by omega)
  rw [List.append_nil] at h
  simp [loads, h, skipWs]

theorem loads_dumps (v : Json) : loads v.dumps = some v.canon := loads_print _

/-- The canonical text tells values apart. -/
theorem dumps_inj {v w : Json} : v.dumps = w.dumps ↔ v.Alike w := by
  refine ⟨fun h => ?_, fun h => by rw [dumps, dumps, h]⟩
  have := congrArg loads h
  rw [loads_dumps, loads_dumps] at this
  exact Option.some.inj this

end Json

import Blackboard.Lib.Json

/-! JSON as Python's parser returns it. NaN and the infinities are numbers, and a string is a list of code
points, lone surrogates and U+0000 among them. What can be encoded is JSON in the strict sense. -/

/-- A code point, surrogates included. -/
abbrev Code := Fin 0x110000

abbrev PyStr := List Code

instance neZero_codes : NeZero 0x110000 := ⟨by decide⟩

instance lawfulBEq_pyStr : LawfulBEq PyStr := inferInstance

namespace PyStr

def isHigh (c : Code) : Bool := 0xD800 ≤ c.val && c.val ≤ 0xDBFF

def isLow (c : Code) : Bool := 0xDC00 ≤ c.val && c.val ≤ 0xDFFF

def isSurrogate (c : Code) : Bool := isHigh c || isLow c

def ofString (s : String) : PyStr := s.toList.map fun c => Fin.ofNat 0x110000 c.toNat

/-- `str.encode`: UTF-8 has no surrogates. -/
def encodes (s : PyStr) : Bool := s.all fun c => !isSurrogate c

/-- The text of a string that encodes. -/
def text (s : PyStr) : String := String.ofList (s.map fun c => Char.ofNat c.val)

def nulFree (s : PyStr) : Bool := s.all fun c => c.val ≠ 0

/-- Every surrogate is one of a pair, which the escapes of `json.dumps` write as such. -/
def paired : PyStr → Bool
  | [] => true
  | [c] => !isSurrogate c
  | c :: d :: s => if isHigh c then isLow d && paired s else !isLow c && paired (d :: s)

/-! Strings without surrogates. -/

theorem val_code (c : Char) : (Fin.ofNat 0x110000 c.toNat).val = c.toNat := by
  refine Nat.mod_eq_of_lt ?_
  have hvalid : c.toNat.isValidChar := c.valid
  unfold Nat.isValidChar at hvalid
  omega

theorem ofString_append (s t : String) : ofString (s ++ t) = ofString s ++ ofString t := by
  rw [ofString, String.toList_append, List.map_append]
  rfl

theorem ofString_intercalate (sep : String) (ss : List String) :
    ofString (sep.intercalate ss) = (ofString sep).intercalate (ss.map ofString) := by
  induction ss with
  | nil => rfl
  | cons s ss ih =>
    by_cases hss : ss = []
    · rw [hss, String.intercalate_singleton, List.map_singleton, List.intercalate_singleton]
    · rw [String.intercalate_cons_of_ne_nil hss, List.map_cons, List.intercalate_cons_of_ne_nil (by simpa using hss),
        ofString_append, ofString_append, ih]

theorem text_ofString (s : String) : (ofString s).text = s := by
  rw [text, ofString, List.map_map]
  have hback : ∀ c ∈ s.toList, ((fun c : Code => Char.ofNat c.val) ∘ fun c : Char => Fin.ofNat 0x110000 c.toNat) c =
      c :=
    fun c _ => by rw [Function.comp_apply, val_code, Char.ofNat_toNat]
  rw [List.map_congr_left hback, List.map_id', String.ofList_toList]

theorem ofString_inj {s t : String} : ofString s = ofString t ↔ s = t :=
  ⟨fun h => by rw [← text_ofString s, h, text_ofString], congrArg ofString⟩

/-- A character is no surrogate. -/
theorem encodes_ofString (s : String) : (ofString s).encodes = true := by
  refine List.all_eq_true.mpr fun c hc => ?_
  obtain ⟨d, -, rfl⟩ := List.mem_map.mp hc
  have hvalid : d.toNat.isValidChar := d.valid
  unfold Nat.isValidChar at hvalid
  simp only [isSurrogate, isHigh, isLow, val_code, Bool.not_eq_true', Bool.or_eq_false_iff, Bool.and_eq_false_iff,
    decide_eq_false_iff_not]
  omega

theorem char_code {c : Code} (h : isSurrogate c = false) : Fin.ofNat 0x110000 (Char.ofNat c.val).toNat = c := by
  have hvalid : c.val.isValidChar := by
    have hc := c.isLt
    simp only [isSurrogate, isHigh, isLow, Bool.or_eq_false_iff, Bool.and_eq_false_iff, decide_eq_false_iff_not] at h
    unfold Nat.isValidChar
    omega
  have hcode : (Char.ofNat c.val).toNat = c.val := by
    unfold Char.ofNat
    rw [dif_pos hvalid]
    rfl
  rw [hcode]
  exact Fin.ext (Nat.mod_eq_of_lt c.isLt)

theorem ofString_text {s : PyStr} (h : s.encodes = true) : ofString s.text = s := by
  rw [ofString, text, String.toList_ofList, List.map_map]
  refine (List.map_congr_left fun c hc => ?_).trans (List.map_id' s)
  have := List.all_eq_true.mp h c hc
  exact char_code (by simpa using this)

theorem paired_of_encodes : ∀ {s : PyStr}, s.encodes = true → s.paired = true
  | [], _ => rfl
  | [c], h => by simpa [encodes, paired] using h
  | c :: d :: s, h => by
    have h1 : isSurrogate c = false ∧ encodes (d :: s) = true := by simpa [encodes] using h
    have hhigh : isHigh c = false ∧ isLow c = false := by simpa [isSurrogate] using h1.1
    rw [paired, hhigh.1, hhigh.2, paired_of_encodes h1.2]
    rfl

end PyStr

inductive PyJson
  | null
  | bool (b : Bool)
  | int (n : ℤ)
  | float (x : Double)
  | nan
  | infinite (neg : Bool)
  | str (s : PyStr)
  | arr (xs : List PyJson)
  | obj (ms : List (PyStr × PyJson))

namespace PyJson

mutual

/-- No NaN and no infinity, which `allow_nan=False` refuses. -/
def finite : PyJson → Bool
  | null | bool _ | int _ | float _ | str _ => true
  | nan | infinite _ => false
  | arr xs => finiteAll xs
  | obj ms => finiteMembers ms

def finiteAll : List PyJson → Bool
  | [] => true
  | x :: xs => x.finite && finiteAll xs

def finiteMembers : List (PyStr × PyJson) → Bool
  | [] => true
  | (_, v) :: ms => v.finite && finiteMembers ms

end

mutual

/-- Every string and every name of a member is of a kind. -/
def strings (p : PyStr → Bool) : PyJson → Bool
  | null | bool _ | int _ | float _ | nan | infinite _ => true
  | str s => p s
  | arr xs => stringsAll p xs
  | obj ms => stringsMembers p ms

def stringsAll (p : PyStr → Bool) : List PyJson → Bool
  | [] => true
  | x :: xs => x.strings p && stringsAll p xs

def stringsMembers (p : PyStr → Bool) : List (PyStr × PyJson) → Bool
  | [] => true
  | (k, v) :: ms => p k && (v.strings p && stringsMembers p ms)

end

mutual

/-- The value in strict JSON, if it has one. -/
def plain? : PyJson → Option Json
  | null => some .null
  | bool b => some (.bool b)
  | int n => some (.num n)
  | float x => some (.float x)
  | nan | infinite _ => none
  | str s => if s.encodes then some (.str s.text) else none
  | arr xs => (plainAll? xs).map .arr
  | obj ms => (plainMembers? ms).map .obj

def plainAll? : List PyJson → Option (List Json)
  | [] => some []
  | x :: xs => x.plain?.bind fun y => (plainAll? xs).map (y :: ·)

def plainMembers? : List (PyStr × PyJson) → Option (List (String × Json))
  | [] => some []
  | (k, v) :: ms =>
    if k.encodes then v.plain?.bind fun w => (plainMembers? ms).map ((k.text, w) :: ·) else none

end

mutual

def ofJson : Json → PyJson
  | .null => null
  | .bool b => bool b
  | .num n => int n
  | .float x => float x
  | .str s => str (PyStr.ofString s)
  | .arr xs => arr (ofJsonAll xs)
  | .obj ms => obj (ofJsonMembers ms)

def ofJsonAll : List Json → List PyJson
  | [] => []
  | x :: xs => ofJson x :: ofJsonAll xs

def ofJsonMembers : List (String × Json) → List (PyStr × PyJson)
  | [] => []
  | (k, v) :: ms => (PyStr.ofString k, ofJson v) :: ofJsonMembers ms

end

/-! Equality. -/

/-- `isinstance(v, int | float)` -/
def isNumber : PyJson → Bool
  | bool _ | int _ | float _ | nan | infinite _ => true
  | _ => false

def isFloat : PyJson → Bool
  | float _ | nan | infinite _ => true
  | _ => false

/-- What a finite number stands for; a bool is an int. -/
def number? : PyJson → Option ℚ
  | bool b => some (if b then 1 else 0)
  | int n => some n
  | float x => some x.value
  | _ => none

/-- `==` of two values that are not both lists or both dicts. -/
def equalLeaf : PyJson → PyJson → Bool
  | null, null => true
  | str s, str t => s = t
  | infinite a, infinite b => a = b
  | a, b =>
    match number? a, number? b with
    | some x, some y => x = y
    | _, _ => false

mutual

/-- `==`, of values that are not one object. -/
def equal : PyJson → PyJson → Bool
  | arr xs, arr ys => equalAll xs ys
  | obj ms, obj ns => equalMembers ms ns && ns.all fun n => n.1 ∈ ms.map Prod.fst
  | a, b => equalLeaf a b

def equalAll : List PyJson → List PyJson → Bool
  | [], [] => true
  | x :: xs, y :: ys => x.equal y && equalAll xs ys
  | _, _ => false

def equalMembers : List (PyStr × PyJson) → List (PyStr × PyJson) → Bool
  | [], _ => true
  | (k, v) :: ms, ns => (ns.lookup k).any (fun w => v.equal w) && equalMembers ms ns

end

/-- Postgres casts `json.dumps(v)` to jsonb: it has no NaN, no U+0000 and no lone surrogate. -/
def storable (v : PyJson) : Bool := v.finite && v.strings fun s => s.nulFree && s.paired

/-! Induction. -/

def isLeaf : PyJson → Bool
  | arr _ | obj _ => false
  | _ => true

mutual

theorem induct {P : PyJson → Prop} (leaf : ∀ v, v.isLeaf = true → P v) (list : ∀ xs, (∀ x ∈ xs, P x) → P (arr xs))
    (dict : ∀ ms, (∀ m ∈ ms, P m.2) → P (obj ms)) : ∀ v, P v
  | null => leaf null rfl
  | bool b => leaf (bool b) rfl
  | int n => leaf (int n) rfl
  | float x => leaf (float x) rfl
  | nan => leaf nan rfl
  | infinite neg => leaf (infinite neg) rfl
  | str s => leaf (str s) rfl
  | arr xs => list xs (inductAll leaf list dict xs)
  | obj ms => dict ms (inductMembers leaf list dict ms)

theorem inductAll {P : PyJson → Prop} (leaf : ∀ v, v.isLeaf = true → P v) (list : ∀ xs, (∀ x ∈ xs, P x) → P (arr xs))
    (dict : ∀ ms, (∀ m ∈ ms, P m.2) → P (obj ms)) : ∀ xs : List PyJson, ∀ x ∈ xs, P x
  | [] => fun _ h => absurd h List.not_mem_nil
  | x :: xs => List.forall_mem_cons.mpr ⟨induct leaf list dict x, inductAll leaf list dict xs⟩

theorem inductMembers {P : PyJson → Prop} (leaf : ∀ v, v.isLeaf = true → P v)
    (list : ∀ xs, (∀ x ∈ xs, P x) → P (arr xs)) (dict : ∀ ms, (∀ m ∈ ms, P m.2) → P (obj ms)) : ∀ ms :
    List (PyStr × PyJson), ∀ m ∈ ms, P m.2
  | [] => fun _ h => absurd h List.not_mem_nil
  | (_, v) :: ms => List.forall_mem_cons.mpr ⟨induct leaf list dict v, inductMembers leaf list dict ms⟩

end

/-- Two values that are compared as leaves. -/
structure Unlike (a b : PyJson) : Prop where
  lists : ∀ xs ys, a = arr xs → b = arr ys → False
  dicts : ∀ ms ns, a = obj ms → b = obj ns → False

theorem pair_cases (a b : PyJson) :
    (∃ xs ys, a = arr xs ∧ b = arr ys) ∨ (∃ ms ns, a = obj ms ∧ b = obj ns) ∨ Unlike a b := by
  by_cases hl : ∃ xs ys, a = arr xs ∧ b = arr ys
  · exact Or.inl hl
  by_cases hd : ∃ ms ns, a = obj ms ∧ b = obj ns
  · exact Or.inr (Or.inl hd)
  · exact Or.inr (Or.inr ⟨fun xs ys ha hb => hl ⟨xs, ys, ha, hb⟩, fun ms ns ha hb => hd ⟨ms, ns, ha, hb⟩⟩)

theorem equal_unlike {a b : PyJson} (h : Unlike a b) : a.equal b = equalLeaf a b := by
  rw [equal]
  · exact h.lists
  · exact h.dicts

theorem equalAll_iff : ∀ {xs ys : List PyJson}, equalAll xs ys = true ↔ List.Forall₂ (fun x y => x.equal y = true) xs ys
  | [], [] => iff_of_true rfl .nil
  | [], _ :: _ => iff_of_false Bool.false_ne_true (fun h => by cases h)
  | _ :: _, [] => iff_of_false Bool.false_ne_true (fun h => by cases h)
  | x :: xs, y :: ys => by rw [equalAll, Bool.and_eq_true, equalAll_iff, List.forall₂_cons]

theorem equalMembers_iff {ns : List (PyStr × PyJson)} : ∀ {ms : List (PyStr × PyJson)},
    equalMembers ms ns = true ↔ ∀ m ∈ ms, ∃ w, ns.lookup m.1 = some w ∧ m.2.equal w = true
  | [] => iff_of_true rfl fun _ h => absurd h List.not_mem_nil
  | (k, v) :: ms => by
    rw [equalMembers, Bool.and_eq_true, equalMembers_iff, Option.any_eq_true, List.forall_mem_cons]

theorem isSome_bind_map {α β γ : Type} (o : Option α) (q : Option β) (f : α → β → γ) :
    (o.bind fun a => q.map (f a)).isSome = (o.isSome && q.isSome) := by
  cases o with
  | none => rfl
  | some a => rw [Option.bind_some, Option.isSome_map, Option.isSome_some, Bool.true_and]

mutual

/-- What encodes: finite numbers, and strings without surrogates. -/
theorem isSome_plain? : ∀ v : PyJson, v.plain?.isSome = (v.finite && v.strings PyStr.encodes)
  | null | bool _ | int _ | float _ | nan | infinite _ => rfl
  | str s => by
    rw [plain?, finite, strings, Bool.true_and]
    split_ifs with h
    · rw [h]; rfl
    · rw [Bool.eq_false_iff.mpr h]; rfl
  | arr xs => by rw [plain?, Option.isSome_map, isSome_plainAll? xs, finite, strings]
  | obj ms => by rw [plain?, Option.isSome_map, isSome_plainMembers? ms, finite, strings]

theorem isSome_plainAll? : ∀ xs : List PyJson, (plainAll? xs).isSome = (finiteAll xs && stringsAll PyStr.encodes xs)
  | [] => rfl
  | x :: xs => by
    rw [plainAll?, isSome_bind_map, isSome_plain? x, isSome_plainAll? xs, finiteAll, stringsAll]
    simp only [Bool.and_assoc, Bool.and_left_comm]

theorem isSome_plainMembers? : ∀ ms : List (PyStr × PyJson),
    (plainMembers? ms).isSome = (finiteMembers ms && stringsMembers PyStr.encodes ms)
  | [] => rfl
  | (k, v) :: ms => by
    rw [plainMembers?, finiteMembers, stringsMembers]
    split_ifs with hk
    · rw [isSome_bind_map, isSome_plain? v, isSome_plainMembers? ms, hk, Bool.true_and]
      simp only [Bool.and_assoc, Bool.and_left_comm]
    · rw [Bool.eq_false_iff.mpr hk, Bool.false_and, Bool.and_false, Option.isSome_none]

end

/-! Strict JSON, and back. -/

theorem ofJsonMembers_eq (ms : List (String × Json)) :
    ofJsonMembers ms = ms.map fun m => (PyStr.ofString m.1, ofJson m.2) := by
  induction ms with
  | nil => rfl
  | cons m ms ih => rw [ofJsonMembers, ih, List.map_cons]

mutual

theorem plain?_ofJson : ∀ v : Json, (ofJson v).plain? = some v
  | .null | .bool _ | .num _ | .float _ => rfl
  | .str s => by rw [ofJson, plain?, if_pos (PyStr.encodes_ofString s), PyStr.text_ofString]
  | .arr xs => by rw [ofJson, plain?, plainAll?_ofJson xs, Option.map_some]
  | .obj ms => by rw [ofJson, plain?, plainMembers?_ofJson ms, Option.map_some]

theorem plainAll?_ofJson : ∀ xs : List Json, plainAll? (ofJsonAll xs) = some xs
  | [] => rfl
  | x :: xs => by rw [ofJsonAll, plainAll?, plain?_ofJson x, plainAll?_ofJson xs]; rfl

theorem plainMembers?_ofJson : ∀ ms : List (String × Json), plainMembers? (ofJsonMembers ms) = some ms
  | [] => rfl
  | (k, v) :: ms => by
    rw [ofJsonMembers, plainMembers?, if_pos (PyStr.encodes_ofString k), plain?_ofJson v, plainMembers?_ofJson ms,
      PyStr.text_ofString]
    rfl

end

theorem stringsMembers_iff {p : PyStr → Bool} {ms : List (PyStr × PyJson)} :
    stringsMembers p ms = true ↔ ∀ m ∈ ms, p m.1 = true ∧ m.2.strings p = true := by
  induction ms with
  | nil => simp [stringsMembers]
  | cons m ms ih => simp [stringsMembers, ih, and_assoc]

mutual

theorem ofJson_plain : ∀ {v : PyJson} {j : Json}, v.plain? = some j → ofJson j = v
  | null, _, h | bool _, _, h | int _, _, h | float _, _, h => by cases h; rfl
  | nan, _, h | infinite _, _, h => by cases h
  | str s, _, h => by
    rw [plain?] at h
    split_ifs at h with hs
    cases h
    rw [ofJson, PyStr.ofString_text hs]
  | arr xs, _, h => by
    obtain ⟨ys, hys, rfl⟩ := Option.map_eq_some_iff.mp h
    rw [ofJson, ofJsonAll_plain hys]
  | obj ms, _, h => by
    obtain ⟨ns, hns, rfl⟩ := Option.map_eq_some_iff.mp h
    rw [ofJson, ofJsonMembers_plain hns]

theorem ofJsonAll_plain : ∀ {xs : List PyJson} {ys : List Json}, plainAll? xs = some ys → ofJsonAll ys = xs
  | [], _, h => by cases h; rfl
  | x :: xs, _, h => by
    obtain ⟨y, hy, h⟩ := Option.bind_eq_some_iff.mp h
    obtain ⟨ys, hys, rfl⟩ := Option.map_eq_some_iff.mp h
    rw [ofJsonAll, ofJson_plain hy, ofJsonAll_plain hys]

theorem ofJsonMembers_plain : ∀ {ms : List (PyStr × PyJson)} {ns : List (String × Json)}, plainMembers? ms = some ns →
    ofJsonMembers ns = ms
  | [], _, h => by cases h; rfl
  | (k, v) :: ms, _, h => by
    rw [plainMembers?] at h
    split_ifs at h with hk
    obtain ⟨w, hw, h⟩ := Option.bind_eq_some_iff.mp h
    obtain ⟨ns, hns, rfl⟩ := Option.map_eq_some_iff.mp h
    rw [ofJsonMembers, PyStr.ofString_text hk, ofJson_plain hw, ofJsonMembers_plain hns]

end

mutual

theorem strings_and {p q : PyStr → Bool} : ∀ {v : PyJson}, v.strings p = true → v.strings q = true →
    v.strings (fun s => p s && q s) = true
  | null, _, _ | bool _, _, _ | int _, _, _ | float _, _, _ | nan, _, _ | infinite _, _, _ => rfl
  | str s, hp, hq => by rw [strings] at hp hq ⊢; rw [hp, hq]; rfl
  | arr _, hp, hq => stringsAll_and hp hq
  | obj _, hp, hq => stringsMembers_and hp hq

theorem stringsAll_and {p q : PyStr → Bool} : ∀ {xs : List PyJson}, stringsAll p xs = true → stringsAll q xs = true →
    stringsAll (fun s => p s && q s) xs = true
  | [], _, _ => rfl
  | x :: xs, hp, hq => by
    rw [stringsAll, Bool.and_eq_true] at hp hq ⊢
    exact ⟨strings_and hp.1 hq.1, stringsAll_and hp.2 hq.2⟩

theorem stringsMembers_and {p q : PyStr → Bool} : ∀ {ms : List (PyStr × PyJson)}, stringsMembers p ms = true →
    stringsMembers q ms = true → stringsMembers (fun s => p s && q s) ms = true
  | [], _, _ => rfl
  | (k, v) :: ms, hp, hq => by
    simp only [stringsMembers, Bool.and_eq_true] at hp hq ⊢
    exact ⟨⟨hp.1, hq.1⟩, strings_and hp.2.1 hq.2.1, stringsMembers_and hp.2.2 hq.2.2⟩

end

mutual

theorem strings_mono {p q : PyStr → Bool} (h : ∀ s, p s = true → q s = true) : ∀ {v : PyJson}, v.strings p = true →
    v.strings q = true
  | null, _ | bool _, _ | int _, _ | float _, _ | nan, _ | infinite _, _ => rfl
  | str s, hp => h s hp
  | arr _, hp => stringsAll_mono h hp
  | obj _, hp => stringsMembers_mono h hp

theorem stringsAll_mono {p q : PyStr → Bool} (h : ∀ s, p s = true → q s = true) : ∀ {xs : List PyJson},
    stringsAll p xs = true → stringsAll q xs = true
  | [], _ => rfl
  | x :: xs, hp => by
    rw [stringsAll, Bool.and_eq_true] at hp ⊢
    exact ⟨strings_mono h hp.1, stringsAll_mono h hp.2⟩

theorem stringsMembers_mono {p q : PyStr → Bool} (h : ∀ s, p s = true → q s = true) : ∀ {ms : List (PyStr × PyJson)},
    stringsMembers p ms = true → stringsMembers q ms = true
  | [], _ => rfl
  | (k, v) :: ms, hp => by
    rw [stringsMembers, Bool.and_eq_true, Bool.and_eq_true] at hp ⊢
    exact ⟨h k hp.1, strings_mono h hp.2.1, stringsMembers_mono h hp.2.2⟩

end

end PyJson

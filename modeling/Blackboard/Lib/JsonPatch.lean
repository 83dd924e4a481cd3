import Blackboard.Lib.JsonPaths

/-! JSON Pointer (RFC 6901) and the operations `test`, `add` and `replace` of JSON Patch (RFC 6902).
A patch applies as a whole or not at all. Tokens that are no array index lead through objects only,
where the operations are those of `JsonPaths`. -/

namespace Json

namespace Pointer

def unescape : List Char → List Char
  | '~' :: '1' :: cs => '/' :: unescape cs
  | '~' :: '0' :: cs => '~' :: unescape cs
  | c :: cs => c :: unescape cs
  | [] => []

/-- The text between slashes. -/
def split : List Char → List (List Char)
  | [] => [[]]
  | c :: cs =>
    if c = '/' then [] :: split cs
    else match split cs with
      | t :: ts => (c :: t) :: ts
      | [] => [[c]]

def tokens (s : List Char) : List String := (split s).map fun t => String.ofList (unescape t)

def parse (s : String) : Option (List String) :=
  match s.toList with
  | [] => some []
  | c :: cs => if c = '/' then some (tokens cs) else none

/-- A token without a tilde or a slash of its own. -/
def escaped (cs : List Char) : List Char :=
  cs.flatMap fun c => if c = '~' then ['~', '0'] else if c = '/' then ['~', '1'] else [c]

theorem unescape_escaped (cs : List Char) : unescape (escaped cs) = cs := by
  induction cs with
  | nil => rfl
  | cons c cs ih =>
    by_cases ht : c = '~'
    · subst ht
      exact congrArg ('~' :: ·) ih
    · by_cases hs : c = '/'
      · subst hs
        exact congrArg ('/' :: ·) ih
      · have hc : escaped (c :: cs) = c :: escaped cs := by simp [escaped, ht, hs]
        rw [hc, unescape.eq_3 _ _ (fun _ h _ => ht h) (fun _ h _ => ht h), ih]

theorem slash_not_mem_escaped (cs : List Char) : '/' ∉ escaped cs := by
  intro h
  obtain ⟨c, -, hc⟩ := List.mem_flatMap.mp h
  split_ifs at hc with ht hs
  · simp at hc
  · simp at hc
  · exact hs (List.mem_singleton.mp hc).symm

theorem split_ne_nil (cs : List Char) : split cs ≠ [] := by
  cases cs with
  | nil => exact List.cons_ne_nil _ _
  | cons c cs =>
    unfold split
    split_ifs
    · exact List.cons_ne_nil _ _
    · split <;> exact List.cons_ne_nil _ _

theorem split_plain {cs : List Char} (h : '/' ∉ cs) : split cs = [cs] := by
  induction cs with
  | nil => rfl
  | cons c cs ih =>
    rw [List.mem_cons, not_or] at h
    rw [split, if_neg (Ne.symm h.1), ih h.2]

theorem split_append (cs ds : List Char) : split (cs ++ '/' :: ds) = split cs ++ split ds := by
  induction cs with
  | nil => rfl
  | cons c cs ih =>
    rw [List.cons_append, split, split, ih]
    split_ifs
    · rfl
    · cases h : split cs with
      | nil => exact absurd h (split_ne_nil cs)
      | cons t ts => rfl

/-- One more name at the end of a pointer. -/
theorem parse_append {s : String} {ks : List String} (h : parse s = some ks) (hs : s ≠ "") (key : String) :
    parse (s ++ "/" ++ String.ofList (escaped key.toList)) = some (ks ++ [key]) := by
  unfold parse at h ⊢
  rw [String.toList_append, String.toList_append, String.toList_ofList]
  cases hc : s.toList with
  | nil => exact absurd (String.toList_eq_nil_iff.mp hc) hs
  | cons c cs =>
    rw [hc] at h
    dsimp only at h
    split_ifs at h with hslash
    obtain rfl := Option.some.inj h
    have hsplit : split (cs ++ ['/'] ++ escaped key.toList) = split cs ++ [escaped key.toList] := by
      rw [List.append_assoc, List.singleton_append, split_append, split_plain (slash_not_mem_escaped _)]
    simp only [List.cons_append, hslash, if_true, Option.some.injEq]
    rw [String.toList_ofList, tokens, hsplit, List.map_append, List.map_singleton, unescape_escaped,
      String.ofList_toList]
    rfl

end Pointer

/-- An array index: digits without a leading zero. -/
def index? (token : String) : Option ℕ :=
  match token.toList with
  | [] => none
  | c :: cs =>
    if (c :: cs).all Char.isDigit && (cs.isEmpty || c ≠ '0') then
      some ((c :: cs).foldl (fun n d => 10 * n + (d.toNat - 48)) 0)
    else none

/-- A token that means nothing to an array. -/
def Named (token : String) : Prop := index? token = none ∧ token ≠ "-"

instance (token : String) : Decidable (Named token) := inferInstanceAs (Decidable (_ ∧ _))

/-- The value a pointer leads to. -/
def resolve : List String → Json → Option Json
  | [], j => some j
  | k :: ks, obj ms => (member? ms k).bind fun j => resolve ks j
  | k :: ks, arr xs => (index? k).bind fun i => xs[i]?.bind fun j => resolve ks j
  | _ :: _, _ => none

/-- Change the object or array that holds the last token. -/
def within (f : String → Json → Option Json) : List String → Json → Option Json
  | [], _ => none
  | [k], j => f k j
  | k :: ks, obj ms => (member? ms k).bind fun j => (within f ks j).map fun w => obj (assign ms k w)
  | k :: ks, arr xs => (index? k).bind fun i => xs[i]?.bind fun j => (within f ks j).map fun w => arr (xs.set i w)
  | _ :: _, _ => none

def addIn (v : Json) (k : String) : Json → Option Json
  | obj ms => some (obj (assign ms k v))
  | arr xs =>
    if k = "-" then some (arr (xs ++ [v]))
    else (index? k).bind fun i => if i ≤ xs.length then some (arr (xs.take i ++ v :: xs.drop i)) else none
  | _ => none

def replaceIn (v : Json) (k : String) : Json → Option Json
  | obj ms => (member? ms k).map fun _ => obj (assign ms k v)
  | arr xs => (index? k).bind fun i => if i < xs.length then some (arr (xs.set i v)) else none
  | _ => none

inductive PatchOp
  | test (path : List String) (value : Json)
  | add (path : List String) (value : Json)
  | replace (path : List String) (value : Json)

namespace PatchOp

def ofJson? (j : Json) : Option PatchOp :=
  match j.get? "op", j.get? "path", j.get? "value" with
  | some (str op), some (str path), some value =>
    (Pointer.parse path).bind fun p =>
      if op = "test" then some (test p value)
      else if op = "add" then some (add p value)
      else if op = "replace" then some (replace p value)
      else none
  | _, _, _ => none

def apply : PatchOp → Json → Option Json
  | test p v, j => (resolve p j).bind fun w => if w.same v then some j else none
  | add [] v, _ => some v
  | add p v, j => within (addIn v) p j
  | replace [] v, _ => some v
  | replace p v, j => within (replaceIn v) p j

end PatchOp

def isObj : Json → Bool
  | obj _ => true
  | _ => false

/-- A whole patch. -/
def patched : List Json → Json → Option Json
  | [], j => some j
  | o :: os, j => (PatchOp.ofJson? o).bind fun op => (op.apply j).bind (patched os)

theorem resolve_eq_path? {p : List String} (h : ∀ k ∈ p, Named k) (j : Json) : resolve p j = j.path? p := by
  induction p generalizing j with
  | nil => exact (path?_nil j).symm
  | cons k ks ih =>
    rw [List.forall_mem_cons] at h
    rw [path?_cons]
    cases j with
    | obj ms =>
      rw [resolve, get?_obj]
      exact Option.bind_congr fun w _ => ih h.2 w
    | arr xs => rw [resolve, h.1.1]; rfl
    | _ => rfl

/-- What an edit of the last object does, it does in place. -/
theorem within_eq_some {f : String → Json → Option Json} {v : Json} {k : String}
    (hf : ∀ j w, f k j = some w → w = put v [k] j ∧ ∃ ms, j = obj ms) {p : List String} (hp : ∀ l ∈ p, Named l)
    {j w : Json} (h : within f (p ++ [k]) j = some w) :
    w = put v (p ++ [k]) j ∧ ∃ ms, j.path? p = some (obj ms) ∧ (f k (obj ms)).isSome := by
  induction p generalizing j w with
  | nil =>
    obtain ⟨hw, ms, rfl⟩ := hf j w h
    exact ⟨hw, ms, rfl, by rw [show f k (obj ms) = some w from h]; rfl⟩
  | cons l p ih =>
    rw [List.forall_mem_cons] at hp
    obtain ⟨l', p', hp'⟩ : ∃ l' p', p ++ [k] = l' :: p' := by
      cases p with
      | nil => exact ⟨k, [], rfl⟩
      | cons a as => exact ⟨a, as ++ [k], rfl⟩
    rw [List.cons_append, hp'] at h
    cases j with
    | obj ms =>
      simp only [within, Option.bind_eq_some_iff, Option.map_eq_some_iff] at h
      obtain ⟨x, hx, y, hy, rfl⟩ := h
      rw [← hp'] at hy
      obtain ⟨rfl, ns, hns, hsome⟩ := ih hp.2 hy
      refine ⟨?_, ns, ?_, hsome⟩
      · rw [List.cons_append, put, get?_obj, hx]
        rfl
      · rw [path?_cons, get?_obj, hx]
        exact hns
    | arr xs => simp [within, hp.1.1] at h
    | _ => simp [within] at h

/-- The edit goes through where there is an object to edit. -/
theorem within_isSome {f : String → Json → Option Json} {k : String} {p : List String} {j : Json}
    {ms : List (String × Json)} (h : j.path? p = some (obj ms)) (hf : (f k (obj ms)).isSome) :
    (within f (p ++ [k]) j).isSome := by
  induction p generalizing j with
  | nil =>
    obtain rfl := Option.some.inj ((path?_nil j).symm.trans h)
    exact hf
  | cons l p ih =>
    obtain ⟨l', p', hp'⟩ : ∃ l' p', p ++ [k] = l' :: p' := by
      cases p with
      | nil => exact ⟨k, [], rfl⟩
      | cons a as => exact ⟨a, as ++ [k], rfl⟩
    rw [path?_cons, Option.bind_eq_some_iff] at h
    obtain ⟨x, hx, h⟩ := h
    obtain ⟨ns, rfl⟩ := get?_obj_of_some hx
    rw [get?_obj] at hx
    have hi := ih h
    rw [hp'] at hi
    rw [List.cons_append, hp', within, hx, Option.bind_some, Option.isSome_map]
    · exact hi
    · exact List.cons_ne_nil l' p'

section Ops

variable {p : List String} {k : String} {v j : Json}

theorem addIn_eq_some (hk : Named k) {w : Json} (h : addIn v k j = some w) : w = put v [k] j ∧ ∃ ms, j = obj ms := by
  cases j with
  | obj ms =>
    obtain rfl := Option.some.inj h
    exact ⟨rfl, ms, rfl⟩
  | arr xs => simp [addIn, hk.1, hk.2] at h
  | _ => cases h

theorem replaceIn_eq_some (hk : Named k) {w : Json} (h : replaceIn v k j = some w) :
    w = put v [k] j ∧ ∃ ms, j = obj ms := by
  cases j with
  | obj ms =>
    obtain ⟨-, -, rfl⟩ := Option.map_eq_some_iff.mp h
    exact ⟨rfl, ms, rfl⟩
  | arr xs => simp [replaceIn, hk.1] at h
  | _ => cases h

theorem apply_add_cons : (PatchOp.add (p ++ [k]) v).apply j = within (addIn v) (p ++ [k]) j := by
  cases p <;> rfl

theorem apply_replace_cons : (PatchOp.replace (p ++ [k]) v).apply j = within (replaceIn v) (p ++ [k]) j := by
  cases p <;> rfl

/-- `add` sets a member of an object that is there, or fails. -/
theorem apply_add (hp : ∀ l ∈ p, Named l) (hk : Named k) :
    (PatchOp.add (p ++ [k]) v).apply j = if (j.path? p).any isObj then some (put v (p ++ [k]) j) else none := by
  rw [apply_add_cons]
  split_ifs with h
  · obtain ⟨o, ho, hobj⟩ := (Option.any_eq_true isObj _).mp h
    obtain ⟨ms, rfl⟩ : ∃ ms, o = obj ms := by
      cases o with
      | obj ms => exact ⟨ms, rfl⟩
      | _ => cases hobj
    obtain ⟨w, hw⟩ := Option.isSome_iff_exists.mp (within_isSome (f := addIn v) (k := k) ho rfl)
    rw [hw, (within_eq_some (fun _ _ => addIn_eq_some hk) hp hw).1]
  · cases hw : within (addIn v) (p ++ [k]) j with
    | none => rfl
    | some w =>
      obtain ⟨-, ms, hms, -⟩ := within_eq_some (fun _ _ => addIn_eq_some hk) hp hw
      exact absurd (by rw [hms]; rfl) h

/-- `replace` sets a member that is there, or fails. -/
theorem apply_replace (hp : ∀ l ∈ p, Named l) (hk : Named k) :
    (PatchOp.replace (p ++ [k]) v).apply j =
      if (j.path? (p ++ [k])).isSome then some (put v (p ++ [k]) j) else none := by
  have hsome : ∀ ms, j.path? p = some (obj ms) →
      (replaceIn v k (obj ms)).isSome = (j.path? (p ++ [k])).isSome := fun ms hms => by
    rw [path?_append, hms, Option.bind_some, path?_cons, get?_obj, replaceIn, Option.isSome_map]
    cases member? ms k with
    | none => rfl
    | some w => simp
  rw [apply_replace_cons]
  split_ifs with h
  · have hobj : ∃ ms, j.path? p = some (obj ms) := by
      obtain ⟨w, hw⟩ := Option.isSome_iff_exists.mp h
      rw [path?_append, Option.bind_eq_some_iff] at hw
      obtain ⟨x, hx, hw⟩ := hw
      rw [path?_cons, Option.bind_eq_some_iff] at hw
      obtain ⟨y, hy, -⟩ := hw
      obtain ⟨ms, rfl⟩ := get?_obj_of_some hy
      exact ⟨ms, hx⟩
    obtain ⟨ms, hms⟩ := hobj
    obtain ⟨w, hw⟩ := Option.isSome_iff_exists.mp (within_isSome (f := replaceIn v) hms ((hsome ms hms).trans h))
    rw [hw, (within_eq_some (fun _ _ => replaceIn_eq_some hk) hp hw).1]
  · cases hw : within (replaceIn v) (p ++ [k]) j with
    | none => rfl
    | some w =>
      obtain ⟨-, ms, hms, hi⟩ := within_eq_some (fun _ _ => replaceIn_eq_some hk) hp hw
      exact absurd ((hsome ms hms).symm.trans hi) h

theorem apply_test {w : Json} (hp : ∀ l ∈ p, Named l) (hj : j.path? p = some w) :
    (PatchOp.test p v).apply j = if w.same v then some j else none := by
  rw [PatchOp.apply, resolve_eq_path? hp, hj, Option.bind_some]

theorem apply_test_none (hp : ∀ l ∈ p, Named l) (hj : j.path? p = none) : (PatchOp.test p v).apply j = none := by
  rw [PatchOp.apply, resolve_eq_path? hp, hj, Option.bind_none]

end Ops

end Json

import Mathlib.Data.List.Infix
import Blackboard.Lib.Regex

/-! What a pattern can take, apart from the order in which it tries, against the matches that are found:
the search finds one wherever there is one, and a text falls into its matches and the rest. -/

namespace Regex

/-- The pattern can take `w` after `b`, nearest first, and before `a`. -/
inductive Takes : Regex → List Char → List Char → List Char → Prop
  | empty {b a} : Takes empty b [] a
  | char {p : Char → Bool} {c b a} (h : p c = true) : Takes (char p) b [c] a
  | seq {r r' b u v a} (hu : Takes r b u (v ++ a)) (hv : Takes r' (u.reverse ++ b) v a) : Takes (seq r r') b (u ++ v) a
  | left {r r' b w a} (h : Takes r b w a) : Takes (alt r r') b w a
  | right {r r' b w a} (h : Takes r' b w a) : Takes (alt r r') b w a
  | done {greedy r b a} : Takes (star greedy r) b [] a
  | more {greedy r b u v a} (hne : u ≠ []) (hu : Takes r b u (v ++ a))
    (hv : Takes (star greedy r) (u.reverse ++ b) v a) :
      Takes (star greedy r) b (u ++ v) a
  | group {n r b w a} (h : Takes r b w a) : Takes (group n r) b w a
  | lineStart {b a} (h : b.head?.all (· = '\n') = true) : Takes lineStart b [] a
  | lineEnd {b a} (h : a.head?.all (· = '\n') = true) : Takes lineEnd b [] a

/-- `s'` is where `w` has been taken from `s`. -/
structure After (s : Place) (w : List Char) (s' : Place) : Prop where
  before : s'.before = w.reverse ++ s.before
  rest : s.rest = w ++ s'.rest

theorem After.refl (s : Place) : After s [] s := ⟨rfl, rfl⟩

theorem After.trans {s s' s'' : Place} {u v : List Char} (h : After s u s') (h' : After s' v s'') :
    After s (u ++ v) s'' where
  before := by rw [h'.before, h.before, List.reverse_append, List.append_assoc]
  rest := by rw [h.rest, h'.rest, List.append_assoc]

/-- The continuation succeeded after something that the pattern can take. -/
def Found (r : Regex) (s : Place) (k : Place → Option Place) (e : Place) : Prop :=
  ∃ w s', Takes r s.before w s'.rest ∧ After s w s' ∧ k s' = some e

theorem many_found {r : Regex} {greedy : Bool} (hr : ∀ {s k e}, r.go s k = some e → Found r s k e) (n : ℕ) :
    ∀ {s k e}, many r.go greedy n s k = some e → Found (star greedy r) s k e := by
  induction n with
  | zero => exact fun {s k e} h => ⟨[], s, .done, .refl s, h⟩
  | succ n ih =>
    intro s k e h
    have hmore : (r.go s fun s' => if s'.rest.length < s.rest.length then many r.go greedy n s' k else none) = some e →
        Found (star greedy r) s k e := by
      intro h
      obtain ⟨u, s1, hu, hs1, h1⟩ := hr h
      beta_reduce at h1
      split_ifs at h1 with hlt
      obtain ⟨v, s2, hv, hs2, h2⟩ := ih h1
      have hne : u ≠ [] := by
        rintro rfl
        rw [hs1.rest] at hlt
        exact Nat.lt_irrefl _ hlt
      rw [hs2.rest] at hu
      rw [hs1.before] at hv
      exact ⟨u ++ v, s2, .more hne hu hv, hs1.trans hs2, h2⟩
    have hk : k s = some e → Found (star greedy r) s k e := fun h => ⟨[], s, .done, .refl s, h⟩
    simp only [many] at h
    split_ifs at h
    · exact (orElse_eq_some h).elim hmore hk
    · exact (orElse_eq_some h).elim hk hmore

/-- What is found can be taken. -/
theorem go_found (r : Regex) : ∀ {s k e}, r.go s k = some e → Found r s k e := by
  induction r with
  | empty => exact fun {s k e} h => ⟨[], s, .empty, .refl s, h⟩
  | char p =>
    intro s k e h
    obtain ⟨before, rest, groups⟩ := s
    rcases rest with _ | ⟨c, cs⟩
    · cases h
    · simp only [go] at h
      split_ifs at h with hc
      exact ⟨[c], _, .char hc, ⟨rfl, rfl⟩, h⟩
  | seq r r' ih ih' =>
    intro s k e h
    obtain ⟨u, s1, hu, hs1, h1⟩ := ih h
    obtain ⟨v, s2, hv, hs2, h2⟩ := ih' h1
    rw [hs2.rest] at hu
    rw [hs1.before] at hv
    exact ⟨u ++ v, s2, .seq hu hv, hs1.trans hs2, h2⟩
  | alt r r' ih ih' =>
    intro s k e h
    rcases orElse_eq_some h with h | h
    · obtain ⟨w, s', hw, hs, hk⟩ := ih h
      exact ⟨w, s', .left hw, hs, hk⟩
    · obtain ⟨w, s', hw, hs, hk⟩ := ih' h
      exact ⟨w, s', .right hw, hs, hk⟩
  | star greedy r ih => exact many_found ih _
  | group n r ih =>
    intro s k e h
    obtain ⟨w, s', hw, hs, hk⟩ := ih h
    exact ⟨w, { s' with groups := (n, s.rest.take (s.rest.length - s'.rest.length)) :: s'.groups },
      .group hw, ⟨hs.before, hs.rest⟩, hk⟩
  | lineStart =>
    intro s k e h
    simp only [go] at h
    split_ifs at h with hs
    exact ⟨[], s, .lineStart hs, .refl s, h⟩
  | lineEnd =>
    intro s k e h
    simp only [go] at h
    split_ifs at h with hs
    exact ⟨[], s, .lineEnd hs, .refl s, h⟩

theorem orElse_isSome {o : Option Place} {f : Unit → Option Place} (h : o.isSome ∨ (f ()).isSome) :
    (o.orElse f).isSome := by
  rcases o with _ | a
  · exact h.resolve_left (by simp)
  · rfl

theorem many_isSome {r : Regex} {greedy : Bool}
    (hr : ∀ {b w a gs k}, Takes r b w a → (∀ gs', (k ⟨w.reverse ++ b, a, gs'⟩).isSome) →
      (r.go ⟨b, w ++ a, gs⟩ k).isSome)
    (n : ℕ) : ∀ {b w a gs k}, Takes (star greedy r) b w a → w.length < n →
      (∀ gs', (k ⟨w.reverse ++ b, a, gs'⟩).isSome) → (many r.go greedy n ⟨b, w ++ a, gs⟩ k).isSome := by
  induction n with
  | zero => exact fun _ hn => absurd hn (Nat.not_lt_zero _)
  | succ n ih =>
    intro b w a gs k h hn hk
    have hor : (k ⟨b, w ++ a, gs⟩).isSome ∨
        (r.go ⟨b, w ++ a, gs⟩ fun s' => if s'.rest.length < (w ++ a).length then many r.go greedy n s' k
          else none).isSome := by
      cases h with
      | done => exact .inl (hk gs)
      | @more _ _ _ u v _ hne hu hv =>
        right
        rw [List.append_assoc]
        refine hr hu fun gs' => ?_
        have hpos := List.length_pos_of_ne_nil hne
        simp only [List.length_append] at hn ⊢
        rw [if_pos (by omega)]
        refine ih hv (by omega) fun gs'' => ?_
        rw [← List.append_assoc, ← List.reverse_append]
        exact hk gs''
    simp only [many]
    split_ifs
    · exact orElse_isSome hor.symm
    · exact orElse_isSome hor

/-- What can be taken is found, this or another, if the rest goes on after it. -/
theorem go_isSome (r : Regex) : ∀ {b w a gs k}, Takes r b w a → (∀ gs', (k ⟨w.reverse ++ b, a, gs'⟩).isSome) →
    (r.go ⟨b, w ++ a, gs⟩ k).isSome := by
  induction r with
  | empty =>
    intro b w a gs k h hk
    cases h
    exact hk gs
  | char p =>
    intro b w a gs k h hk
    cases h with
    | char hc =>
      simp only [List.cons_append, List.nil_append, go, hc, if_true]
      exact hk gs
  | seq r r' ih ih' =>
    intro b w a gs k h hk
    cases h with
    | @seq _ _ _ u v _ hu hv =>
      rw [List.append_assoc]
      refine ih hu fun gs' => ih' hv fun gs'' => ?_
      rw [← List.append_assoc, ← List.reverse_append]
      exact hk gs''
  | alt r r' ih ih' =>
    intro b w a gs k h hk
    cases h with
    | left h => exact orElse_isSome (.inl (ih h hk))
    | right h => exact orElse_isSome (.inr (ih' h hk))
  | star greedy r ih =>
    intro b w a gs k h hk
    exact many_isSome ih _ h (by simp only [List.length_append]; omega) hk
  | group n r ih =>
    intro b w a gs k h hk
    cases h with
    | group h => exact ih h fun gs' => hk _
  | lineStart =>
    intro b w a gs k h hk
    cases h with
    | lineStart hb =>
      simp only [go, hb, if_true]
      exact hk gs
  | lineEnd =>
    intro b w a gs k h hk
    cases h with
    | lineEnd ha =>
      simp only [go, List.nil_append, ha, if_true]
      exact hk gs

/-! The scan of a text. -/

/-- A text after `b`, cut into matches and the characters where none begins. -/
inductive Cuts (r : Regex) : List Char → List Char → List (Char ⊕ Match) → Prop
  | nil {b} : Cuts r b [] []
  | skip {b c cs xs} (h : ∀ w a, c :: cs = w ++ a → ¬ Takes r b w a) (hxs : Cuts r (c :: b) cs xs) :
      Cuts r b (c :: cs) (.inl c :: xs)
  | take {b a xs} {m : Match} (hne : m.text ≠ []) (h : Takes r b m.text a) (hstart : m.start = b.length)
      (hxs : Cuts r (m.text.reverse ++ b) a xs) : Cuts r b (m.text ++ a) (.inr m :: xs)

/-- The pattern takes something wherever it matches. -/
def Consumes (r : Regex) : Prop := ∀ b w a, Takes r b w a → w ≠ []

theorem scan_nil (r : Regex) (n : ℕ) (before : List Char) : scan r n before [] = [] := by
  rcases n with _ | n
  · rfl
  · unfold scan
    rcases r.go ⟨before, [], []⟩ some with _ | e <;> rfl

theorem scan_skip {r : Regex} {n : ℕ} {before cs : List Char} {c : Char} (h : r.go ⟨before, c :: cs, []⟩ some = none) :
    scan r (n + 1) before (c :: cs) = .inl c :: scan r n (c :: before) cs := by
  conv_lhs => unfold scan
  rw [h]

theorem scan_take {r : Regex} {n : ℕ} {before cs : List Char} {c : Char} {e : Place}
    (h : r.go ⟨before, c :: cs, []⟩ some = some e) (hlt : e.rest.length < (c :: cs).length) :
    scan r (n + 1) before (c :: cs) =
      .inr ⟨before.length, (c :: cs).take ((c :: cs).length - e.rest.length), e.groups⟩ ::
      scan r n e.before e.rest := by
  conv_lhs => unfold scan
  rw [h]
  exact if_pos hlt

theorem scan_cuts {r : Regex} (hr : Consumes r) (n : ℕ) :
    ∀ {before rest}, rest.length ≤ n → Cuts r before rest (scan r n before rest) := by
  induction n with
  | zero =>
    intro before rest hn
    obtain rfl := List.length_eq_zero_iff.mp (Nat.le_zero.mp hn)
    exact .nil
  | succ n ih =>
    intro before rest hn
    rcases rest with _ | ⟨c, cs⟩
    · rw [scan_nil]
      exact .nil
    have hcs : cs.length ≤ n := Nat.le_of_succ_le_succ hn
    rcases hgo : r.go ⟨before, c :: cs, []⟩ some with _ | e
    · rw [scan_skip hgo]
      refine .skip (fun w a hw h => ?_) (ih hcs)
      have hsome : (r.go ⟨before, w ++ a, []⟩ some).isSome := go_isSome r h fun _ => rfl
      rw [← hw, hgo] at hsome
      cases hsome
    · obtain ⟨w, s', hw, hs, he⟩ := go_found r hgo
      obtain rfl := Option.some.inj he
      have hne := hr _ _ _ hw
      have hrest : c :: cs = w ++ s'.rest := hs.rest
      have hpos := List.length_pos_of_ne_nil hne
      have hlen : (c :: cs).length = w.length + s'.rest.length := by rw [hrest, List.length_append]
      have hbefore : s'.before = w.reverse ++ before := hs.before
      rw [scan_take hgo (by omega), show (c :: cs).length - s'.rest.length = w.length by omega, hrest,
        List.take_left, hbefore]
      refine .take (m := ⟨before.length, w, s'.groups⟩) hne hw rfl (ih ?_)
      simp only [List.length_cons] at hn hlen
      omega

theorem text_cuts {r : Regex} (hr : Consumes r) (text : List Char) : Cuts r [] text (scan r text.length [] text) :=
  scan_cuts hr _ (Nat.le_refl _)

def matchOf : Char ⊕ Match → Option Match
  | .inr m => some m
  | .inl _ => none

theorem finditer_eq (r : Regex) (text : List Char) : finditer r text = (scan r text.length [] text).filterMap matchOf :=
  rfl

/-- The text before the first match, and each match with what follows it up to the next. -/
def slices : List (Char ⊕ Match) → List Char × List (Match × List Char)
  | [] => ([], [])
  | .inl c :: xs => (c :: (slices xs).1, (slices xs).2)
  | .inr m :: xs => ([], (m, m.text ++ (slices xs).1) :: (slices xs).2)

theorem slices_matches (xs : List (Char ⊕ Match)) : (slices xs).2.map Prod.fst = xs.filterMap matchOf := by
  induction xs with
  | nil => rfl
  | cons x xs ih =>
    rcases x with c | m
    · exact ih
    · exact congrArg (m :: ·) ih

theorem Cuts.slices_eq {r : Regex} {b rest : List Char} {xs : List (Char ⊕ Match)} (h : Cuts r b rest xs) :
    rest = (slices xs).1 ++ ((slices xs).2.map Prod.snd).flatten := by
  induction h with
  | nil => rfl
  | skip h hxs ih => rw [slices, List.cons_append, ← ih]
  | take hne h hstart hxs ih => rw [slices, List.nil_append, List.map_cons, List.flatten_cons, List.append_assoc, ← ih]

/-! Where a text has a match at all. -/

def Contains (r : Regex) (text : List Char) : Prop := ∃ b w a, text = b ++ w ++ a ∧ Takes r b.reverse w a

theorem Cuts.contains {r : Regex} {b rest : List Char} {xs : List (Char ⊕ Match)} (h : Cuts r b rest xs) {m : Match}
    (hm : .inr m ∈ xs) : ∃ pre w a, rest = pre ++ w ++ a ∧ Takes r (pre.reverse ++ b) w a := by
  induction h with
  | nil => cases hm
  | @skip b c cs xs h hxs ih =>
    obtain ⟨pre, w, a, rfl, hw⟩ := ih ((List.mem_cons.mp hm).resolve_left (by simp))
    exact ⟨c :: pre, w, a, rfl, by simpa using hw⟩
  | @take b a xs m' hne h hstart hxs ih => exact ⟨[], m'.text, a, rfl, h⟩

theorem Cuts.not_takes {r : Regex} (hr : Consumes r) {b rest : List Char} {xs : List (Char ⊕ Match)}
    (h : Cuts r b rest xs) (hno : ∀ m, .inr m ∉ xs) :
    ∀ pre w a, rest = pre ++ w ++ a → ¬ Takes r (pre.reverse ++ b) w a := by
  induction h with
  | nil =>
    intro pre w a he h
    simp only [List.nil_eq, List.append_eq_nil_iff] at he
    exact hr _ _ _ h he.1.2
  | @skip b c cs xs h hxs ih =>
    intro pre w a he hw
    rcases pre with _ | ⟨d, pre⟩
    · exact h w a he hw
    · obtain ⟨rfl, hcs⟩ := List.cons.inj he
      exact ih (fun m hm => hno m (List.mem_cons_of_mem _ hm)) pre w a hcs (by simpa using hw)
  | @take b a xs m hne h hstart hxs ih => exact absurd List.mem_cons_self (hno m)

/-- A search finds a match if and only if there is one. -/
theorem finditer_eq_nil_iff {r : Regex} (hr : Consumes r) (text : List Char) :
    finditer r text = [] ↔ ¬ Contains r text := by
  have hcuts := text_cuts hr text
  rw [finditer_eq, List.filterMap_eq_nil_iff]
  constructor
  · rintro hno ⟨b, w, a, he, hw⟩
    refine hcuts.not_takes hr (fun m hm => ?_) b w a he (by simpa using hw)
    cases hno _ hm
  · intro h x hx
    rcases x with c | m
    · rfl
    · obtain ⟨pre, w, a, he, hw⟩ := hcuts.contains hx
      exact absurd ⟨pre, w, a, he, by simpa using hw⟩ h

/-- A pattern that does not look around. -/
def Plain : Regex → Prop
  | seq a b => Plain a ∧ Plain b
  | alt a b => Plain a ∧ Plain b
  | star _ r => Plain r
  | group _ r => Plain r
  | lineStart => False
  | lineEnd => False
  | _ => True

theorem Takes.context {r : Regex} {b w a : List Char} (h : Takes r b w a) (hr : Plain r) :
    ∀ b' a', Takes r b' w a' := by
  induction h with
  | empty => exact fun _ _ => .empty
  | char hc => exact fun _ _ => .char hc
  | seq _ _ ihu ihv => exact fun _ _ => .seq (ihu hr.1 _ _) (ihv hr.2 _ _)
  | left _ ih => exact fun _ _ => .left (ih hr.1 _ _)
  | right _ ih => exact fun _ _ => .right (ih hr.2 _ _)
  | done => exact fun _ _ => .done
  | more hne _ _ ihu ihv => exact fun _ _ => .more hne (ihu hr _ _) (ihv hr _ _)
  | group _ ih => exact fun _ _ => .group (ih hr _ _)
  | lineStart => exact hr.elim
  | lineEnd => exact hr.elim

/-- All that a pattern takes is of a kind. -/
def Over (p : Char → Prop) : Regex → Prop
  | char q => ∀ c, q c = true → p c
  | seq a b => Over p a ∧ Over p b
  | alt a b => Over p a ∧ Over p b
  | star _ r => Over p r
  | group _ r => Over p r
  | _ => True

theorem Takes.over {r : Regex} {b w a : List Char} (h : Takes r b w a) (hr : Over p r) : ∀ c ∈ w, p c := by
  induction h with
  | empty => simp
  | char hc => exact fun c hmem => by rw [List.mem_singleton.mp hmem]; exact hr _ hc
  | seq _ _ ihu ihv => exact fun c hmem => (List.mem_append.mp hmem).elim (ihu hr.1 c) (ihv hr.2 c)
  | left _ ih => exact ih hr.1
  | right _ ih => exact ih hr.2
  | done => simp
  | more _ _ _ ihu ihv => exact fun c hmem => (List.mem_append.mp hmem).elim (ihu hr c) (ihv hr c)
  | group _ ih => exact ih hr
  | lineStart => simp
  | lineEnd => simp

theorem over_literal {s : String} (hs : ∀ c ∈ s.toList, p c) : Over p (literal s) := by
  rw [literal]
  generalize s.toList = cs at hs
  induction cs with
  | nil => exact trivial
  | cons c cs ih =>
    refine ⟨fun d hd => ?_, ih fun d hd => hs d (List.mem_cons_of_mem c hd)⟩
    rw [of_decide_eq_true hd]
    exact hs c List.mem_cons_self

theorem over_times {r : Regex} (hr : Over p r) (n : ℕ) : Over p (times n r) := by
  induction n with
  | zero => exact trivial
  | succ n ih => exact ⟨hr, ih⟩

theorem over_atLeast {r : Regex} (hr : Over p r) (n : ℕ) : Over p (atLeast n r) := ⟨over_times hr n, hr⟩

theorem over_plus {r : Regex} (hr : Over p r) : Over p (plus r) := ⟨hr, hr⟩

theorem Takes.needs {r : Regex} {b w a : List Char} (h : Takes r b w a) (hr : Needs p r) : ∃ c ∈ w, p c := by
  induction h with
  | empty => exact hr.elim
  | char hc => exact ⟨_, List.mem_cons_self, hr _ hc⟩
  | seq _ _ ihu ihv =>
    rcases hr with hr | hr
    · obtain ⟨c, hc, hp⟩ := ihu hr
      exact ⟨c, List.mem_append_left _ hc, hp⟩
    · obtain ⟨c, hc, hp⟩ := ihv hr
      exact ⟨c, List.mem_append_right _ hc, hp⟩
  | left _ ih => exact ih hr.1
  | right _ ih => exact ih hr.2
  | done => exact hr.elim
  | more => exact hr.elim
  | group _ ih => exact ih hr
  | lineStart => exact hr.elim
  | lineEnd => exact hr.elim

theorem Needs.consumes {r : Regex} (hr : Needs p r) : Consumes r := by
  rintro b w a h rfl
  obtain ⟨c, hc, -⟩ := h.needs hr
  cases hc

theorem contains_iff {r : Regex} (hr : Plain r) {text : List Char} :
    Contains r text ↔ ∃ w, w <:+: text ∧ Takes r [] w [] := by
  constructor
  · rintro ⟨b, w, a, he, hw⟩
    exact ⟨w, ⟨b, a, he.symm⟩, hw.context hr _ _⟩
  · rintro ⟨w, ⟨b, a, he⟩, hw⟩
    exact ⟨b, w, a, he.symm, hw.context hr _ _⟩

theorem infix_append_cons {α : Type} {c : α} {w x y : List α} (hc : c ∉ w) :
    w <:+: x ++ c :: y ↔ w <:+: x ∨ w <:+: y := by
  constructor
  · rintro ⟨b, a, he⟩
    rcases List.append_eq_append_iff.mp he with ⟨t, hx, -⟩ | ⟨t, hbw, hrest⟩
    · exact .inl ⟨b, t, hx.symm⟩
    rcases t with _ | ⟨d, t⟩
    · exact .inl ⟨b, [], by simpa using hbw⟩
    obtain ⟨rfl, rfl⟩ := List.cons.inj hrest
    -- the separator ends before the word starts, or is inside it
    rcases List.append_eq_append_iff.mp hbw with ⟨s, -, hw⟩ | ⟨s, -, hs⟩
    · exact absurd (hw ▸ by simp) hc
    · rcases s with _ | ⟨d, s⟩
      · exact absurd ((show c :: t = w from hs) ▸ List.mem_cons_self) hc
      · obtain ⟨rfl, rfl⟩ := List.cons.inj hs
        exact .inr ⟨s, a, rfl⟩
  · rintro (h | h)
    · exact h.trans (List.prefix_append x _).isInfix
    · exact h.trans ((List.suffix_cons c y).trans (List.suffix_append x _)).isInfix

/-- A character that the pattern never takes keeps two texts apart. -/
theorem contains_append_cons {r : Regex} (hr : Plain r) (hover : Over p r) {c : Char} (hc : ¬ p c) {x y : List Char} :
    Contains r (x ++ c :: y) ↔ Contains r x ∨ Contains r y := by
  have hout : ∀ {w}, Takes r [] w [] → c ∉ w := fun hw hmem => hc (hw.over hover c hmem)
  rw [contains_iff hr, contains_iff hr, contains_iff hr]
  constructor
  · rintro ⟨w, hinfix, hw⟩
    exact ((infix_append_cons (hout hw)).mp hinfix).imp (fun h => ⟨w, h, hw⟩) fun h => ⟨w, h, hw⟩
  · rintro (⟨w, hinfix, hw⟩ | ⟨w, hinfix, hw⟩)
    · exact ⟨w, (infix_append_cons (hout hw)).mpr (.inl hinfix), hw⟩
    · exact ⟨w, (infix_append_cons (hout hw)).mpr (.inr hinfix), hw⟩

theorem contains_nil {r : Regex} (hr : Consumes r) : ¬ Contains r [] := by
  rintro ⟨b, w, a, he, hw⟩
  simp only [List.nil_eq, List.append_eq_nil_iff] at he
  exact hr _ _ _ hw he.1.2

theorem contains_intercalate {r : Regex} (hr : Plain r) (hcons : Consumes r) (hover : Over p r) {c : Char} (hc : ¬ p c)
    (ls : List (List Char)) : Contains r ([c].intercalate ls) ↔ ∃ l ∈ ls, Contains r l := by
  induction ls with
  | nil => simpa using contains_nil hcons
  | cons l ls ih =>
    by_cases hls : ls = []
    · subst hls
      simp
    · rw [List.intercalate_cons_of_ne_nil hls, List.append_assoc, List.singleton_append,
        contains_append_cons hr hover hc, ih]
      simp

def textOf (repl : List Char) : Char ⊕ Match → List Char
  | .inr _ => repl
  | .inl c => [c]

theorem sub_eq (r : Regex) (repl text : List Char) :
    sub r repl text = (scan r text.length [] text).flatMap (textOf repl) := rfl

/-- What starts the result up to a replacement started the text. -/
theorem Cuts.prefix_of {r : Regex} {x : Char} {repl : List Char} {b rest : List Char} {xs : List (Char ⊕ Match)}
    (h : Cuts r b rest xs) : ∀ {w}, x ∉ w → w <+: xs.flatMap (textOf (x :: repl)) → w <+: rest := by
  induction h with
  | nil => exact fun _ hw => hw
  | skip h hxs ih =>
    intro w hx hw
    rcases w with _ | ⟨d, w⟩
    · exact List.nil_prefix
    · obtain ⟨rfl, hw'⟩ := List.cons_prefix_cons.mp hw
      exact List.cons_prefix_cons.mpr ⟨rfl, ih (fun hmem => hx (List.mem_cons_of_mem _ hmem)) hw'⟩
  | take hne h hstart hxs ih =>
    intro w hx hw
    rcases w with _ | ⟨d, w⟩
    · exact List.nil_prefix
    · obtain ⟨rfl, -⟩ := List.cons_prefix_cons.mp hw
      exact absurd List.mem_cons_self hx

theorem Cuts.not_contains {r : Regex} (hr : Plain r) (hneeds : Consumes r) (hover : Over p r) {x y : Char}
    {mid : List Char} (hx : ¬ p x) (hy : ¬ p y) (hmid : ¬ Contains r mid) {b rest : List Char}
    {xs : List (Char ⊕ Match)} (hcuts : Cuts r b rest xs) : ¬ Contains r (xs.flatMap (textOf (x :: (mid ++ [y])))) := by
  induction hcuts with
  | nil => exact contains_nil hneeds
  | @skip b c cs xs h hxs ih =>
    rintro ⟨b', w, a, he, hw⟩
    rcases b' with _ | ⟨d, b'⟩
    · have hprefix : w <+: c :: cs := by
        have hout : w <+: (Sum.inl c :: xs).flatMap (textOf (x :: (mid ++ [y]))) := ⟨a, he.symm⟩
        exact Cuts.prefix_of (.skip h hxs) (fun hmem => hx (hw.over hover x hmem)) hout
      obtain ⟨a', ha'⟩ := hprefix
      exact h w a' ha'.symm (hw.context hr _ _)
    · rw [List.flatMap_cons] at he
      obtain ⟨rfl, hcs⟩ := List.cons.inj he
      exact ih ⟨b', w, a, hcs, hw.context hr _ _⟩
  | @take b a xs m hne h hstart hxs ih =>
    have hsplit : (Sum.inr m :: xs).flatMap (textOf (x :: (mid ++ [y]))) =
        [] ++ x :: (mid ++ y :: xs.flatMap (textOf (x :: (mid ++ [y])))) := by
      simp [textOf]
    rw [hsplit, contains_append_cons hr hover hx, contains_append_cons hr hover hy]
    rintro (hin | hin | hin)
    · exact contains_nil hneeds hin
    · exact hmid hin
    · exact ih hin

/-- Replacing the matches leaves none, if the ends of the replacement cannot be in one and its inside
has none. -/
theorem not_contains_sub {r : Regex} (hr : Plain r) (hneeds : Consumes r) (hover : Over p r) {x y : Char}
    {mid : List Char} (hx : ¬ p x) (hy : ¬ p y) (hmid : ¬ Contains r mid) (text : List Char) :
    ¬ Contains r (sub r (x :: (mid ++ [y])) text) :=
  (text_cuts hneeds text).not_contains hr hneeds hover hx hy hmid

end Regex

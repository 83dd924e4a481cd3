import Mathlib.Data.List.Basic

/-! Python's `str.splitlines` and `str.strip`. Text written a line at a time is read as those
lines exactly if no line has a break inside; a break between two visible characters always
makes one line more. -/

namespace Lines

/-- What `splitlines` takes for the end of a line, besides "\r\n". -/
def isBreak (c : Char) : Bool := c.toNat ∈ [10, 11, 12, 13, 28, 29, 30, 0x85, 0x2028, 0x2029]

/-- `str.isspace` -/
def isSpace (c : Char) : Bool :=
  c.toNat ∈ [9, 10, 11, 12, 13, 28, 29, 30, 31, 32, 0x85, 0xA0, 0x1680, 0x2028, 0x2029, 0x202F, 0x205F, 0x3000] ||
    (0x2000 ≤ c.toNat && c.toNat ≤ 0x200A)

def splitlines : List Char → List (List Char)
  | [] => []
  | '\r' :: '\n' :: r => [] :: splitlines r
  | c :: r =>
    if isBreak c then [] :: splitlines r
    else match splitlines r with
      | [] => [[c]]
      | l :: ls => (c :: l) :: ls

/-- `if line.strip()` -/
def isBlank (l : List Char) : Bool := l.all isSpace

/-- `[line for line in text.splitlines() if line.strip()]` -/
def nonblank (cs : List Char) : List (List Char) := (splitlines cs).filter fun l => !isBlank l

theorem splitlines_break {c : Char} (h : isBreak c = true) (hr : c ≠ '\r') (r : List Char) :
    splitlines (c :: r) = [] :: splitlines r := by
  rw [splitlines, if_pos h]
  rintro r' rfl
  exact absurd rfl hr

theorem splitlines_cons {c : Char} (h : isBreak c = false) (r : List Char) :
    splitlines (c :: r) = match splitlines r with
      | [] => [[c]]
      | l :: ls => (c :: l) :: ls := by
  rw [splitlines, if_neg (by simp [h])]
  rintro r' rfl
  cases h

theorem splitlines_cr {r : List Char} (h : r.head? ≠ some '\n') : splitlines ('\r' :: r) = [] :: splitlines r := by
  rw [splitlines, if_pos (by decide)]
  rintro r' - rfl
  exact h rfl

theorem isSpace_of_isBreak {c : Char} (h : isBreak c = true) : isSpace c = true := by
  unfold isBreak at h
  unfold isSpace
  simp only [decide_eq_true_eq, List.mem_cons, List.not_mem_nil, or_false] at h
  rcases h with h | h | h | h | h | h | h | h | h | h <;> rw [h] <;> rfl

/-- A break ends its line, and takes at most a "\n" with it. -/
theorem splitlines_of_break {c : Char} (h : isBreak c = true) (r : List Char) :
    ∃ r', splitlines (c :: r) = [] :: splitlines r' ∧ r'.length ≤ r.length ∧ ∀ d ∈ r, isSpace d = false → d ∈ r' := by
  by_cases hr : c = '\r'
  · subst hr
    rcases r with _ | ⟨d, r⟩
    · exact ⟨[], rfl, Nat.le_refl _, fun d hd _ => hd⟩
    · by_cases hd : d = '\n'
      · subst hd
        refine ⟨r, rfl, Nat.le_succ _, fun e he hs => (List.mem_cons.mp he).resolve_left ?_⟩
        rintro rfl
        cases hs
      · exact ⟨d :: r, splitlines_cr (by simpa using hd), Nat.le_refl _, fun e he _ => he⟩
  · exact ⟨r, splitlines_break h hr r, Nat.le_refl _, fun e he _ => he⟩

/-- A line without breaks, up to the break that ends it, is read as it was written. -/
theorem splitlines_line {l r : List Char} {m : List (List Char)} (h : ∀ c ∈ l, isBreak c = false)
    (hr : splitlines r = [] :: m) : splitlines (l ++ r) = l :: m := by
  induction l with
  | nil => exact hr
  | cons c l ih =>
    rw [List.cons_append, splitlines_cons (h c (by simp)), ih fun d hd => h d (by simp [hd])]

theorem splitlines_ne_nil {cs : List Char} (h : cs ≠ []) : splitlines cs ≠ [] := by
  cases cs with
  | nil => exact absurd rfl h
  | cons c r =>
    cases hb : isBreak c with
    | false =>
      rw [splitlines_cons hb]
      cases splitlines r <;> exact List.cons_ne_nil _ _
    | true =>
      obtain ⟨r', hr', -, -⟩ := splitlines_of_break hb r
      rw [hr']
      exact List.cons_ne_nil _ _

/-- After "\n" a new line begins, whatever came before. -/
theorem splitlines_append (cs r : List Char) :
    splitlines (cs ++ '\n' :: r) = splitlines (cs ++ ['\n']) ++ splitlines r := by
  induction hn : cs.length using Nat.strongRecOn generalizing cs with
  | ind n ih =>
    subst hn
    cases cs with
    | nil => rfl
    | cons c cs =>
      have ih1 := ih cs.length (by simp) cs rfl
      rw [List.cons_append, List.cons_append]
      cases hb : isBreak c with
      | false =>
        rw [splitlines_cons hb, splitlines_cons hb, ih1]
        cases h : splitlines (cs ++ ['\n']) with
        | nil => exact absurd h (splitlines_ne_nil (by simp))
        | cons l ls => rfl
      | true =>
        by_cases hr : c = '\r'
        · subst hr
          rcases cs with _ | ⟨d, cs⟩
          · rfl
          · by_cases hd : d = '\n'
            · subst hd
              simp only [List.cons_append, splitlines, ih cs.length (by simp only [List.length_cons]; omega) cs rfl]
            · have hhead : ∀ l : List Char, (d :: cs ++ l).head? ≠ some '\n' := fun l h => hd (Option.some.inj h)
              rw [splitlines_cr (hhead _), splitlines_cr (hhead _), ih1]
              rfl
        · rw [splitlines_break hb hr, splitlines_break hb hr, ih1, List.cons_append]

/-- What is visible is on some line. -/
theorem mem_splitlines {c : Char} (hc : isSpace c = false) {cs : List Char} (h : c ∈ cs) :
    ∃ l ∈ splitlines cs, c ∈ l := by
  induction hn : cs.length using Nat.strongRecOn generalizing cs with
  | ind n ih =>
    subst hn
    cases cs with
    | nil => cases h
    | cons d cs =>
      cases hb : isBreak d with
      | false =>
        rw [splitlines_cons hb]
        rcases List.mem_cons.mp h with rfl | h
        · cases splitlines cs with
          | nil => exact ⟨[c], by simp, by simp⟩
          | cons l ls => exact ⟨c :: l, by simp, by simp⟩
        · obtain ⟨l, hl, hcl⟩ := ih cs.length (by simp) h rfl
          cases hs : splitlines cs with
          | nil =>
            rw [hs] at hl
            cases hl
          | cons k ks =>
            rw [hs] at hl
            rcases List.mem_cons.mp hl with rfl | hl
            · exact ⟨d :: l, by simp, by simp [hcl]⟩
            · exact ⟨l, by simp [hl], hcl⟩
      | true =>
        obtain ⟨r, hr, hlen, hmem⟩ := splitlines_of_break hb cs
        have hcs : c ∈ cs := (List.mem_cons.mp h).resolve_left fun he => by
          rw [he, isSpace_of_isBreak hb] at hc
          cases hc
        obtain ⟨l, hl, hcl⟩ := ih r.length (by simp; omega) (hmem c hcs hc) rfl
        exact ⟨l, by rw [hr]; simp [hl], hcl⟩

theorem nonblank_append (cs r : List Char) : nonblank (cs ++ '\n' :: r) = nonblank (cs ++ ['\n']) ++ nonblank r := by
  rw [nonblank, splitlines_append, List.filter_append]
  rfl

theorem nonblank_ne_nil {c : Char} (hc : isSpace c = false) {l : List Char} (h : c ∈ l) : nonblank l ≠ [] := by
  obtain ⟨m, hl, hcl⟩ := mem_splitlines hc h
  refine List.ne_nil_of_mem (List.mem_filter.mpr ⟨hl, ?_⟩)
  simp only [isBlank, Bool.not_eq_true', List.all_eq_false]
  exact ⟨c, hcl, by simp [hc]⟩

/-- A line written with a visible first and last character. -/
structure Visible (l : List Char) : Prop where
  first : ∀ c ∈ l.head?, isSpace c = false
  last : ∀ c ∈ l.getLast?, isSpace c = false
  nonempty : l ≠ []

theorem isBlank_eq_false {l : List Char} {c : Char} (hc : isSpace c = false) (h : c ∈ l) : isBlank l = false :=
  List.all_eq_false.mpr ⟨c, h, by simp [hc]⟩

theorem nonblank_line {l : List Char} (h : ∀ c ∈ l, isBreak c = false) (hv : Visible l) :
    nonblank (l ++ ['\n']) = [l] := by
  obtain ⟨c, l', rfl⟩ := List.exists_cons_of_ne_nil hv.nonempty
  rw [nonblank, splitlines_line (m := []) h rfl, List.filter_singleton, isBlank_eq_false (hv.first c rfl) (by simp)]
  rfl

theorem exists_first_break {l : List Char} (h : ∃ c ∈ l, isBreak c = true) :
    ∃ as c bs, l = as ++ c :: bs ∧ isBreak c = true ∧ ∀ d ∈ as, isBreak d = false := by
  induction l with
  | nil => obtain ⟨c, hc, -⟩ := h; cases hc
  | cons d l ih =>
    cases hd : isBreak d with
    | true => exact ⟨[], d, l, rfl, hd, by simp⟩
    | false =>
      obtain ⟨c, hc, hb⟩ := h
      obtain ⟨as, e, bs, rfl, he, has⟩ := ih ⟨c, (List.mem_cons.mp hc).resolve_left (by rintro rfl; simp_all), hb⟩
      refine ⟨d :: as, e, bs, rfl, he, fun f hf => ?_⟩
      rcases List.mem_cons.mp hf with rfl | hf
      · exact hd
      · exact has f hf

theorem splitlines_unbroken {l : List Char} (hne : l ≠ []) (h : ∀ c ∈ l, isBreak c = false) : splitlines l = [l] := by
  induction l with
  | nil => exact absurd rfl hne
  | cons c l ih =>
    rw [splitlines_cons (h c List.mem_cons_self)]
    rcases l with _ | ⟨d, l⟩
    · rfl
    · rw [ih (List.cons_ne_nil d l) fun e he => h e (List.mem_cons_of_mem c he)]

/-- A text is its lines one after another, each with its end but the last. -/
theorem splitlines_induct {P : List Char → List (List Char) → Prop} (nil : P [] [])
    (last : ∀ l, l ≠ [] → (∀ c ∈ l, isBreak c = false) → P l [l])
    (line : ∀ l e r, (∀ c ∈ l, isBreak c = false) → e ≠ [] → (∀ c ∈ e, isBreak c = true) → P r (splitlines r) →
      P (l ++ e ++ r) (l :: splitlines r)) (text : List Char) : P text (splitlines text) := by
  induction hn : text.length using Nat.strongRecOn generalizing text with
  | ind n ih =>
    subst hn
    by_cases hbreak : ∃ c ∈ text, isBreak c = true
    · obtain ⟨l, c, r, rfl, hc, hl⟩ := exists_first_break hbreak
      by_cases hcrlf : c = '\r' ∧ r.head? = some '\n'
      · obtain ⟨rfl, hhead⟩ := hcrlf
        obtain ⟨r, rfl⟩ : ∃ r', r = '\n' :: r' := ⟨r.tail, (List.cons_head?_tail hhead).symm⟩
        rw [splitlines_line hl (m := splitlines r) rfl]
        have := line l ['\r', '\n'] r hl (by simp) (List.all_eq_true.mp (by decide))
          (ih r.length (by simp; omega) r rfl)
        rwa [List.append_assoc] at this
      · have hsplit : splitlines (c :: r) = [] :: splitlines r := by
          by_cases hr : c = '\r'
          · subst hr
            exact splitlines_cr fun h => hcrlf ⟨rfl, h⟩
          · exact splitlines_break hc hr r
        rw [splitlines_line hl hsplit]
        have := line l [c] r hl (by simp) (by simpa using hc) (ih r.length (by simp; omega) r rfl)
        rwa [List.append_assoc] at this
    · have hclear : ∀ c ∈ text, isBreak c = false := fun c hc => by
        rcases hb : isBreak c with _ | _
        · rfl
        · exact absurd ⟨c, hc, hb⟩ hbreak
      by_cases hne : text = []
      · rw [hne]
        exact nil
      · rw [splitlines_unbroken hne hclear]
        exact last text hne hclear

/-- A break inside a line leaves something visible on both sides of it. -/
theorem two_le_nonblank {l : List Char} (h : ∃ c ∈ l, isBreak c = true) (hv : Visible l) :
    2 ≤ (nonblank (l ++ ['\n'])).length := by
  obtain ⟨as, c, bs, rfl, hc, has⟩ := exists_first_break h
  have hspace := isSpace_of_isBreak hc
  obtain ⟨a, as', rfl⟩ : ∃ a as', as = a :: as' := by
    cases as with
    | nil => exact absurd (hv.first c rfl) (by simp [hspace])
    | cons a as' => exact ⟨a, as', rfl⟩
  have ha : isSpace a = false := hv.first a rfl
  obtain ⟨b, hb, hbs⟩ : ∃ b ∈ bs, isSpace b = false := by
    rcases bs.eq_nil_or_concat with rfl | ⟨bs', b, rfl⟩
    · exact absurd (hv.last c List.getLast?_concat) (by simp [hspace])
    · have he : a :: as' ++ c :: bs'.concat b = (a :: as' ++ c :: bs') ++ [b] := by simp
      exact ⟨b, by simp, hv.last b (by rw [he]; exact List.getLast?_concat)⟩
  obtain ⟨r, hr, -, hmem⟩ := splitlines_of_break hc (bs ++ ['\n'])
  have hsplit : splitlines (a :: as' ++ c :: bs ++ ['\n']) = (a :: as') :: splitlines r := by
    rw [List.append_assoc, show c :: bs ++ ['\n'] = c :: (bs ++ ['\n']) from rfl]
    exact splitlines_line has hr
  have htail := List.length_pos_of_ne_nil (nonblank_ne_nil hbs (hmem b (by simp [hb]) hbs))
  rw [nonblank, hsplit, List.filter_cons_of_pos (by rw [isBlank_eq_false ha (by simp)]; rfl), List.length_cons]
  exact Nat.succ_le_succ htail

/-- `"\n".join(lines) + "\n"` -/
def unlines (ls : List (List Char)) : List Char := ['\n'].intercalate ls ++ ['\n']

theorem unlines_singleton (l : List Char) : unlines [l] = l ++ ['\n'] := by simp [unlines]

theorem unlines_cons_cons (l k : List Char) (ls : List (List Char)) :
    unlines (l :: k :: ls) = l ++ '\n' :: unlines (k :: ls) := by
  simp [unlines, List.intercalate]

theorem nonblank_unlines_cons_cons (l k : List Char) (ls : List (List Char)) :
    nonblank (unlines (l :: k :: ls)) = nonblank (l ++ ['\n']) ++ nonblank (unlines (k :: ls)) := by
  rw [unlines_cons_cons, nonblank_append]

/-- Lines without breaks are read as they were written. -/
theorem nonblank_unlines {ls : List (List Char)} (hne : ls ≠ []) (hv : ∀ l ∈ ls, Visible l)
    (h : ∀ l ∈ ls, ∀ c ∈ l, isBreak c = false) : nonblank (unlines ls) = ls := by
  induction ls with
  | nil => exact absurd rfl hne
  | cons l ls ih =>
    have hl := nonblank_line (h l (by simp)) (hv l (by simp))
    cases ls with
    | nil => rw [unlines_singleton, hl]
    | cons k ls =>
      rw [nonblank_unlines_cons_cons, hl, ih (by simp) (fun l hl => hv l (by simp [hl])) fun l hl => h l (by simp [hl])]
      rfl

theorem le_length_nonblank {ls : List (List Char)} (hne : ls ≠ []) (hv : ∀ l ∈ ls, Visible l) :
    ls.length ≤ (nonblank (unlines ls)).length := by
  induction ls with
  | nil => exact absurd rfl hne
  | cons l ls ih =>
    obtain ⟨c, l', rfl⟩ := List.exists_cons_of_ne_nil (hv l (by simp)).nonempty
    have hl := List.length_pos_of_ne_nil
        (nonblank_ne_nil (l := c :: l' ++ ['\n']) ((hv (c :: l') (by simp)).first c rfl) (by simp))
    cases ls with
    | nil => rw [unlines_singleton]; exact hl
    | cons k ls =>
      have := ih (by simp) fun l hl => hv l (by simp [hl])
      rw [nonblank_unlines_cons_cons, List.length_append, List.length_cons]
      omega

/-- With a break in one of them there are more. -/
theorem lt_length_nonblank {ls : List (List Char)} (hv : ∀ l ∈ ls, Visible l)
    (h : ∃ l ∈ ls, ∃ c ∈ l, isBreak c = true) : ls.length < (nonblank (unlines ls)).length := by
  induction ls with
  | nil => obtain ⟨l, hl, -⟩ := h; cases hl
  | cons l ls ih =>
    have hvl := hv l (by simp)
    cases ls with
    | nil =>
      obtain ⟨k, hk, hb⟩ := h
      rw [List.mem_singleton.mp hk] at hb
      rw [unlines_singleton]
      exact two_le_nonblank hb hvl
    | cons k ls =>
      have hvs : ∀ l ∈ k :: ls, Visible l := fun l hl => hv l (by simp [hl])
      have hle := le_length_nonblank (by simp) hvs
      rw [nonblank_unlines_cons_cons, List.length_append, List.length_cons]
      obtain ⟨m, hm, hb⟩ := h
      rcases List.mem_cons.mp hm with rfl | hm
      · have := two_le_nonblank hb hvl
        omega
      · have := ih hvs ⟨m, hm, hb⟩
        have hl := le_length_nonblank (List.cons_ne_nil l [])  (by simpa using hvl)
        rw [unlines_singleton, List.length_singleton] at hl
        omega

end Lines

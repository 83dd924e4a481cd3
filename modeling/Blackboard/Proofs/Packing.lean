import Mathlib.Data.List.Induction
import Blackboard.Lib.Matching
import Blackboard.Proofs.Chunking

/-! The words of a body through chunking. Sections, blocks, pieces and chunks are cut where one word ends
and the next begins, so each level has the words of the one above it, in their order; a piece has besides
what it carries over. -/

namespace Blackboard.Kb

open Lines Strings

/-- The pieces of a section without what each carries over from the one before. -/
def freshFrom (overlap : ℕ) : List Char → List (List Char) → List (List Char)
  | _, [] => []
  | carried, p :: ps => p.drop carried.length :: freshFrom overlap (tail p overlap) ps

def fresh (params : ChunkParams) (ps : List (List Char)) : List (List Char) := freshFrom params.overlap [] ps

/-- A piece starts with the tail of the one before. -/
def Carries (params : ChunkParams) (p q : List Char) : Prop := tail p params.overlap <+: q

def packedText (g : List (List Char × ℕ × List Char)) : List Char := "\n\n".toList.intercalate (g.map (·.2.2))

/-! Words. -/

theorem words_append_space {c : Char} (hc : isSpace c = true) (x y : List Char) :
    words (x ++ c :: y) = words x ++ words y := by
  rw [words, List.splitOnP_append_cons x y hc, List.filter_append]
  rfl

theorem words_nil : words [] = [] := by simp [words]

theorem words_blank_append {x : List Char} (hx : ∀ c ∈ x, isSpace c = true) (y : List Char) :
    words (x ++ y) = words y := by
  induction x with
  | nil => rfl
  | cons c x ih =>
    rw [List.cons_append, ← List.nil_append (c :: (x ++ y)), words_append_space (hx c List.mem_cons_self), words_nil,
      List.nil_append, ih fun d hd => hx d (List.mem_cons_of_mem c hd)]

theorem words_blank {x : List Char} (hx : ∀ c ∈ x, isSpace c = true) : words x = [] := by
  rw [← List.append_nil x, words_blank_append hx, words_nil]

theorem words_append_blank (x : List Char) {y : List Char} (hy : ∀ c ∈ y, isSpace c = true) :
    words (x ++ y) = words x := by
  rcases y with _ | ⟨c, y⟩
  · rw [List.append_nil]
  · rw [words_append_space (hy c List.mem_cons_self), words_blank fun d hd => hy d (List.mem_cons_of_mem c hd),
      List.append_nil]

theorem words_strip (text : List Char) : words (strip isSpace text) = words text := by
  obtain ⟨x, y, h, hx, hy⟩ := strip_spec isSpace text
  conv_rhs => rw [h, List.append_assoc, words_blank_append hx, words_append_blank _ hy]

theorem words_paragraphs (x y : List Char) : words (x ++ "\n\n".toList ++ y) = words x ++ words y := by
  have htail : words ("\n".toList ++ y) = words y := words_blank_append (List.all_eq_true.mp (by decide)) y
  rw [List.append_assoc, show "\n\n".toList ++ y = '\n' :: ("\n".toList ++ y) from rfl,
    words_append_space (by decide), htail]

theorem words_splitlines (text : List Char) : (splitlines text).flatMap words = words text := by
  refine splitlines_induct (P := fun text ls => ls.flatMap words = words text) ?_ ?_ ?_ text
  · rw [words_nil]
    rfl
  · intro l _ _
    simp
  · intro l e r _ hne he ih
    obtain ⟨c, e, rfl⟩ := List.exists_cons_of_ne_nil hne
    have hspace : ∀ d ∈ c :: e, isSpace d = true := fun d hd => isSpace_of_isBreak (he d hd)
    rw [List.flatMap_cons, ih, List.append_assoc, List.cons_append, words_append_space (hspace c List.mem_cons_self),
      words_blank_append fun d hd => hspace d (List.mem_cons_of_mem c hd)]

theorem words_joinLines (ls : List (List Char)) : words (joinLines ls) = ls.flatMap words := by
  induction ls with
  | nil =>
    rw [joinLines]
    exact words_nil
  | cons l ls ih =>
    rw [joinLines] at ih ⊢
    by_cases hls : ls = []
    · subst hls
      simp
    · rw [List.intercalate_cons_of_ne_nil hls, List.append_assoc, List.singleton_append,
        words_append_space (by decide), ih, List.flatMap_cons]

/-! Sections. -/

/-- What comes next starts a line. -/
def AtLine (x : List Char) : Prop := x = [] ∨ x.getLast? = some '\n'

theorem words_append_atLine {x : List Char} (hx : AtLine x) (y : List Char) : words (x ++ y) = words x ++ words y := by
  rcases hx with rfl | hx
  · rw [words_nil]
    rfl
  · obtain ⟨x, rfl⟩ := List.getLast?_eq_some_iff.mp hx
    rw [List.append_assoc, List.singleton_append, words_append_space (by decide),
      words_append_space (by decide), words_nil, List.append_nil]

/-- A heading is at a line's start, with a "#". -/
theorem takes_heading {b w a : List Char} (h : Regex.Takes HEADING b w a) : AtLine b.reverse ∧ w.head? = some '#' := by
  cases h with
  | seq hline hrest =>
    cases hline with
    | lineStart hb =>
      refine ⟨?_, ?_⟩
      · rcases b with _ | ⟨c, b⟩
        · exact .inl rfl
        · right
          have hc : c = '\n' := by simpa using hb
          rw [hc, List.reverse_cons, List.getLast?_concat]
      · cases hrest with
        | seq hmarks _ =>
          cases hmarks with
          | group hmarks =>
            cases hmarks with
            | seq hmarks _ =>
              cases hmarks with
              | seq hmark _ =>
                cases hmark with
                | char hc =>
                  obtain rfl := of_decide_eq_true hc
                  rfl

theorem consumes_heading : Regex.Consumes HEADING := by
  rintro b w a h rfl
  cases (takes_heading h).2

/-- A body by its headings: what is before the first, and each with its text. -/
structure Sectioned (body intro : List Char) (parts : List (Regex.Match × List Char)) : Prop where
  text : body = intro ++ (parts.map Prod.snd).flatten
  marks : Regex.finditer HEADING body = parts.map Prod.fst
  starts : ∀ pre s post, parts = pre ++ s :: post → AtLine (intro ++ (pre.map Prod.snd).flatten) ∧
    s.1.start = (intro ++ (pre.map Prod.snd).flatten).length ∧ s.2.head? = some '#'

theorem slices_starts {b rest : List Char} {xs : List (Char ⊕ Regex.Match)} (h : Regex.Cuts HEADING b rest xs) :
    ∀ pre s post, (Regex.slices xs).2 = pre ++ s :: post →
      AtLine (b.reverse ++ ((Regex.slices xs).1 ++ (pre.map Prod.snd).flatten)) ∧
        s.1.start = (b.reverse ++ ((Regex.slices xs).1 ++ (pre.map Prod.snd).flatten)).length ∧
        s.2.head? = some '#' := by
  induction h with
  | nil =>
    intro pre s post he
    simp [Regex.slices] at he
  | skip h hxs ih =>
    intro pre s post he
    simpa [Regex.slices] using ih pre s post he
  | @take b a xs m hne h hstart hxs ih =>
    intro pre s post he
    obtain ⟨hline, hhead⟩ := takes_heading h
    rw [Regex.slices] at he
    rcases pre with _ | ⟨q, pre⟩
    · obtain ⟨rfl, rfl⟩ := List.cons.inj he
      refine ⟨by simpa [Regex.slices] using hline, by simpa [Regex.slices] using hstart, ?_⟩
      rw [List.head?_append, hhead]
      rfl
    · obtain ⟨rfl, hrest⟩ := List.cons.inj he
      simpa [Regex.slices] using ih pre s post hrest

theorem exists_sectioned (body : List Char) : ∃ intro parts, Sectioned body intro parts := by
  have hcuts := Regex.text_cuts consumes_heading body
  refine ⟨_, _, hcuts.slices_eq, ?_, slices_starts hcuts⟩
  rw [Regex.slices_matches]
  exact Regex.finditer_eq HEADING body

/-- Cutting a body at the starts gives the parts. -/
theorem zipWith_parts {α : Type} (f : Regex.Match → List Char → α) {body : List Char}
    (parts : List (Regex.Match × List Char)) :
    ∀ before, body = before ++ (parts.map Prod.snd).flatten →
      (∀ pre s post, parts = pre ++ s :: post → s.1.start = (before ++ (pre.map Prod.snd).flatten).length) →
      List.zipWith (fun m stop => f m ((body.take stop).drop m.start)) (parts.map Prod.fst)
        (((parts.map Prod.fst).drop 1).map (·.start) ++ [body.length]) = parts.map fun s => f s.1 s.2 := by
  induction parts with
  | nil => exact fun _ _ _ => rfl
  | cons s parts ih =>
    intro before hbody hstarts
    have hstart : s.1.start = before.length := by simpa using hstarts [] s parts rfl
    have hrest := ih (before ++ s.2) (by rw [hbody]; simp) fun pre t post he => by
      rw [hstarts (s :: pre) t post (by rw [he]; rfl)]
      simp
    have hslice : (body.take (before ++ s.2).length).drop s.1.start = s.2 := by
      rw [hstart, hbody, List.map_cons, List.flatten_cons, ← List.append_assoc, List.take_left, List.drop_left]
    -- the part ends where the next starts, or with the body
    rcases parts with _ | ⟨t, parts⟩
    · have hlen : body.length = (before ++ s.2).length := by rw [hbody]; simp
      rw [hlen]
      exact congrArg (fun text => [f s.1 text]) hslice
    · have hnext : t.1.start = (before ++ s.2).length := by
        rw [hstarts [s] t parts rfl]
        simp
      simp only [List.map_cons, List.drop_one, List.tail_cons, List.cons_append, List.zipWith_cons_cons] at hrest ⊢
      rw [hnext, hslice, hrest]

theorem Sectioned.sections_eq {body intro : List Char} {parts : List (Regex.Match × List Char)}
    (h : Sectioned body intro parts) :
    sections body = (if strip isSpace intro ≠ [] then [("Overview".toList, strip isSpace intro)] else []) ++
      parts.map fun s => (s.1.group 2, strip isSpace s.2) := by
  have hparts := zipWith_parts (fun m text => (m.group 2, strip isSpace text)) parts intro h.text
    fun pre s post he => (h.starts pre s post he).2.1
  unfold sections
  dsimp only
  rw [h.marks, hparts]
  rcases parts with _ | ⟨s, parts⟩
  · have hbody : body = intro := by simpa using h.text
    rw [hbody]
    rfl
  · have hstart : s.1.start = intro.length := by simpa using (h.starts [] s parts rfl).2.1
    have hbody : body.take s.1.start = intro := by rw [hstart, h.text, List.take_left]
    simp only [List.map_cons, hbody]

theorem words_parts {body intro : List Char} {parts : List (Regex.Match × List Char)} (h : Sectioned body intro parts) :
    words body = words intro ++ parts.flatMap fun s => words s.2 := by
  have hall : ∀ post before, (∀ pre s rest, post = pre ++ s :: rest → AtLine (before ++ (pre.map Prod.snd).flatten)) →
      words (before ++ (post.map Prod.snd).flatten) = words before ++ post.flatMap fun s :
      Regex.Match × List Char => words s.2 := by
    intro post
    induction post with
    | nil => simp
    | cons s post ih =>
      intro before hline
      have hbefore : AtLine before := by simpa using hline [] s post rfl
      have hrest := ih (before ++ s.2) fun pre t rest he => by
        simpa using hline (s :: pre) t rest (by rw [he]; rfl)
      rw [List.map_cons, List.flatten_cons, ← List.append_assoc, hrest, words_append_atLine hbefore, List.flatMap_cons,
        List.append_assoc]
  rw [h.text]
  exact hall parts intro fun pre s rest he => (h.starts pre s rest he).1

theorem words_sections (body : List Char) : (sections body).flatMap (fun s => words s.2) = words body := by
  obtain ⟨intro, parts, h⟩ := exists_sectioned body
  rw [h.sections_eq, words_parts h, List.flatMap_append, List.flatMap_map]
  simp only [words_strip]
  congr 1
  split_ifs with hne
  · simp [words_strip]
  · rw [not_not] at hne
    rw [← words_strip intro, hne, words_nil]
    rfl

/-! Blocks and pieces. -/

theorem words_blocksFrom (lines : List (List Char)) : ∀ fence buf,
    (blocksFrom fence buf lines).flatMap words = buf.flatMap words ++ lines.flatMap words := by
  induction lines with
  | nil =>
    intro fence buf
    rw [blocksFrom]
    split_ifs with h
    · simp [words_joinLines]
    · simp [not_not.mp h]
  | cons line lines ih =>
    intro fence buf
    simp only [blocksFrom]
    generalize (if isFence line then !fence else fence) = fence
    generalize (!fence && (isBlank line || !fence && Regex.isMatch ITEM line) && decide (buf ≠ [])) = cut
    have hline : (if !isBlank line || fence then (if cut then [] else buf) ++ [line] else if cut then []
      else buf).flatMap words =
        (if cut then [] else buf).flatMap words ++ words line := by
      split_ifs with h
      · simp
      · simp
      -- a line that is left out has no words
      · have hblank : isBlank line = true := (by simpa using h : isBlank line = true ∧ fence = false).1
        simp [words_blank (List.all_eq_true.mp hblank)]
      · have hblank : isBlank line = true := (by simpa using h : isBlank line = true ∧ fence = false).1
        simp [words_blank (List.all_eq_true.mp hblank)]
    rw [List.flatMap_append, ih, hline, List.flatMap_cons]
    rcases cut with _ | _ <;> simp [words_joinLines]

theorem words_blocks (text : List Char) : (blocks text).flatMap words = words text := by
  rw [blocks, words_blocksFrom, words_splitlines]
  rfl

/-- A piece in the making is what it carries over and the fresh rest. -/
theorem words_splitFrom (params : ChunkParams) (blocks : List (List Char)) : ∀ carried rest,
    (freshFrom params.overlap carried (splitFrom params (carried ++ rest) blocks)).flatMap words =
      words rest ++ blocks.flatMap words := by
  induction blocks with
  | nil =>
    intro carried rest
    rw [splitFrom]
    split_ifs with h
    · simp [freshFrom]
    · simp [(List.append_eq_nil_iff.mp (not_not.mp h)).2, freshFrom, words_nil]
  | cons block blocks ih =>
    intro carried rest
    rw [splitFrom]
    split_ifs with hcut hbuf
    · have hrest := ih (tail (carried ++ rest) params.overlap) ("\n\n".toList ++ block)
      have hblock : words ("\n\n".toList ++ block) = words block :=
        words_blank_append (List.all_eq_true.mp (by decide)) block
      rw [← List.append_assoc, hblock] at hrest
      rw [freshFrom, List.drop_left, List.flatMap_cons, hrest, List.flatMap_cons]
    · have hrest := ih carried (rest ++ "\n\n".toList ++ block)
      rw [words_paragraphs, List.append_assoc rest, ← List.append_assoc carried, ← List.append_assoc] at hrest
      rw [hrest, List.flatMap_cons, List.append_assoc]
    · obtain ⟨rfl, rfl⟩ := List.append_eq_nil_iff.mp (not_not.mp hbuf)
      have hrest := ih [] block
      rw [List.nil_append] at hrest
      rw [hrest, words_nil]
      rfl

theorem words_fresh (text : List Char) (params : ChunkParams) :
    (fresh params (split text params)).flatMap words = words text := by
  unfold split
  split_ifs with h
  · simp [fresh, freshFrom]
  · have hblocks := words_splitFrom params (blocks text) [] []
    rw [words_blocks, words_nil, List.nil_append] at hblocks
    exact hblocks

theorem carries_splitFrom (params : ChunkParams) (blocks : List (List Char)) : ∀ buf,
    (splitFrom params buf blocks).IsChain (Carries params) ∧ ∀ p ∈ (splitFrom params buf blocks).head?, buf <+: p := by
  induction blocks with
  | nil =>
    intro buf
    rw [splitFrom]
    split_ifs with h
    · exact ⟨.singleton buf, by simp⟩
    · exact ⟨.nil, by simp⟩
  | cons block blocks ih =>
    intro buf
    rw [splitFrom]
    split_ifs with hcut hbuf
    · obtain ⟨hchain, hhead⟩ := ih (tail buf params.overlap ++ "\n\n".toList ++ block)
      refine ⟨?_, by simp⟩
      rcases hps : splitFrom params (tail buf params.overlap ++ "\n\n".toList ++ block) blocks with _ | ⟨p, ps⟩
      · exact .singleton buf
      · rw [hps] at hchain hhead
        have hprefix := hhead p rfl
        rw [List.append_assoc] at hprefix
        exact .cons_cons ((List.prefix_append _ _).trans hprefix) hchain
    · obtain ⟨hchain, hhead⟩ := ih (buf ++ "\n\n".toList ++ block)
      refine ⟨hchain, fun p hp => ?_⟩
      have hprefix := hhead p hp
      rw [List.append_assoc] at hprefix
      exact (List.prefix_append _ _).trans hprefix
    · rw [not_not.mp hbuf]
      exact ⟨(ih block).1, fun _ _ => List.nil_prefix⟩

theorem carries_split (text : List Char) (params : ChunkParams) : (split text params).IsChain (Carries params) := by
  unfold split
  split_ifs
  · exact .singleton text
  · exact (carries_splitFrom params (blocks text) []).1

/-! Chunks. -/

theorem headingsOf_snoc (g : List (List Char × ℕ × List Char)) (p : List Char × ℕ × List Char) :
    headingsOf (g ++ [p]) = if p.1 ∈ headingsOf g then headingsOf g else headingsOf g ++ [p.1] := by
  rw [headingsOf, List.foldl_append]
  rfl

theorem mem_headingsOf {g : List (List Char × ℕ × List Char)} {h : List Char} :
    h ∈ headingsOf g ↔ ∃ p ∈ g, p.1 = h := by
  induction g using List.reverseRecOn with
  | nil => simp [headingsOf]
  | append_singleton g p ih =>
    rw [headingsOf_snoc]
    split_ifs with hp
    · rw [ih]
      constructor
      · rintro ⟨q, hq, rfl⟩
        exact ⟨q, List.mem_append_left _ hq, rfl⟩
      · rintro ⟨q, hq, rfl⟩
        rcases List.mem_append.mp hq with hq | hq
        · exact ⟨q, hq, rfl⟩
        · obtain rfl := List.mem_singleton.mp hq
          exact ih.mp hp
    · simp [ih, eq_comm]

theorem intercalate_snoc {sep : List Char} {ls : List (List Char)} (hls : ls ≠ []) (l : List Char) :
    sep.intercalate (ls ++ [l]) = sep.intercalate ls ++ sep ++ l := by
  induction ls with
  | nil => exact absurd rfl hls
  | cons k ls ih =>
    by_cases hnil : ls = []
    · subst hnil
      simp [List.intercalate]
    · rw [List.cons_append, List.intercalate_cons_of_ne_nil (by simp), ih hnil, List.intercalate_cons_of_ne_nil hnil]
      simp only [List.append_assoc]

theorem packedText_snoc {g : List (List Char × ℕ × List Char)} (hg : g ≠ []) (p : List Char × ℕ × List Char) :
    packedText (g ++ [p]) = packedText g ++ "\n\n".toList ++ p.2.2 := by
  rw [packedText, List.map_append, List.map_singleton, intercalate_snoc (by simpa using hg)]
  rfl

/-- Chunks are the pieces in groups. -/
theorem packed_groups (params : ChunkParams) (ps : List (List Char × ℕ × List Char)) :
    ∃ groups : List (List (List Char × ℕ × List Char)), groups.flatten = ps ∧ (∀ g ∈ groups, g ≠ []) ∧
      ps.foldl (addPiece params) [] = groups.map fun g => (headingsOf g, packedText g) := by
  induction ps using List.reverseRecOn with
  | nil => exact ⟨[], rfl, by simp, rfl⟩
  | append_singleton ps p ih =>
    obtain ⟨groups, hflat, hne, hpacked⟩ := ih
    rw [List.foldl_append, List.foldl_cons, List.foldl_nil, hpacked]
    obtain ⟨heading, i, text⟩ := p
    have hnew : ∃ gs : List (List (List Char × ℕ × List Char)), gs.flatten = ps ++ [(heading, i, text)] ∧
      (∀ g ∈ gs, g ≠ []) ∧
        groups.map (fun g => (headingsOf g, packedText g)) ++ [([heading], text)] =
          gs.map fun g => (headingsOf g, packedText g) := by
      refine ⟨groups ++ [[(heading, i, text)]], by simp [hflat], ?_, by simp [headingsOf, packedText]⟩
      intro g hg
      rcases List.mem_append.mp hg with hg | hg
      · exact hne g hg
      · rw [List.mem_singleton.mp hg]
        exact List.cons_ne_nil _ _
    rcases List.eq_nil_or_concat groups with rfl | ⟨init, last, rfl⟩
    · exact hnew
    · have hlast : last ≠ [] := hne last (by simp)
      have hadd : (init ++ [last ++ [(heading, i, text)]]).flatten = ps ++ [(heading, i, text)] ∧
          ∀ g ∈ init ++ [last ++ [(heading, i, text)]], g ≠ [] := by
        refine ⟨by rw [← hflat]; simp, fun g hg => ?_⟩
        rcases List.mem_append.mp hg with hg | hg
        · exact hne g (by simp [hg])
        · rw [List.mem_singleton.mp hg]
          simp
      simp only [addPiece, List.map_append, List.map_cons, List.map_nil, List.concat_eq_append, List.getLast?_concat,
        List.dropLast_concat] at hnew ⊢
      split_ifs with hmerge hin
      · exact ⟨_, hadd.1, hadd.2, by simp [headingsOf_snoc, packedText_snoc hlast, hin]⟩
      · exact ⟨_, hadd.1, hadd.2, by simp [headingsOf_snoc, packedText_snoc hlast, hin]⟩
      · exact hnew

theorem infix_packedText {g : List (List Char × ℕ × List Char)} {p : List Char × ℕ × List Char} (hp : p ∈ g) :
    p.2.2 <:+: packedText g := by
  induction g using List.reverseRecOn with
  | nil => cases hp
  | append_singleton g q ih =>
    by_cases hg : g = []
    · subst hg
      obtain rfl := List.mem_singleton.mp hp
      exact ⟨[], [], by simp [packedText]⟩
    · rw [packedText_snoc hg]
      rcases List.mem_append.mp hp with hp | hp
      · rw [List.append_assoc]
        exact (ih hp).trans (List.prefix_append _ _).isInfix
      · rw [List.mem_singleton.mp hp]
        exact (List.suffix_append _ _).isInfix

/-- Chunks are made of the pieces in groups, in order: the headings of a group and its text. -/
theorem chunk_groups (doc : Document) (params : ChunkParams) :
    ∃ groups : List (List (List Char × ℕ × List Char)), groups.flatten = pieces doc params ∧
      chunk doc params = groups.zipIdx.map fun (g, n) =>
        { docId := doc.id, ordinal := n + 1, headings := (headingsOf g).map String.ofList,
          content := String.ofList (redact (packedText g)),
          sections := (headingsOf g).map fun h => doc.id ++ "#" ++ String.ofList (slug h) } := by
  obtain ⟨groups, hflat, -, hpacked⟩ := packed_groups params (pieces doc params)
  refine ⟨groups, hflat, ?_⟩
  rw [chunk, hpacked, List.zipIdx_map, List.map_map]
  rfl

/-- The words of the body are those of the pieces but for what they carry over; and every piece is, with
the heading of its section, in a chunk. -/
theorem chunk_keeps_words (doc : Document) (params : ChunkParams) :
    ((sections doc.body.toList).flatMap fun s => (fresh params (split s.2 params)).flatMap words) =
    words doc.body.toList ∧
    (∀ s ∈ sections doc.body.toList, (split s.2 params).IsChain (Carries params)) ∧
    ∃ groups : List (List (List Char × ℕ × List Char)), groups.flatten = pieces doc params ∧
      (chunk doc params = groups.zipIdx.map fun (g, n) =>
        { docId := doc.id, ordinal := n + 1, headings := (headingsOf g).map String.ofList,
          content := String.ofList (redact (packedText g)),
          sections := (headingsOf g).map fun h => doc.id ++ "#" ++ String.ofList (slug h) }) ∧
      ∀ s ∈ sections doc.body.toList, split s.2 params ≠ [] ∧ ∀ p ∈ (split s.2 params).zipIdx,
        ∃ g ∈ groups, (s.1, p.2, p.1) ∈ g ∧ s.1 ∈ headingsOf g ∧ p.1 <:+: packedText g := by
  obtain ⟨groups, hflat, hchunk⟩ := chunk_groups doc params
  refine ⟨?_, fun s _ => carries_split s.2 params, groups, hflat, hchunk, fun s hs => ⟨split_ne_nil s.2 params, ?_⟩⟩
  · simp only [words_fresh]
    exact words_sections doc.body.toList
  · intro p hp
    have hmem : (s.1, p.2, p.1) ∈ groups.flatten := by
      rw [hflat]
      exact List.mem_flatMap.mpr ⟨s, hs, List.mem_map.mpr ⟨p, hp, rfl⟩⟩
    obtain ⟨g, hg, hin⟩ := List.mem_flatten.mp hmem
    exact ⟨g, hg, hin, mem_headingsOf.mpr ⟨_, hin, rfl⟩, infix_packedText hin⟩

end Blackboard.Kb

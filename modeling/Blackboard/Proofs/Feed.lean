import Blackboard.Proofs.Sse
import Mathlib.Data.List.ReduceOption

/-! The events of a text that arrives in chunks against those of the text at once. The parser ends a
line at each half of a `\r\n` that is cut, and the second half is a blank line that was not there. -/

namespace Blackboard.Sse

/-- What the last character was: a `\r` may be the first half of a `\r\n`, and may end its chunk. -/
inductive After
  | other
  | cr
  | cut
deriving DecidableEq

/-- The complete lines of a text that has `none` at its cuts, after `b`. What comes out has `none`
where a cut falls inside a `\r\n`. -/
def gapsFrom (b : Text) (a : After) : List (Option Char) → List (Option Text)
  | [] => []
  | none :: s => gapsFrom b (if a = .cr then .cut else a) s
  | some c :: s =>
    if c = '\n' then
      match a with
      | .other => some b :: gapsFrom [] .other s
      | .cr => gapsFrom [] .other s
      | .cut => none :: gapsFrom [] .other s
    else if c = '\r' then some b :: gapsFrom [] .cr s
    else gapsFrom (b ++ [c]) .other s

def stream (chunks : List Text) : List (Option Char) := chunks.flatMap fun chunk => none :: chunk.map some

def gaps (chunks : List Text) : List (Option Text) := gapsFrom [] .other (stream chunks)

/-- The lines of the text by blocks, which blank lines end, and each block by the pieces between the
gaps in it. -/
structure Layout where
  blocks : List (List (List Text)) := []
  pieces : List (List Text) := []
  rest : List Text := []

def Layout.item (y : Layout) : Option Text → Layout
  | none => { y with pieces := y.pieces ++ [y.rest], rest := [] }
  | some [] => { blocks := y.blocks ++ [y.pieces ++ [y.rest]] }
  | some (c :: l) => { y with rest := y.rest ++ [c :: l] }

def layout (chunks : List Text) : Layout := (gaps chunks).foldl Layout.item {}

/-- The type of the event of a block. -/
def eventName (block : List Text) : Text :=
  if (block.filterMap (valueOf "event")).getLast?.getD [] = [] then "message".toList
  else (block.filterMap (valueOf "event")).getLast?.getD []

/-- A piece that is an event and has a gap after it is the whole event: the pieces that follow are
none, and the block has its type and its id. -/
def Intact (before : List Text) (block : List (List Text)) : Prop :=
  ∀ earlier piece later, block = earlier ++ piece :: later → later ≠ [] → IsEvent piece →
    (∀ p ∈ later, ¬ IsEvent p) ∧ IsEvent block.flatten ∧ eventName piece = eventName block.flatten ∧
      (ids (before ++ earlier.flatten ++ piece)).getLast? = (ids (before ++ block.flatten)).getLast?

/-- All the blocks are intact, and no gap follows an event in the one that has not ended. -/
def Layout.Intact (y : Layout) : Prop :=
  (∀ p ∈ y.pieces, ¬ IsEvent p) ∧
    ∀ pre block post, y.blocks = pre ++ block :: post → Sse.Intact pre.flatten.flatten block

/-! The lines of the chunks, and of the text. -/

abbrev lineOf (item : Option Text) : Text := item.getD []

theorem gapsFrom_cut (s : List (Option Char)) :
    (gapsFrom [] .cut s).map lineOf = (gapsFrom [] .other s).map lineOf := by
  induction s with
  | nil => rfl
  | cons c s ih =>
    rcases c with _ | c
    · exact ih
    · by_cases hn : c = '\n' <;> simp [gapsFrom, hn]

theorem gapsFrom_cr {s : List (Option Char)} (hs : s.head? ≠ some (some '\n')) :
    (gapsFrom [] .cr s).map lineOf = (gapsFrom [] .other s).map lineOf := by
  rcases s with _ | ⟨_ | c, s⟩
  · rfl
  · exact gapsFrom_cut s
  · have hn : c ≠ '\n' := fun h => hs (by rw [h]; rfl)
    simp [gapsFrom, hn]

theorem nextLine_append {b : Text} (hb : nextLine b = none) (t : Text) :
    nextLine (b ++ t) = (nextLine t).map fun l => (b ++ l.1, l.2) := by
  induction b with
  | nil => simp
  | cons c b ih =>
    rw [nextLine] at hb
    have hn : c ≠ '\n' := fun h => by rw [if_pos h] at hb; cases hb
    have hr : c ≠ '\r' := fun h => by rw [if_neg hn, if_pos h] at hb; cases hb
    rw [if_neg hn, if_neg hr, Option.map_eq_none_iff] at hb
    rw [List.cons_append, nextLine, if_neg hn, if_neg hr, ih hb, Option.map_map]
    rfl

theorem splitLines_clean (n : ℕ) {b : Text} (hb : nextLine b = none) : splitLines n b = ([], b) := by
  rcases n with _ | n
  · rfl
  · rw [splitLines, hb]

theorem splitLines_next {n : ℕ} {b line rest : Text} (h : nextLine b = some (line, rest)) :
    splitLines (n + 1) b = (line :: (splitLines n rest).1, (splitLines n rest).2) := by
  rw [splitLines, h]

/-- The lines that one chunk completes. -/
theorem gapsFrom_chunk {s : List (Option Char)} (hs : s.head? ≠ some (some '\n')) (k : ℕ) :
    ∀ (t b : Text) (n : ℕ), t.length ≤ k → (b ++ t).length ≤ n → nextLine b = none →
      (gapsFrom b .other (t.map some ++ s)).map lineOf =
        (splitLines n (b ++ t)).1 ++ (gapsFrom (splitLines n (b ++ t)).2 .other s).map lineOf := by
  induction k with
  | zero =>
    intro t b n ht _ hb
    obtain rfl := List.length_eq_zero_iff.mp (Nat.le_zero.mp ht)
    rw [List.append_nil, splitLines_clean n hb]
    rfl
  | succ k ih =>
    intro t b n ht hn hb
    rcases t with _ | ⟨c, t⟩
    · rw [List.append_nil, splitLines_clean n hb]
      rfl
    have hlen : (b ++ c :: t).length = b.length + t.length + 1 := by simp; omega
    have htk : t.length ≤ k := by simpa using ht
    obtain ⟨n, rfl⟩ : ∃ m, n = m + 1 := ⟨n - 1, by omega⟩
    have hblank : nextLine ([] : Text) = none := rfl
    by_cases hnl : c = '\n'
    · subst hnl
      have hnext : nextLine (b ++ '\n' :: t) = some (b, t) := by rw [nextLine_append hb]; simp [nextLine]
      have hrest := ih t [] n htk (by simpa using by omega) hblank
      rw [splitLines_next hnext]
      simpa [gapsFrom] using hrest
    by_cases hcr : c = '\r'
    · subst hcr
      rcases t with _ | ⟨d, t⟩
      · have hnext : nextLine (b ++ ['\r']) = some (b, []) := by rw [nextLine_append hb]; simp [nextLine]
        rw [splitLines_next hnext, splitLines_clean n hblank]
        simpa [gapsFrom] using gapsFrom_cr hs
      by_cases hd : d = '\n'
      · subst hd
        have hnext : nextLine (b ++ '\r' :: '\n' :: t) = some (b, t) := by rw [nextLine_append hb]; simp [nextLine]
        have hrest := ih t [] n (Nat.le_of_succ_le htk) (by simp at hlen hn ⊢; omega) hblank
        rw [splitLines_next hnext]
        simpa [gapsFrom] using hrest
      · have hnext : nextLine (b ++ '\r' :: d :: t) = some (b, d :: t) := by
          rw [nextLine_append hb]; simp [nextLine, hd]
        have hrest := ih (d :: t) [] n htk (by simp at hlen hn ⊢; omega) hblank
        have hgap := gapsFrom_cr (s := (d :: t).map some ++ s) (by simpa using hd)
        rw [splitLines_next hnext]
        simp only [List.map_cons, List.cons_append] at hgap hrest ⊢
        rw [gapsFrom, if_neg (by decide), if_pos rfl, List.map_cons, hgap, hrest]
        rfl
    · have hb' : nextLine (b ++ [c]) = none := by rw [nextLine_append hb]; simp [nextLine, hnl, hcr]
      have hrest := ih t (b ++ [c]) (n + 1) htk (by simpa using by omega) hb'
      simpa [gapsFrom, hnl, hcr] using hrest

theorem stream_head (chunks : List Text) : (stream chunks).head? ≠ some (some '\n') := by
  rcases chunks with _ | ⟨chunk, rest⟩ <;> simp [stream]

/-- A gap is a blank line to the parser. -/
theorem linesFrom_eq (chunks : List Text) :
    ∀ b, nextLine b = none → linesFrom b chunks = (gapsFrom b .other (stream chunks)).map lineOf := by
  induction chunks with
  | nil => exact fun _ _ => rfl
  | cons chunk rest ih =>
    intro b hb
    have hclean := splitLines_complete (b ++ chunk).length (b ++ chunk) (Nat.le_refl _)
    have hgaps := gapsFrom_chunk (stream_head rest) chunk.length chunk b _ (Nat.le_refl _) (Nat.le_refl _) hb
    rw [linesFrom, ih _ hclean, ← hgaps]
    rfl

theorem linesOf_eq (chunks : List Text) : linesOf chunks = (gaps chunks).map lineOf := linesFrom_eq chunks [] rfl

def After.uncut (a : After) : After := if a = .cut then .cr else a

theorem gapsFrom_reduce (s : List (Option Char)) :
    ∀ b a, (gapsFrom b a s).reduceOption = (gapsFrom b a.uncut (s.reduceOption.map some)).map lineOf := by
  induction s with
  | nil => exact fun _ _ => rfl
  | cons c s ih =>
    intro b a
    rcases c with _ | c
    · rw [gapsFrom, ih, List.reduceOption_cons_of_none]
      rcases a with _ | _ | _ <;> rfl
    · rw [List.reduceOption_cons_of_some, List.map_cons]
      unfold gapsFrom
      by_cases hn : c = '\n'
      · rcases a with _ | _ | _ <;> simp [hn, After.uncut, ih]
      · by_cases hr : c = '\r' <;> simp [hn, hr, After.uncut, ih]

theorem stream_reduce (chunks : List Text) : (stream chunks).reduceOption = chunks.flatten := by
  induction chunks with
  | nil => rfl
  | cons chunk rest ih =>
    rw [stream] at ih ⊢
    rw [List.flatMap_cons, List.cons_append, List.reduceOption_cons_of_none, List.reduceOption_append, ih]
    simp [List.reduceOption]

/-- The text at once has no gaps. -/
theorem linesOf_flatten (chunks : List Text) : linesOf [chunks.flatten] = (gaps chunks).reduceOption := by
  rw [linesOf_eq, gaps, gaps, gapsFrom_reduce, stream_reduce]
  simp [stream, gapsFrom, After.uncut]

/-! The blocks. -/

def ended (piece : List Text) : List Text := piece ++ [[]]

/-- The lines that the parser gets: each gap ends a piece with a blank one. -/
def Layout.cutLines (y : Layout) : List Text :=
  y.blocks.flatMap (·.flatMap ended) ++ y.pieces.flatMap ended ++ y.rest

def Layout.lines (y : Layout) : List Text :=
  y.blocks.flatMap (fun block => ended block.flatten) ++ y.pieces.flatten ++ y.rest

/-- Blank lines end the blocks, and none is inside. -/
structure Layout.Filled (y : Layout) : Prop where
  blocks : ∀ block ∈ y.blocks, ∀ piece ∈ block, [] ∉ piece
  pieces : ∀ piece ∈ y.pieces, [] ∉ piece
  rest : [] ∉ y.rest

theorem Layout.cutLines_item (y : Layout) (i : Option Text) : (y.item i).cutLines = y.cutLines ++ [lineOf i] := by
  rcases i with _ | _ | ⟨c, l⟩ <;> simp [Layout.item, Layout.cutLines, ended]

theorem Layout.lines_item (y : Layout) (i : Option Text) : (y.item i).lines = y.lines ++ i.toList := by
  rcases i with _ | _ | ⟨c, l⟩ <;> simp [Layout.item, Layout.lines, ended]

theorem Layout.Filled.item {y : Layout} (h : y.Filled) (i : Option Text) : (y.item i).Filled := by
  obtain ⟨hblocks, hpieces, hrest⟩ := h
  have hopen : ∀ piece ∈ y.pieces ++ [y.rest], [] ∉ piece := by
    simp only [List.mem_append, List.mem_singleton]
    rintro piece (hp | rfl)
    · exact hpieces piece hp
    · exact hrest
  rcases i with _ | _ | ⟨c, l⟩
  · exact ⟨hblocks, hopen, by simp [Layout.item]⟩
  · refine ⟨fun block hb => ?_, by simp [Layout.item], by simp [Layout.item]⟩
    simp only [Layout.item, List.mem_append, List.mem_singleton] at hb
    rcases hb with hb | rfl
    · exact hblocks block hb
    · exact hopen
  · exact ⟨hblocks, hpieces, by simp [Layout.item, hrest]⟩

theorem Layout.foldl_item (g : List (Option Text)) :
    ∀ y : Layout, y.Filled →
      (g.foldl Layout.item y).Filled ∧ (g.foldl Layout.item y).cutLines = y.cutLines ++ g.map lineOf ∧
        (g.foldl Layout.item y).lines = y.lines ++ g.reduceOption := by
  induction g with
  | nil => exact fun y hy => ⟨hy, (List.append_nil _).symm, (List.append_nil _).symm⟩
  | cons i g ih =>
    intro y hy
    obtain ⟨hfilled, hcut, hlines⟩ := ih _ (hy.item i)
    refine ⟨hfilled, ?_, ?_⟩
    · rw [List.foldl_cons, hcut, Layout.cutLines_item, List.append_assoc]
      rfl
    · rw [List.foldl_cons, hlines, Layout.lines_item, List.append_assoc]
      rcases i with _ | l
      · rw [List.reduceOption_cons_of_none]
        rfl
      · rw [List.reduceOption_cons_of_some]
        rfl

theorem layout_filled (chunks : List Text) : (layout chunks).Filled :=
  (Layout.foldl_item _ {} ⟨by simp, by simp, by simp⟩).1

theorem layout_cutLines (chunks : List Text) : (layout chunks).cutLines = linesOf chunks := by
  rw [linesOf_eq]
  exact (Layout.foldl_item _ {} ⟨by simp, by simp, by simp⟩).2.1

theorem layout_lines (chunks : List Text) : (layout chunks).lines = linesOf [chunks.flatten] := by
  rw [linesOf_flatten]
  exact (Layout.foldl_item _ {} ⟨by simp, by simp, by simp⟩).2.2

/-! The parser over a piece, a block and the blocks. -/

def retries (lines : List Text) : List Millis := lines.filterMap retryOf

theorem retries_append (as bs : List Text) : retries (as ++ bs) = retries as ++ retries bs := List.filterMap_append

/-- What a parser keeps of complete blocks with the lines `ls`. -/
def kept (ls : List Text) : SseParser :=
  { id := (ids ls).getLast?, lastId := (ids ls).getLast?, retryMs := (retries ls).getLast? }

theorem SseParser.lines_fields (ls : List Text) :
    ∀ p : SseParser, [] ∉ ls → p.lines ls =
      ({ p with
          data := p.data ++ ls.filterMap (valueOf "data")
          event := (ls.filterMap (valueOf "event")).getLast?.getD p.event
          id := (ids ls).getLast?.or p.id
          lastId := (ids ls).getLast?.or p.lastId
          retryMs := (retries ls).getLast?.or p.retryMs }, []) := by
  induction ls with
  | nil =>
    intro p _
    simp [SseParser.lines, ids, retries]
  | cons l ls ih =>
    intro p hl
    obtain ⟨hne, hls⟩ := not_or.mp (mt List.mem_cons.mpr hl)
    rw [SseParser.lines, p.line_field (Ne.symm hne), ih _ hls]
    have hlast : ∀ {α : Type} (f : Text → Option α) (b : Option α),
        ((l :: ls).filterMap f).getLast?.or b = (ls.filterMap f).getLast?.or ((f l).or b) := by
      intro α f b
      rcases h : f l with _ | v
      · simp [h]
      · rw [List.filterMap_cons_some h, List.getLast?_cons]
        rcases (ls.filterMap f).getLast? with _ | w <;> rfl
    have hdata : ((l :: ls).filterMap (valueOf "data")) = (valueOf "data" l).toList ++ ls.filterMap
        (valueOf "data") := by
      rcases h : valueOf "data" l with _ | v <;> simp [h]
    have hevent := congrArg (Option.getD · []) (hlast (valueOf "event") (some p.event))
    simp only [Option.or_some, Option.getD_some] at hevent
    simp only [ids, retries, hlast, hdata, hevent, List.append_assoc, Option.toList_none, List.append_nil]

/-- The event of a block after the lines `before`. -/
def dispatched (before block : List Text) : Option SseEvent :=
  if IsEvent block then
    some ⟨(ids (before ++ block)).getLast?, eventName block, join (block.filterMap (valueOf "data"))⟩
  else none

theorem kept_lines (before : List Text) {piece : List Text} (h : [] ∉ piece) :
    (kept before).lines (ended piece) = (kept (before ++ piece), (dispatched before piece).toList) := by
  have hids : (ids (before ++ piece)).getLast? = (ids piece).getLast?.or (ids before).getLast? := by
    rw [ids_append, List.getLast?_append]
  have hretries : (retries (before ++ piece)).getLast? = (retries piece).getLast?.or (retries before).getLast? := by
    rw [retries_append, List.getLast?_append]
  rw [ended, SseParser.lines_append, SseParser.lines_fields _ _ h]
  simp only [SseParser.lines, SseParser.line_blank, kept, dispatched, hids, hretries, List.nil_append, List.append_nil]
  by_cases he : IsEvent piece
  · have hopen : piece.filterMap (valueOf "data") ≠ [] ∨
        (piece.filterMap (valueOf "event")).getLast?.getD [] ≠ [] := he
    rw [if_pos he, if_pos hopen]
    rfl
  · have hopen : ¬ (piece.filterMap (valueOf "data") ≠ [] ∨
        (piece.filterMap (valueOf "event")).getLast?.getD [] ≠ []) := he
    rw [if_neg he, if_neg hopen]

/-- The events of a block's pieces, each ended by itself. -/
def cutEvents (before : List Text) : List (List Text) → List SseEvent
  | [] => []
  | piece :: later => (dispatched before piece).toList ++ cutEvents (before ++ piece) later

theorem kept_pieces (pieces : List (List Text)) :
    ∀ before, (∀ p ∈ pieces, [] ∉ p) →
      (kept before).lines (pieces.flatMap ended) = (kept (before ++ pieces.flatten), cutEvents before pieces) := by
  induction pieces with
  | nil =>
    intro before _
    rw [List.flatten_nil, List.append_nil]
    rfl
  | cons p pieces ih =>
    intro before h
    rw [List.flatMap_cons, SseParser.lines_append, kept_lines before (h p List.mem_cons_self),
      ih _ fun q hq => h q (List.mem_cons_of_mem p hq), List.flatten_cons, List.append_assoc]
    rfl

def blockEvents (f : List Text → List (List Text) → List SseEvent) (before : List Text) :
    List (List (List Text)) → List SseEvent
  | [] => []
  | block :: rest => f before block ++ blockEvents f (before ++ block.flatten) rest

/-- The events of a block that arrives at once. -/
def wholeEvents (before : List Text) (block : List (List Text)) : List SseEvent :=
  (dispatched before block.flatten).toList

theorem kept_blocks {close : List (List Text) → List Text} {f : List Text → List (List Text) → List SseEvent}
    (blocks : List (List (List Text)))
    (hf : ∀ block ∈ blocks, ∀ before,
      (kept before).lines (close block) = (kept (before ++ block.flatten), f before block)) :
    ∀ before, (kept before).lines (blocks.flatMap close) =
      (kept (before ++ blocks.flatten.flatten), blockEvents f before blocks) := by
  induction blocks with
  | nil =>
    intro before
    simp [SseParser.lines, blockEvents]
  | cons block blocks ih =>
    intro before
    rw [List.flatMap_cons, SseParser.lines_append, hf block List.mem_cons_self,
      ih fun b hb => hf b (List.mem_cons_of_mem block hb)]
    simp only [List.flatten_cons, List.flatten_append, List.append_assoc, blockEvents]

/-- The lines of a block that has not ended set the id and the retry time, and dispatch nothing. -/
theorem lines_rest {closed ls rest : List Text} {es : List SseEvent}
    (h : (kept []).lines closed = (kept ls, es)) (hrest : [] ∉ rest) :
    (SseParser.lines {} (closed ++ rest)).2 = es ∧
      (SseParser.lines {} (closed ++ rest)).1.lastId = (ids (ls ++ rest)).getLast? ∧
      (SseParser.lines {} (closed ++ rest)).1.retryMs = (retries (ls ++ rest)).getLast? := by
  rw [show ({} : SseParser) = kept [] from rfl, SseParser.lines_append, h, SseParser.lines_fields _ _ hrest]
  refine ⟨List.append_nil _, ?_, ?_⟩
  · rw [ids_append, List.getLast?_append]
    rfl
  · rw [retries_append, List.getLast?_append]
    rfl

theorem Layout.Filled.cut {y : Layout} (h : y.Filled) :
    (SseParser.lines {} y.cutLines).2 =
        blockEvents cutEvents [] y.blocks ++ cutEvents y.blocks.flatten.flatten y.pieces ∧
      (SseParser.lines {} y.cutLines).1.lastId =
        (ids (y.blocks.flatten.flatten ++ y.pieces.flatten ++ y.rest)).getLast? ∧
      (SseParser.lines {} y.cutLines).1.retryMs =
        (retries (y.blocks.flatten.flatten ++ y.pieces.flatten ++ y.rest)).getLast? := by
  have hblocks := kept_blocks y.blocks (fun block hb before => kept_pieces block before (h.blocks block hb)) []
  refine lines_rest ?_ h.rest
  rw [SseParser.lines_append, hblocks, List.nil_append, kept_pieces _ _ h.pieces]

theorem Layout.Filled.whole {y : Layout} (h : y.Filled) :
    (SseParser.lines {} y.lines).2 = blockEvents wholeEvents [] y.blocks ∧
      (SseParser.lines {} y.lines).1.lastId =
        (ids (y.blocks.flatten.flatten ++ y.pieces.flatten ++ y.rest)).getLast? ∧
      (SseParser.lines {} y.lines).1.retryMs =
        (retries (y.blocks.flatten.flatten ++ y.pieces.flatten ++ y.rest)).getLast? := by
  have hclear : ∀ pieces : List (List Text), (∀ p ∈ pieces, [] ∉ p) → [] ∉ pieces.flatten := by
    intro pieces hp hmem
    obtain ⟨p, hin, hnil⟩ := List.mem_flatten.mp hmem
    exact hp p hin hnil
  have hblocks := kept_blocks (f := wholeEvents) y.blocks
    (fun block hb before => kept_lines before (hclear block (h.blocks block hb))) []
  rw [List.nil_append] at hblocks
  have hopen : [] ∉ y.pieces.flatten ++ y.rest := fun hmem =>
    (List.mem_append.mp hmem).elim (hclear _ h.pieces) h.rest
  rw [Layout.lines, List.append_assoc, List.append_assoc]
  exact lines_rest hblocks hopen

/-! One block. -/

theorem IsEvent.append_iff {piece rest : List Text} (h : ¬ IsEvent piece) : IsEvent (piece ++ rest) ↔ IsEvent rest := by
  obtain ⟨hdata, hevent⟩ := not_or.mp h
  rw [not_not] at hdata hevent
  rw [IsEvent, IsEvent, List.filterMap_append, List.filterMap_append, hdata, List.nil_append, List.getLast?_append]
  rcases (rest.filterMap (valueOf "event")).getLast? with _ | v
  · rw [Option.none_or, hevent]
    rfl
  · rfl

theorem eventName_append {piece rest : List Text} (h : ¬ IsEvent piece) :
    eventName (piece ++ rest) = eventName rest := by
  obtain ⟨-, hevent⟩ := not_or.mp h
  rw [not_not] at hevent
  rw [eventName, eventName, List.filterMap_append, List.getLast?_append]
  rcases (rest.filterMap (valueOf "event")).getLast? with _ | v
  · rw [Option.none_or, hevent]
    rfl
  · rfl

theorem dispatched_append (before : List Text) {piece rest : List Text} (h : ¬ IsEvent piece) :
    dispatched before (piece ++ rest) = dispatched (before ++ piece) rest := by
  have hdata : piece.filterMap (valueOf "data") = [] := not_not.mp (not_or.mp h).1
  simp only [dispatched, IsEvent.append_iff h, eventName_append h, List.filterMap_append, hdata, List.nil_append,
    List.append_assoc]

theorem dispatched_none (before : List Text) {block : List Text} :
    dispatched before block = none ↔ ¬ IsEvent block := by
  rw [dispatched]
  by_cases h : IsEvent block <;> simp [h]

theorem dispatched_event (before : List Text) {block : List Text} (h : IsEvent block) :
    dispatched before block =
      some ⟨(ids (before ++ block)).getLast?, eventName block, join (block.filterMap (valueOf "data"))⟩ := if_pos h

theorem dispatched_some {before block : List Text} {e : SseEvent} (h : dispatched before block = some e) :
    IsEvent block ∧
      e = ⟨(ids (before ++ block)).getLast?, eventName block, join (block.filterMap (valueOf "data"))⟩ := by
  by_cases he : IsEvent block
  · exact ⟨he, Option.some.inj (h.symm.trans (dispatched_event before he))⟩
  · rw [(dispatched_none before).mpr he] at h
    cases h

theorem cutEvents_nil (pieces : List (List Text)) :
    ∀ before, cutEvents before pieces = [] ↔ ∀ p ∈ pieces, ¬ IsEvent p := by
  induction pieces with
  | nil => simp [cutEvents]
  | cons p pieces ih =>
    intro before
    rw [cutEvents, List.append_eq_nil_iff, Option.toList_eq_nil_iff, dispatched_none, ih, List.forall_mem_cons]

/-- Pieces that are no events are no event together. -/
theorem not_isEvent_flatten {pieces : List (List Text)} (h : ∀ p ∈ pieces, ¬ IsEvent p) : ¬ IsEvent pieces.flatten := by
  induction pieces with
  | nil => decide
  | cons p pieces ih =>
    rw [List.flatten_cons, IsEvent.append_iff (h p List.mem_cons_self)]
    exact ih fun q hq => h q (List.mem_cons_of_mem p hq)

theorem wholeEvents_length (before : List Text) (block : List (List Text)) :
    (wholeEvents before block).length ≤ (cutEvents before block).length := by
  by_cases h : ∀ p ∈ block, ¬ IsEvent p
  · rw [wholeEvents, (dispatched_none before).mpr (not_isEvent_flatten h)]
    exact Nat.zero_le _
  · have hne : cutEvents before block ≠ [] := fun hnil => h ((cutEvents_nil block before).mp hnil)
    refine Nat.le_trans ?_ (List.length_pos_iff.mpr hne)
    rw [wholeEvents]
    rcases dispatched before block.flatten with _ | e <;> simp

theorem Intact.cons_iff (before piece : List Text) (later : List (List Text)) :
    Intact before (piece :: later) ↔
      (later ≠ [] → IsEvent piece → (∀ p ∈ later, ¬ IsEvent p) ∧ IsEvent (piece ++ later.flatten) ∧
        eventName piece = eventName (piece ++ later.flatten) ∧
        (ids (before ++ piece)).getLast? = (ids (before ++ (piece ++ later.flatten))).getLast?) ∧
      ∀ earlier p rest, later = earlier ++ p :: rest → rest ≠ [] → IsEvent p →
        (∀ q ∈ rest, ¬ IsEvent q) ∧ IsEvent (piece ++ later.flatten) ∧
          eventName p = eventName (piece ++ later.flatten) ∧
          (ids (before ++ piece ++ earlier.flatten ++ p)).getLast? =
            (ids (before ++ (piece ++ later.flatten))).getLast? := by
  constructor
  · refine fun h => ⟨fun hne he => ?_, fun earlier p rest hl hne he => ?_⟩
    · simpa using h [] piece later rfl hne he
    · simpa using h (piece :: earlier) p rest (by rw [hl]; rfl) hne he
  · rintro ⟨hfirst, hrest⟩ earlier p rest hl hne he
    rcases earlier with _ | ⟨q, earlier⟩
    · obtain ⟨rfl, rfl⟩ := List.cons.inj hl
      simpa using hfirst hne he
    · obtain ⟨rfl, rfl⟩ := List.cons.inj hl
      simpa using hrest earlier p rest rfl hne he

/-- A block gives its one event, or none, in pieces too if and only if it is intact. -/
theorem cutEvents_iff (block : List (List Text)) :
    ∀ before, cutEvents before block = wholeEvents before block ↔ Intact before block := by
  induction block with
  | nil =>
    intro before
    refine iff_of_true ?_ fun earlier piece later h => ?_
    · rw [wholeEvents, (dispatched_none before).mpr (not_isEvent_flatten (by simp))]
      rfl
    · simp at h
  | cons piece later ih =>
    intro before
    rw [Intact.cons_iff, cutEvents, wholeEvents, List.flatten_cons]
    by_cases he : IsEvent piece
    · rcases later with _ | ⟨q, later⟩
      · simp [cutEvents]
      -- an event with a gap after it comes out alone
      have halone : (dispatched before piece).toList ++ cutEvents (before ++ piece) (q :: later) =
            (dispatched before (piece ++ (q :: later).flatten)).toList ↔
          dispatched before piece = dispatched before (piece ++ (q :: later).flatten) ∧
            cutEvents (before ++ piece) (q :: later) = [] := by
        rw [dispatched_event before he]
        rcases dispatched before (piece ++ (q :: later).flatten) with _ | e <;> simp
      rw [halone, cutEvents_nil, dispatched_event before he]
      constructor
      · rintro ⟨hsame, hnone⟩
        obtain ⟨hevent, hsome⟩ := dispatched_some hsame.symm
        refine ⟨fun _ _ => ⟨hnone, hevent, ?_, ?_⟩, fun earlier p rest hl _ hp => ?_⟩
        · exact congrArg SseEvent.event hsome
        · exact congrArg SseEvent.id hsome
        · exact absurd hp (hnone p (by rw [hl]; simp))
      · rintro ⟨hfirst, -⟩
        obtain ⟨hnone, hevent, hname, hid⟩ := hfirst (List.cons_ne_nil _ _) he
        have hdata : (q :: later).flatten.filterMap (valueOf "data") = [] :=
          not_not.mp (not_or.mp (not_isEvent_flatten hnone)).1
        refine ⟨?_, hnone⟩
        rw [dispatched_event before hevent, hname, hid, List.filterMap_append, hdata, List.append_nil]
    · have hrest := ih (before ++ piece)
      rw [wholeEvents] at hrest
      rw [(dispatched_none before).mpr he, Option.toList_none, List.nil_append, dispatched_append before he, hrest,
        IsEvent.append_iff he, eventName_append he, ← List.append_assoc]
      exact ⟨fun h => ⟨fun _ h' => absurd h' he, h⟩, fun h => h.2⟩

/-! The blocks together. No block gives fewer events in pieces, so equal events are equal in each. -/

theorem blockEvents_length (blocks : List (List (List Text))) :
    ∀ before, (blockEvents wholeEvents before blocks).length ≤ (blockEvents cutEvents before blocks).length := by
  induction blocks with
  | nil => exact fun _ => Nat.le_refl _
  | cons block blocks ih =>
    intro before
    have hblock := wholeEvents_length before block
    have hrest := ih (before ++ block.flatten)
    simp only [blockEvents, List.length_append]
    omega

theorem blockEvents_iff (blocks : List (List (List Text))) (tail : List SseEvent) :
    ∀ before, blockEvents cutEvents before blocks ++ tail = blockEvents wholeEvents before blocks ↔
      tail = [] ∧ ∀ pre block post, blocks = pre ++ block :: post → Intact (before ++ pre.flatten.flatten) block := by
  induction blocks with
  | nil =>
    intro before
    simp [blockEvents]
  | cons block blocks ih =>
    intro before
    have hsplit : blockEvents cutEvents before (block :: blocks) ++ tail =
      blockEvents wholeEvents before (block :: blocks) ↔
        cutEvents before block = wholeEvents before block ∧
          blockEvents cutEvents (before ++ block.flatten) blocks ++ tail =
            blockEvents wholeEvents (before ++ block.flatten) blocks := by
      rw [blockEvents, blockEvents, List.append_assoc]
      constructor
      · intro h
        have hblock := wholeEvents_length before block
        have hrest := blockEvents_length blocks (before ++ block.flatten)
        have hlen := congrArg List.length h
        simp only [List.length_append] at hlen
        exact List.append_inj h (by omega)
      · rintro ⟨h, h'⟩
        rw [h, h']
    rw [hsplit, cutEvents_iff, ih]
    constructor
    · rintro ⟨hblock, htail, hrest⟩
      refine ⟨htail, fun pre b post hl => ?_⟩
      rcases pre with _ | ⟨c, pre⟩
      · obtain ⟨rfl, rfl⟩ := List.cons.inj hl
        simpa using hblock
      · obtain ⟨rfl, rfl⟩ := List.cons.inj hl
        simpa using hrest pre b post rfl
    · rintro ⟨htail, hall⟩
      refine ⟨by simpa using hall [] block blocks rfl, htail, fun pre b post hl => ?_⟩
      simpa using hall (block :: pre) b post (by rw [hl]; rfl)

theorem feedAll_lines (chunks : List Text) :
    ∀ p : SseParser, (p.feedAll chunks).2 = (p.lines (linesFrom p.buffer chunks)).2 ∧
      (p.feedAll chunks).1.lastId = (p.lines (linesFrom p.buffer chunks)).1.lastId ∧
      (p.feedAll chunks).1.retryMs = (p.lines (linesFrom p.buffer chunks)).1.retryMs := by
  induction chunks with
  | nil => exact fun _ => ⟨rfl, rfl, rfl⟩
  | cons chunk rest ih =>
    intro p
    rw [linesFrom]
    rcases hsplit : splitLines (p.buffer ++ chunk).length (p.buffer ++ chunk) with ⟨ls, r⟩
    rcases hlines : p.lines ls with ⟨q, es⟩
    have hfeed : p.feed chunk = ({ q with buffer := r }, es) := by
      rw [SseParser.feed, SseParser.drain_eq, hsplit, SseParser.lines_buffer, hlines]
    obtain ⟨hevents, hlast, hretry⟩ := ih { q with buffer := r }
    rw [SseParser.lines_buffer] at hevents hlast hretry
    rw [SseParser.lines_append, hlines]
    simp only [SseParser.feedAll]
    rw [hfeed]
    exact ⟨congrArg (es ++ ·) hevents, hlast, hretry⟩

/-- The chunks give what the text at once gives if and only if no `\r\n` is cut where an event is
open that the rest of its block changes. -/
theorem feedAll_flatten_iff (chunks : List Text) :
    ((SseParser.feedAll {} chunks).2 = (SseParser.feed {} chunks.flatten).2 ∧
        (SseParser.feedAll {} chunks).1.lastId = (SseParser.feed {} chunks.flatten).1.lastId ∧
        (SseParser.feedAll {} chunks).1.retryMs = (SseParser.feed {} chunks.flatten).1.retryMs) ↔
      (layout chunks).Intact := by
  obtain ⟨hcut, hcutLast, hcutRetry⟩ := (layout_filled chunks).cut
  obtain ⟨hwhole, hwholeLast, hwholeRetry⟩ := (layout_filled chunks).whole
  rw [layout_cutLines] at hcut hcutLast hcutRetry
  rw [layout_lines] at hwhole hwholeLast hwholeRetry
  obtain ⟨hevents, hlast, hretry⟩ := feedAll_lines chunks {}
  obtain ⟨hevents', hlast', hretry'⟩ := feedAll_lines [chunks.flatten] {}
  simp only [SseParser.feedAll, List.append_nil] at hevents' hlast' hretry'
  have hall := blockEvents_iff (layout chunks).blocks
    (cutEvents (layout chunks).blocks.flatten.flatten (layout chunks).pieces) []
  rw [cutEvents_nil] at hall
  rw [hevents, hlast, hretry, hevents', hlast', hretry']
  have hsameLast := hcutLast.trans hwholeLast.symm
  have hsameRetry := hcutRetry.trans hwholeRetry.symm
  refine ⟨fun h => hall.mp (hcut.symm.trans (h.1.trans hwhole)), fun h => ⟨?_, hsameLast, hsameRetry⟩⟩
  exact hcut.trans ((hall.mpr h).trans hwhole.symm)

/-- The `\r\n` of the first of two data lines is cut. -/
theorem feedAll_two_events :
    ¬ ∀ chunks : List Text, (SseParser.feedAll {} chunks).2 = (SseParser.feed {} chunks.flatten).2 ∧
      (SseParser.feedAll {} chunks).1.lastId = (SseParser.feed {} chunks.flatten).1.lastId ∧
      (SseParser.feedAll {} chunks).1.retryMs = (SseParser.feed {} chunks.flatten).1.retryMs := by
  intro h
  have hevents := (h ["data: a\r".toList, "\ndata: b\r\n\r\n".toList]).1
  revert hevents
  decide +kernel

end Blackboard.Sse

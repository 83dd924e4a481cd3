import Blackboard.Proofs.Sse
import Blackboard.Proofs.Stream
import Blackboard.Spec.Wire

/-! The text stream carries the frames: whatever the pieces in which it arrives, the page handles
the events of a run of the stream, and a cut costs it at most the one that it was in the middle of. -/

namespace Blackboard.Stream

open Sse

/-! Lines. -/

def unlines (ls : List Text) : Text := ls.flatMap fun l => l ++ ['\n']

/-- A line without the characters that end one. -/
def OneLine (l : Text) : Prop := '\n' ∉ l ∧ '\r' ∉ l

theorem OneLine.of_shown {l : Text} (h : Json.Shown l) : OneLine l :=
  ⟨fun hc => absurd (h _ hc) (by decide), fun hc => absurd (h _ hc) (by decide)⟩

theorem nextLine_none {l : Text} (h : OneLine l) : nextLine l = none := by
  induction l with
  | nil => rfl
  | cons c l ih =>
    obtain ⟨hn, hr⟩ := h
    have hcn : c ≠ '\n' := fun hc => hn (hc ▸ List.mem_cons_self)
    have hcr : c ≠ '\r' := fun hc => hr (hc ▸ List.mem_cons_self)
    rw [nextLine, if_neg hcn, if_neg hcr,
      ih ⟨fun hc => hn (List.mem_cons_of_mem _ hc), fun hc => hr (List.mem_cons_of_mem _ hc)⟩, Option.map_none]

theorem nextLine_line {l : Text} (h : OneLine l) (rest : Text) : nextLine (l ++ '\n' :: rest) = some (l, rest) := by
  induction l with
  | nil => rfl
  | cons c l ih =>
    obtain ⟨hn, hr⟩ := h
    have hcn : c ≠ '\n' := fun hc => hn (hc ▸ List.mem_cons_self)
    have hcr : c ≠ '\r' := fun hc => hr (hc ▸ List.mem_cons_self)
    rw [List.cons_append, nextLine, if_neg hcn, if_neg hcr,
      ih ⟨fun hc => hn (List.mem_cons_of_mem _ hc), fun hc => hr (List.mem_cons_of_mem _ hc)⟩, Option.map_some]

/-- A first part of some lines holds the first of them whole. -/
theorem splitLines_part {ls : List Text} (hls : ∀ l ∈ ls, OneLine l) {a b : Text} (h : a ++ b = unlines ls) {fuel : ℕ}
    (hfuel : a.length ≤ fuel) :
    ∃ j, j ≤ ls.length ∧ (splitLines fuel a).1 = ls.take j ∧ (splitLines fuel a).2 ++ b = unlines (ls.drop j) := by
  induction ls generalizing a fuel with
  | nil =>
    obtain ⟨rfl, rfl⟩ := List.append_eq_nil_iff.mp h
    refine ⟨0, le_rfl, ?_, ?_⟩ <;> cases fuel <;> rfl
  | cons l ls ih =>
    obtain ⟨hl, hls⟩ := List.forall_mem_cons.mp hls
    have hcons : unlines (l :: ls) = l ++ '\n' :: unlines ls := by simp [unlines]
    rcases List.append_eq_append_iff.mp (h.trans hcons) with ⟨c, rfl, -⟩ | ⟨c, rfl, hc⟩
    · have hnone : nextLine a = none :=
        nextLine_none ⟨fun hc => hl.1 (List.mem_append_left _ hc), fun hc => hl.2 (List.mem_append_left _ hc)⟩
      have hsplit : splitLines fuel a = ([], a) := by
        cases fuel with
        | zero => rfl
        | succ fuel => rw [splitLines, hnone]
      exact ⟨0, Nat.zero_le _, by rw [hsplit]; rfl, by rw [hsplit]; exact h⟩
    · rcases c with _ | ⟨d, a'⟩
      · rw [List.append_nil] at h hfuel ⊢
        have hsplit : splitLines fuel l = ([], l) := by
          cases fuel with
          | zero => rfl
          | succ fuel => rw [splitLines, nextLine_none hl]
        exact ⟨0, Nat.zero_le _, by rw [hsplit]; rfl, by rw [hsplit]; exact h⟩
      · obtain ⟨rfl, hrest⟩ := List.cons.inj hc
        cases fuel with
        | zero =>
          rw [List.length_append, List.length_cons] at hfuel
          omega
        | succ fuel =>
          rw [List.length_append, List.length_cons] at hfuel
          obtain ⟨j, hj, hlines, hleft⟩ := ih hls hrest.symm (show a'.length ≤ fuel by omega)
          refine ⟨j + 1, by rw [List.length_cons]; omega, ?_, ?_⟩
          · rw [splitLines, nextLine_line hl]
            exact congrArg (l :: ·) hlines
          · rw [splitLines, nextLine_line hl]
            exact hleft

/-! What the server sends: the delay, pings and frames. -/

inductive Item
  | retry
  | ping
  | frame (f : Frame)

def fieldLine (name : String) (value : Text) : Text := name.toList ++ ':' :: ' ' :: value

def Item.lines (load : Json → Json) : Item → List Text
  | .retry => [fieldLine "retry" "2000".toList]
  | .ping => [fieldLine "" "ping".toList, []]
  | .frame f => [fieldLine "id" f.id.str, fieldLine "event" f.event.name.toList, fieldLine "data" (f.data load), []]

def Item.frame? : Item → Option Frame
  | .frame f => some f
  | _ => none

def linesOfItems (load : Json → Json) (is : List Item) : List Text := is.flatMap (Item.lines load)

def framesOf (is : List Item) : List Frame := is.filterMap Item.frame?

/-- What the page handles of a frame. -/
def Frame.sse (load : Json → Json) (f : Frame) : SseEvent := ⟨some f.id.str, f.event.name.toList, f.data load⟩

variable {load : Json → Json}

theorem unlines_append (as bs : List Text) : unlines (as ++ bs) = unlines as ++ unlines bs := List.flatMap_append

theorem retry_eq : retry = unlines (Item.retry.lines load) :=
  (by decide : retry = unlines [fieldLine "retry" "2000".toList])

theorem ping_eq : ping = unlines (Item.ping.lines load) := (by decide : ping = unlines [fieldLine "" "ping".toList, []])

theorem text_eq (f : Frame) : f.text load = unlines ((Item.frame f).lines load) := by
  change _ = unlines [fieldLine "id" f.id.str, fieldLine "event" f.event.name.toList,
    fieldLine "data" (f.data load), []]
  have hid : "id: ".toList = "id".toList ++ [':', ' '] := by decide
  have hevent : "\nevent: ".toList = '\n' :: ("event".toList ++ [':', ' ']) := by decide
  have hdata : "\ndata: ".toList = '\n' :: ("data".toList ++ [':', ' ']) := by decide
  have hend : "\n\n".toList = ['\n', '\n'] := by decide
  unfold Frame.text
  generalize f.id.str = c, f.event.name.toList = name, f.data load = text
  simp only [hid, hevent, hdata, hend, unlines, fieldLine, List.flatMap_cons, List.flatMap_nil, List.append_assoc,
    List.cons_append, List.nil_append]

theorem str_char (c : Cursor) : ∀ x ∈ c.str, x.isDigit = true ∨ x = '.' := by
  intro x hx
  simp only [Cursor.str, List.intercalate, List.intersperse, List.flatten_cons, List.flatten_nil, List.mem_append,
    List.mem_singleton, List.append_nil] at hx
  rcases hx with hx | hx | hx | hx | hx
  · exact .inl (Nat.isDigit_of_mem_toDigits (by decide) (by decide) hx)
  · exact .inr hx
  · exact .inl (Nat.isDigit_of_mem_toDigits (by decide) (by decide) hx)
  · exact .inr hx
  · exact .inl (Nat.isDigit_of_mem_toDigits (by decide) (by decide) hx)

theorem str_shown (c : Cursor) : Json.Shown c.str := fun x hx => by
  rcases str_char c x hx with h | rfl
  · exact (Json.printable_of_isDigit h).1.le
  · decide

theorem str_ne_nil (c : Cursor) : c.str ≠ [] := by
  simp [Cursor.str, List.intercalate, List.intersperse]

theorem name_oneLine (e : Event) : OneLine e.name.toList := by
  cases e
  · exact (by unfold OneLine; decide : OneLine "ready".toList)
  · exact (by unfold OneLine; decide : OneLine "audit".toList)
  · exact (by unfold OneLine; decide : OneLine "activity".toList)

theorem lines_oneLine (i : Item) : ∀ l ∈ i.lines load, OneLine l := by
  have hnil : OneLine [] := ⟨List.not_mem_nil, List.not_mem_nil⟩
  have hfield : ∀ (name : String) (value : Text), OneLine name.toList → OneLine value →
      OneLine (fieldLine name value) := by
    rintro name value ⟨hn, hr⟩ ⟨hn', hr'⟩
    constructor <;> simp [fieldLine, *]
  intro l hl
  cases i with
  | retry =>
    rw [List.mem_singleton.mp hl]
    unfold OneLine
    decide
  | ping =>
    rcases List.mem_pair.mp hl with rfl | rfl
    · unfold OneLine
      decide
    · exact hnil
  | frame f =>
    simp only [Item.lines, List.mem_cons, List.not_mem_nil, or_false] at hl
    rcases hl with rfl | rfl | rfl | rfl
    · exact hfield _ _ (by unfold OneLine; decide) (.of_shown (str_shown _))
    · exact hfield _ _ (by unfold OneLine; decide) (name_oneLine _)
    · exact hfield _ _ (by unfold OneLine; decide) (.of_shown (Json.shown_printAscii _))
    · exact hnil

theorem linesOfItems_oneLine (is : List Item) : ∀ l ∈ linesOfItems load is, OneLine l := fun l hl => by
  obtain ⟨i, -, hi⟩ := List.mem_flatMap.mp hl
  exact lines_oneLine i l hi

/-! The parser over items. -/

theorem field_fieldLine {name : String} (h : ':' ∉ name.toList) (value : Text) :
    field (fieldLine name value) = (name.toList, value) := by
  have hname : ∀ c ∈ name.toList, decide (c ≠ ':') = true := fun c hc => decide_eq_true fun he => h (he ▸ hc)
  have htake : (fieldLine name value).takeWhile (· ≠ ':') = name.toList := by
    rw [fieldLine, List.takeWhile_append_of_pos hname, List.takeWhile_cons_of_neg (by decide), List.append_nil]
  have hdrop : (fieldLine name value).dropWhile (· ≠ ':') = ':' :: ' ' :: value := by
    rw [fieldLine, List.dropWhile_append_of_pos hname, List.dropWhile_cons_of_neg (by decide)]
  unfold field
  rw [htake, hdrop]
  rfl

theorem valueOf_fieldLine {name : String} (h : ':' ∉ name.toList) (other : String) (value : Text) :
    valueOf other (fieldLine name value) = if name.toList = other.toList then some value else none := by
  rw [valueOf, field_fieldLine h]

theorem idOf_fieldLine {name : String} (h : ':' ∉ name.toList) (hid : name.toList ≠ "id".toList) (value : Text) :
    idOf (fieldLine name value) = none := by
  rw [idOf, valueOf_fieldLine h, if_neg hid, Option.filter_none]

/-- No event is open. -/
def Idle (p : SseParser) : Prop := p.data = [] ∧ p.event = []

theorem fieldLine_ne (name : String) (value : Text) : fieldLine name value ≠ [] := by
  simp [fieldLine]

theorem line_id (p : SseParser) (c : Cursor) :
    p.line (fieldLine "id" c.str) = ({ p with id := some c.str, lastId := some c.str }, none) := by
  have hcolon : ':' ∉ "id".toList := by decide
  have hnul : '\x00' ∉ c.str := fun h => absurd (str_shown c _ h) (by decide)
  have hid : idOf (fieldLine "id" c.str) = some c.str := by
    have hf := field_fieldLine hcolon c.str
    rw [idOf_eq (by rw [hf]) (by rw [hf]; exact hnul), hf]
  rw [p.line_field (fieldLine_ne _ _), hid, retryOf, valueOf_fieldLine hcolon, valueOf_fieldLine hcolon,
    valueOf_fieldLine hcolon, if_neg (by decide), if_neg (by decide), if_neg (by decide)]
  simp

theorem line_event (p : SseParser) (value : Text) :
    p.line (fieldLine "event" value) = ({ p with event := value }, none) := by
  have hcolon : ':' ∉ "event".toList := by decide
  rw [p.line_field (fieldLine_ne _ _), idOf_fieldLine hcolon (by decide), retryOf, valueOf_fieldLine hcolon,
    valueOf_fieldLine hcolon, valueOf_fieldLine hcolon, if_neg (by decide), if_pos rfl, if_neg (by decide)]
  simp

theorem line_data (p : SseParser) (value : Text) :
    p.line (fieldLine "data" value) = ({ p with data := p.data ++ [value] }, none) := by
  have hcolon : ':' ∉ "data".toList := by decide
  rw [p.line_field (fieldLine_ne _ _), idOf_fieldLine hcolon (by decide), retryOf, valueOf_fieldLine hcolon,
    valueOf_fieldLine hcolon, valueOf_fieldLine hcolon, if_pos rfl, if_neg (by decide), if_neg (by decide)]
  simp

/-- All the lines of one item, for a parser between two events. -/
theorem lines_item {p : SseParser} (hp : Idle p) (i : Item) :
    Idle (p.lines (i.lines load)).1 ∧ (p.lines (i.lines load)).2 = (i.frame?.map (Frame.sse load)).toList ∧
      (p.lines (i.lines load)).1.lastId = (i.frame?.map fun f => f.id.str).or p.lastId := by
  obtain ⟨hdata, hevent⟩ := hp
  cases i with
  | retry =>
    have hline : p.line (fieldLine "retry" "2000".toList) = ({ p with retryMs := some (.finite 2000) }, none) := by
      have hid : idOf (fieldLine "retry" "2000".toList) = none := by decide
      have hretry : retryOf (fieldLine "retry" "2000".toList) = some (.finite 2000) := by decide +kernel
      rw [p.line_field (by decide), hid, hretry, valueOf_ne (by decide), valueOf_ne (by decide)]
      simp
    simp only [Item.lines, SseParser.lines, hline]
    exact ⟨⟨hdata, hevent⟩, rfl, rfl⟩
  | ping =>
    have hline : p.line (fieldLine "" "ping".toList) = (p, none) := rfl
    simp only [Item.lines, SseParser.lines, hline, SseParser.line_blank, hdata, hevent]
    exact ⟨⟨rfl, rfl⟩, rfl, rfl⟩
  | frame f =>
    have hname : f.event.name.toList ≠ [] := by cases f.event <;> simp [Event.name]
    simp [Item.lines, SseParser.lines, line_id, line_event, line_data, SseParser.line_blank, Item.frame?, Idle,
      hdata, hevent, Frame.sse, hname, join]

theorem framesOf_cons (i : Item) (is : List Item) : framesOf (i :: is) = i.frame?.toList ++ framesOf is := by
  rw [framesOf, List.filterMap_cons]
  rcases i.frame? with _ | f <;> rfl

theorem linesOfItems_cons (i : Item) (is : List Item) :
    linesOfItems load (i :: is) = i.lines load ++ linesOfItems load is :=
  List.flatMap_cons

theorem lines_items {p : SseParser} (hp : Idle p) (is : List Item) :
    (p.lines (linesOfItems load is)).2 = (framesOf is).map (Frame.sse load) := by
  induction is generalizing p with
  | nil => rfl
  | cons i is ih =>
    obtain ⟨hidle, hevents, -⟩ := @lines_item load p hp i
    rw [linesOfItems_cons, SseParser.lines_append, ih hidle, hevents, framesOf_cons, List.map_append]
    rcases i.frame? with _ | f <;> rfl

/-- In the middle of an item nothing has come out, and its id may have been read. -/
theorem lines_within {p : SseParser} (i : Item) {m : ℕ} (hm : m < (i.lines load).length) :
    (p.lines ((i.lines load).take m)).2 = [] ∧ ((p.lines ((i.lines load).take m)).1.lastId = p.lastId ∨
      ∃ f, i.frame? = some f ∧ (p.lines ((i.lines load).take m)).1.lastId = some f.id.str) := by
  rcases m with _ | m
  · exact ⟨rfl, .inl rfl⟩
  cases i with
  | retry => exact absurd hm (by simp [Item.lines])
  | ping =>
    obtain rfl : m = 0 := Nat.lt_one_iff.mp (Nat.lt_of_succ_lt_succ hm)
    exact ⟨rfl, .inl rfl⟩
  | frame f =>
    have hm : m < 3 := Nat.lt_of_succ_lt_succ hm
    refine ⟨?_, .inr ⟨f, rfl, ?_⟩⟩ <;> interval_cases m <;>
      simp [Item.lines, SseParser.lines, line_id, line_event, line_data]

/-- After any of the lines: the frames that came out, and the last id that was read, which is that
of the last of them or of the next one. -/
theorem lines_part {p : SseParser} (hp : Idle p) (is : List Item) (m : ℕ) :
    ∃ out left, framesOf is = out ++ left ∧ (p.lines ((linesOfItems load is).take m)).2 = out.map (Frame.sse load) ∧
      ((p.lines ((linesOfItems load is).take m)).1.lastId = (out.getLast?.map fun f => f.id.str).or p.lastId ∨
        ∃ f rest, left = f :: rest ∧ (p.lines ((linesOfItems load is).take m)).1.lastId = some f.id.str) := by
  induction is generalizing p m with
  | nil => exact ⟨[], [], rfl, by rw [linesOfItems, List.flatMap_nil, List.take_nil]; rfl,
    .inl (by simp [linesOfItems, SseParser.lines])⟩
  | cons i is ih =>
    rcases Nat.lt_or_ge m (i.lines load).length with hm | hm
    · rw [linesOfItems_cons, List.take_append_of_le_length hm.le, framesOf_cons]
      obtain ⟨hnone, hid⟩ := @lines_within load p i m hm
      refine ⟨[], i.frame?.toList ++ framesOf is, rfl, hnone, ?_⟩
      rcases hid with hid | ⟨f, hf, hid⟩
      · exact .inl hid
      · exact .inr ⟨f, framesOf is, by rw [hf]; rfl, hid⟩
    · obtain ⟨hidle, hevents, hlast⟩ := @lines_item load p hp i
      obtain ⟨out, left, hsplit, hout, hid⟩ := ih hidle (m - (i.lines load).length)
      rw [linesOfItems_cons, List.take_append, List.take_of_length_le hm, SseParser.lines_append, framesOf_cons, hsplit,
        hout, hevents]
      refine ⟨i.frame?.toList ++ out, left, by rw [List.append_assoc], ?_, ?_⟩
      · rcases i.frame? with _ | f <;> rfl
      · rcases hid with hid | ⟨f, rest, hleft, hid⟩
        · refine .inl (hid.trans ?_)
          rw [hlast, List.getLast?_append]
          rcases i.frame? with _ | f <;> rcases out.getLast? with _ | g <;> rfl
        · exact .inr ⟨f, rest, hleft, hid⟩

/-! A connection. -/

/-- The connection has sent `is`, and its parser has read the first `m` lines. -/
structure Pipe.Carries (load : Json → Json) (k : Pipe) (is : List Item) (m : ℕ) : Prop where
  read : m ≤ (linesOfItems load is).length
  parser : k.parser = { (SseParser.lines {} ((linesOfItems load is).take m)).1 with buffer := k.parser.buffer }
  rest : nextLine k.parser.buffer = none
  coming : k.parser.buffer ++ k.wire = unlines ((linesOfItems load is).drop m)

variable {k : Pipe} {is : List Item} {m : ℕ}

theorem Pipe.Carries.send (h : k.Carries load is m) {cursor : Cursor} {stage : Changes}
    {polled : Option (List AuditLog.Row × ℕ)} {sent : Text} (more : List Item)
    (hsent : sent = unlines (linesOfItems load more)) :
    Pipe.Carries load { k with cursor, stage, polled, wire := k.wire ++ sent } (is ++ more) m := by
  have hlines : linesOfItems load (is ++ more) = linesOfItems load is ++ linesOfItems load more := List.flatMap_append
  refine ⟨?_, ?_, h.rest, ?_⟩
  · rw [hlines, List.length_append]
    exact h.read.trans (Nat.le_add_right _ _)
  · rw [hlines, List.take_append_of_le_length h.read]
    exact h.parser
  · rw [hlines, List.drop_append_of_le_length h.read, unlines_append, ← h.coming, hsent, List.append_assoc]

theorem Pipe.Carries.lastId (h : k.Carries load is m) :
    k.parser.lastId = (SseParser.lines {} ((linesOfItems load is).take m)).1.lastId := by
  have hparser := congrArg SseParser.lastId h.parser
  exact hparser

/-- The next characters complete some lines more. -/
theorem Pipe.Carries.arrive (h : k.Carries load is m) (size : ℕ) :
    ∃ j, (SseParser.lines {} ((linesOfItems load is).take (m + j))).2 =
        (SseParser.lines {} ((linesOfItems load is).take m)).2 ++ (k.parser.feed (k.wire.take size)).2 ∧
      Pipe.Carries load { k with wire := k.wire.drop size, parser := (k.parser.feed (k.wire.take size)).1 } is
        (m + j) := by
  have hclean : ∀ l ∈ (linesOfItems load is).drop m, OneLine l :=
    fun l hl => linesOfItems_oneLine is l (List.mem_of_mem_drop hl)
  have htext : (k.parser.buffer ++ k.wire.take size) ++ k.wire.drop size = unlines ((linesOfItems load is).drop m) := by
    rw [List.append_assoc, List.take_append_drop, h.coming]
  obtain ⟨j, hj, hlines, hleft⟩ := splitLines_part hclean htext le_rfl
  have htake : (linesOfItems load is).take (m + j) = (linesOfItems load is).take m ++
      ((linesOfItems load is).drop m).take j :=
    List.take_add
  have hfeed : k.parser.feed (k.wire.take size) =
      ({ (SseParser.lines {} ((linesOfItems load is).take (m + j))).1 with
          buffer := (splitLines (k.parser.buffer ++ k.wire.take size).length (k.parser.buffer ++ k.wire.take size)).2 },
        ((SseParser.lines {} ((linesOfItems load is).take m)).1.lines (((linesOfItems load is).drop m).take j)).2) := by
    rw [SseParser.feed, SseParser.drain_eq, hlines, h.parser]
    simp only [SseParser.lines_buffer, htake, SseParser.lines_append]
  refine ⟨j, ?_, ?_, ?_, SseParser.feed_complete _ _, ?_⟩
  · rw [hfeed, htake, SseParser.lines_append]
  · rw [List.length_drop] at hj
    have := h.read
    omega
  · simp only [hfeed]
  · rw [← List.drop_drop, ← hleft, hfeed]

/-! The page against the client of the stream. -/

/-- One connection in both: `out` came out of the parser, after the frames of earlier connections. -/
structure Linked (load : Json → Json) (start : Option Text) (s : Net) (w : World) (k : Pipe) (c : Connection)
    (is : List Item) (m : ℕ) (before out : List Frame) : Prop where
  conn : w.conn = some c
  cursor : c.cursor = k.cursor
  stage : c.stage = k.stage
  polled : c.polled = k.polled
  carries : k.Carries load is m
  sent : framesOf is = out ++ c.wire
  events : (SseParser.lines {} ((linesOfItems load is).take m)).2 = out.map (Frame.sse load)
  delivered : w.client.delivered = before ++ out
  header : s.client.header = k.parser.lastId.or ((before.getLast?.map fun f => f.id.str).or (openStream start).header)

/-- `got` are the frames that the page handled, of those delivered in the stream. -/
structure Simulates (load : Json → Json) (start : Option Text) (s : Net) (w : World) (got : List Frame) : Prop where
  audit : w.audit = s.audit
  llm : w.llm = s.llm
  tool : w.tool = s.tool
  lastId : w.client.lastId = w.client.delivered.getLast?.map fun f => f.id.str
  handed : s.client.handed = got.map (Frame.sse load)
  sub : got.Sublist w.client.delivered
  closed : s.conn = none → w.conn = none ∧ s.client.header = w.client.lastId.or (openStream start).header
  opened : ∀ k, s.conn = some k → ∃ c is m before out, Linked load start s w k c is m before out

variable {sha256 : String → String} {t : String} {n : ℕ} {start : Option Text} {s s' : Net} {w : World}
  {got : List Frame}
  {before out : List Frame} {c : Connection}

/-- A run of `deliver` over the first frames of the wire. -/
theorem deliver_run (hw : w.conn = some c) {fs rest : List Frame} (hwire : c.wire = fs ++ rest) :
    Runs.run (step sha256 t n) w (fs.map fun _ => .deliver) = some { w with
      conn := some { c with wire := rest }
      client := { w.client with
        lastId := (fs.getLast?.map fun f => f.id.str).or w.client.lastId
        delivered := w.client.delivered ++ fs } } := by
  induction fs generalizing w c with
  | nil =>
    obtain rfl : c.wire = rest := hwire
    simp [← hw]
  | cons f fs ih =>
    have hstep : step sha256 t n w .deliver = some { w with
        conn := some { c with wire := fs ++ rest }
        client := { w.client with lastId := some f.id.str, delivered := w.client.delivered ++ [f] } } := by
      simp only [step, hw, Option.bind_some, World.deliver, hwire, List.cons_append]
    refine (Runs.run_cons_eq_some _).mpr ⟨_, hstep, ?_⟩
    rw [ih rfl rfl]
    simp only [List.append_assoc, List.singleton_append, List.getLast?_cons, Option.map_some, Option.some_or]
    rcases fs.getLast? with _ | g <;> rfl

theorem write_step (ha : w.audit = s.audit) (hl : w.llm = s.llm) (ht : w.tool = s.tool) {op : Write} {x : World}
    (h : step sha256 t n s.tables op.op = some x) :
    step sha256 t n w op.op = some { w with audit := x.audit, llm := x.llm, tool := x.tool } := by
  obtain ⟨a, l, m, k, d⟩ := w
  obtain rfl : a = s.audit := ha
  obtain rfl : l = s.llm := hl
  obtain rfl : m = s.tool := ht
  cases op with
  | audit op =>
    obtain ⟨a', ha', rfl⟩ := Option.map_eq_some_iff.mp h
    exact Option.map_eq_some_iff.mpr ⟨a', ha', rfl⟩
  | insert kind tenantId incidentId agent =>
    obtain rfl := Option.some.inj h
    cases kind <;> rfl
  | commit kind id =>
    obtain ⟨calls, hcalls, rfl⟩ := Option.map_eq_some_iff.mp h
    refine Option.map_eq_some_iff.mpr ⟨calls, ?_, ?_⟩ <;> cases kind
    · exact hcalls
    · exact hcalls
    · rfl
    · rfl
  | rollback kind id =>
    obtain rfl := Option.some.inj h
    cases kind <;> rfl

/-- The statements of `changes` do not look at the client, and send after what was sent. -/
theorem poll_eq (ha : w.audit = s.audit) (hl : w.llm = s.llm) (ht : w.tool = s.tool) (c : Connection) :
    w.poll t n c = { s.tables.poll t n { c with wire := [] } with
      wire := c.wire ++ (s.tables.poll t n { c with wire := [] }).wire } := by
  obtain ⟨a, l, m, k, d⟩ := w
  obtain rfl : a = s.audit := ha
  obtain rfl : l = s.llm := hl
  obtain rfl : m = s.tool := ht
  rcases hs : c.stage with _ | rs | ⟨rs, llm, held⟩ <;> simp [World.poll, hs, Net.tables, World.auditRows]

/-- All that was sent has arrived, so all its frames have come out. -/
theorem Linked.arrived (h : Linked load start s w k c is m before out) (hwire : k.wire = []) : c.wire = [] := by
  have hread : (linesOfItems load is).drop m = [] := by
    have hcoming := h.carries.coming
    rw [hwire, List.append_nil] at hcoming
    rcases hd : (linesOfItems load is).drop m with _ | ⟨l, ls⟩
    · rfl
    · have hl : OneLine l := linesOfItems_oneLine is l (List.mem_of_mem_drop (hd ▸ List.mem_cons_self))
      have hline : k.parser.buffer = l ++ '\n' :: unlines ls := by
        rw [hcoming, hd]
        simp [unlines]
      have hrest := h.carries.rest
      rw [hline, nextLine_line hl] at hrest
      cases hrest
  have hevents := h.events
  rw [List.take_of_length_le (List.drop_eq_nil_iff.mp hread), lines_items ⟨rfl, rfl⟩, h.sent] at hevents
  have hlen := congrArg List.length hevents
  simp only [List.length_map, List.length_append] at hlen
  exact List.length_eq_zero_iff.mp (by omega)

/-- What the page would send is the last id it has, and else what it sent before. -/
theorem Linked.lastId (h : Linked load start s w k c is m before out)
    (hw : w.client.lastId = w.client.delivered.getLast?.map fun f => f.id.str) :
    s.client.header = w.client.lastId.or (openStream start).header ∨ ∃ f rest, c.wire = f :: rest ∧
    s.client.header = some f.id.str := by
  obtain ⟨out', left, hsplit, hevents, hid⟩ := @lines_part load {} ⟨rfl, rfl⟩ is m
  have hlen : out.length = out'.length := by
    have := congrArg List.length (h.events.symm.trans hevents)
    simpa only [List.length_map] using this
  obtain ⟨rfl, rfl⟩ := List.append_inj (h.sent.symm.trans hsplit) hlen
  rw [h.header, h.carries.lastId, hw, h.delivered, List.getLast?_append]
  rcases hid with hid | ⟨f, rest, hwire, hid⟩
  · left
    rw [hid]
    rcases out.getLast? with _ | f <;> rcases before.getLast? with _ | g <;> rfl
  · right
    exact ⟨f, rest, hwire, by rw [hid]; rfl⟩

/-- Text arrives: what comes out of the parser is delivered. -/
theorem Linked.arrive (h : Linked load start s w k c is m before out) (size : ℕ) :
    ∃ fs rest j, c.wire = fs ++ rest ∧ (k.parser.feed (k.wire.take size)).2 = fs.map (Frame.sse load) ∧
      ∀ w', w'.conn = some { c with wire := rest } → w'.client.delivered = w.client.delivered ++ fs →
        Linked load start (s.arrive size k) w'
          { k with wire := k.wire.drop size, parser := (k.parser.feed (k.wire.take size)).1 }
            { c with wire := rest } is (m + j)
          before (out ++ fs) := by
  obtain ⟨j, hevents, hcarries⟩ := h.carries.arrive size
  obtain ⟨out', left, hsplit, hout', hid⟩ := @lines_part load {} ⟨rfl, rfl⟩ is (m + j)
  have hnew : out'.map (Frame.sse load) = out.map (Frame.sse load) ++ (k.parser.feed (k.wire.take size)).2 := by
    rw [← hout', hevents, h.events]
  have hle : out.length ≤ out'.length := by
    have := congrArg List.length hnew
    simp only [List.length_map, List.length_append] at this
    omega
  obtain ⟨fs, rfl⟩ : out <+: out' :=
    List.prefix_of_prefix_length_le (h.sent ▸ List.prefix_append _ _) (hsplit ▸ List.prefix_append _ _) hle
  rw [List.append_assoc, h.sent] at hsplit
  have hwire := List.append_cancel_left hsplit
  rw [List.map_append] at hnew
  refine ⟨fs, left, j, hwire, (List.append_cancel_left hnew).symm, fun w' hconn hdelivered => ?_⟩
  refine ⟨hconn, h.cursor, h.stage, h.polled, hcarries, ?_, hout',
    by rw [hdelivered, h.delivered, List.append_assoc], ?_⟩
  · rw [h.sent, hwire, List.append_assoc]
  · -- Ids are not empty, and the parser does not forget the last one.
    have hparser : (k.parser.feed (k.wire.take size)).1.lastId =
        (SseParser.lines {} ((linesOfItems load is).take (m + j))).1.lastId :=
      hcarries.lastId
    have hne : ∀ v, (k.parser.feed (k.wire.take size)).1.lastId = some v → v ≠ [] := by
      intro v hv
      rw [hparser] at hv
      rcases hid with hid | ⟨f, rest, -, hid⟩
      · rw [hid, Option.or_none] at hv
        obtain ⟨f, -, rfl⟩ := Option.map_eq_some_iff.mp hv
        exact str_ne_nil _
      · rw [hid] at hv
        exact Option.some.inj hv ▸ str_ne_nil _
    have hlast : (s.arrive size k).client.lastId = (k.parser.feed (k.wire.take size)).1.lastId.or s.client.lastId := by
      change (if truthy (k.parser.feed (k.wire.take size)).1.lastId then _ else _) = _
      rcases hv : (k.parser.feed (k.wire.take size)).1.lastId with _ | v
      · rfl
      · rw [if_pos (by simpa [truthy] using hne v hv), Option.some_or]
        exact hv
    rw [header_or hlast hne, h.header]
    rcases hv : (k.parser.feed (k.wire.take size)).1.lastId with _ | v
    · have hnone : k.parser.lastId = none := by
        rw [hparser, (parser_holds _).lastId, List.take_add, ids_append, List.getLast?_eq_none_iff] at hv
        rw [h.carries.lastId, (parser_holds _).lastId, (List.append_eq_nil_iff.mp hv).1]
        rfl
      rw [hnone]
      rfl
    · rfl

/-- A cut may cost the page a frame, unless the page would resume from what it handled. -/
def Net.Op.isCut : Net.Op → Bool
  | .cut _ => true
  | _ => false

/-- A step that costs the page nothing: a cut finds it holding the id of the last event it handled. -/
def Calm (start : Option Text) (s : Net) (op : Net.Op) : Prop := op.isCut = true → Resumes start s.client

/-- What a step of the net does in the stream: what is delivered is handled, but for one frame at a cut. -/
structure Follows (sha256 : String → String) (load : Json → Json) (t : String) (n : ℕ) (start : Option Text)
    (s s' : Net) (w : World) (got : List Frame) (op : Net.Op) (ops : List Op) (w' : World) (got' : List Frame) :
    Prop where
  run : Runs.run (step sha256 t n) w ops = some w'
  after : Simulates load start s' w' got'
  lost : w'.client.delivered.length + got.length ≤ w.client.delivered.length + got'.length + if op.isCut then 1 else 0
  calm : got = w.client.delivered → Calm start s op → got' = w'.client.delivered

/-- Steps that deliver nothing. -/
theorem Follows.still {op : Net.Op} {ops : List Op} {w' : World} (hrun : Runs.run (step sha256 t n) w ops = some w')
    (hafter : Simulates load start s' w' got) (hclient : w'.client.delivered = w.client.delivered) :
    Follows sha256 load t n start s s' w got op ops w' got :=
  ⟨hrun, hafter, by rw [hclient]; omega, fun h _ => h.trans hclient.symm⟩

theorem Simulates.write (h : Simulates load start s w got) {op : Write}
    (hstep : Net.step sha256 load t n s (.write op) = some s') :
    ∃ ops w' got', Follows sha256 load t n start s s' w got (.write op) ops w' got' := by
  obtain ⟨x, hx, rfl⟩ := Option.map_eq_some_iff.mp hstep
  refine ⟨[op.op], _, got, .still ((Runs.run_cons_eq_some _).mpr ⟨_, write_step h.audit h.llm h.tool hx, rfl⟩) ?_ rfl⟩
  refine ⟨rfl, rfl, rfl, h.lastId, h.handed, h.sub, h.closed, fun k hk => ?_⟩
  obtain ⟨c, is, m, before, out, hl⟩ := h.opened k hk
  exact ⟨c, is, m, before, out, hl.conn, hl.cursor, hl.stage, hl.polled, hl.carries, hl.sent, hl.events,
    hl.delivered, hl.header⟩

theorem Simulates.refused (h : Simulates load start s w got) (hstep : Net.step sha256 load t n s .refused = some s') :
    ∃ ops w' got', Follows sha256 load t n start s s' w got .refused ops w' got' := by
  simp only [Net.step] at hstep
  split_ifs at hstep with hconn
  obtain rfl := Option.some.inj hstep
  have hnone : s.conn = none := by simpa using hconn
  refine ⟨[], w, got, .still rfl ?_ rfl⟩
  exact ⟨h.audit, h.llm, h.tool, h.lastId, h.handed, h.sub, h.closed,
    fun k hk => by rw [Net.failed, hnone] at hk; cases hk⟩

theorem Simulates.connect (h : Simulates load start s w got) (hstep : Net.step sha256 load t n s .connect = some s') :
    ∃ ops w' got', Follows sha256 load t n start s s' w got .connect ops w' got' := by
  simp only [Net.step] at hstep
  split_ifs at hstep with hconn
  obtain rfl := Option.some.inj hstep
  obtain ⟨hwconn, hheader⟩ := h.closed (by simpa using hconn)
  have hstart : (Cursor.parse (w.client.lastId <|> (openStream start).header)).getD (w.now t) =
      (Cursor.parse s.client.header).getD (s.tables.now t) := by
    have hnow : w.now t = s.tables.now t := by
      unfold World.now Net.tables
      rw [h.audit, h.llm, h.tool]
    rw [hheader, hnow]
    rcases w.client.lastId with _ | v <;> rfl
  obtain ⟨cursor, hcursor⟩ : ∃ cursor, cursor = (Cursor.parse s.client.header).getD (s.tables.now t) := ⟨_, rfl⟩
  rw [← hcursor] at hstart
  have hclient : (w.connect t (openStream start).header).client.delivered = w.client.delivered ∧
      (w.connect t (openStream start).header).client.lastId = w.client.lastId := by
    unfold World.connect
    split_ifs <;> exact ⟨rfl, rfl⟩
  have hcarries : Pipe.Carries load { cursor, wire := retry ++ Frame.text load { event := .ready, id := cursor } }
      [.retry, .frame { event := .ready, id := cursor }] 0 := by
    refine ⟨Nat.zero_le _, rfl, rfl, ?_⟩
    rw [@retry_eq load, text_eq, ← unlines_append]
    rfl
  have hstep : step sha256 t n w (.connect (openStream start).header) =
      some (w.connect t (openStream start).header) := by
    simp only [step, hwconn]
    rfl
  refine ⟨[.connect (openStream start).header], _, got,
    .still ((Runs.run_cons_eq_some _).mpr ⟨_, hstep, rfl⟩) ?_ hclient.1⟩
  refine ⟨h.audit, h.llm, h.tool, by rw [hclient.2, hclient.1]; exact h.lastId, h.handed, hclient.1 ▸ h.sub,
    fun hk => (by cases hk), fun k hk => ?_⟩
  obtain rfl := Option.some.inj hk
  refine ⟨_, [.retry, .frame { event := .ready, id := cursor }], 0, w.client.delivered, [],
    (show (w.connect t (openStream start).header).conn = some { cursor, wire := [{ event := .ready, id := cursor }] } by
      rw [World.connect, hstart]), hcursor, rfl, rfl, hcursor ▸ hcarries, rfl, rfl,
      by rw [hclient.1, List.append_nil], ?_⟩
  change s.client.header = _
  rw [hheader, h.lastId]
  rfl

/-- What a poll sends is items; a ping is one without a frame. -/
theorem sent_items (load : Json → Json) (t : String) (n : ℕ) (s : Net) (quiet : Bool) (k : Pipe) :
    let next := s.tables.poll t n { cursor := k.cursor, stage := k.stage, wire := [], polled := k.polled }
    ∃ more, framesOf more = next.wire ∧ s.poll load t n quiet k =
      { k with cursor := next.cursor, stage := next.stage, polled := next.polled,
               wire := k.wire ++ unlines (linesOfItems load more) } := by
  intro next
  have htexts : next.wire.flatMap (Frame.text load) = unlines (linesOfItems load (next.wire.map .frame)) := by
    induction next.wire with
    | nil => rfl
    | cons f fs ih => rw [List.flatMap_cons, ih, List.map_cons, linesOfItems_cons, unlines_append, text_eq]
  have hframes : framesOf (next.wire.map .frame) = next.wire := by
    rw [framesOf, List.filterMap_map]
    exact List.filterMap_some
  have happend : ∀ as bs, framesOf (as ++ bs) = framesOf as ++ framesOf bs ∧
      unlines (linesOfItems load (as ++ bs)) =
        unlines (linesOfItems load as) ++ unlines (linesOfItems load bs) := fun as bs =>
    ⟨List.filterMap_append, by rw [linesOfItems, List.flatMap_append, unlines_append]; rfl⟩
  refine ⟨next.wire.map .frame ++ if k.stage.last && next.wire.isEmpty && quiet then [.ping] else [], ?_, ?_⟩
  · rw [(happend _ _).1, hframes]
    split_ifs <;> exact List.append_nil _
  · have hping : (if k.stage.last && next.wire.isEmpty && quiet then ping else []) =
        unlines (linesOfItems load (if k.stage.last && next.wire.isEmpty && quiet then [.ping] else [])) := by
      split_ifs
      · exact @ping_eq load
      · rfl
    rw [(happend _ _).2, ← htexts, ← hping]
    rfl

theorem Simulates.poll (h : Simulates load start s w got) {quiet : Bool}
    (hstep : Net.step sha256 load t n s (.poll quiet) = some s') :
    ∃ ops w' got', Follows sha256 load t n start s s' w got (.poll quiet) ops w' got' := by
  obtain ⟨k, hk, rfl⟩ := Option.map_eq_some_iff.mp hstep
  obtain ⟨c, is, m, before, out, hl⟩ := h.opened k hk
  have hpoll := poll_eq (t := t) (n := n) h.audit h.llm h.tool c
  have hsame : { c with wire := [] } =
      ({ cursor := k.cursor, stage := k.stage, wire := [], polled := k.polled } : Connection) := by
    rw [hl.cursor, hl.stage, hl.polled]
  rw [hsame] at hpoll
  obtain ⟨next, hnext⟩ : ∃ next, next = s.tables.poll t n { cursor := k.cursor, stage := k.stage, wire := [],
                                                            polled := k.polled } :=
    ⟨_, rfl⟩
  rw [← hnext] at hpoll
  obtain ⟨more, hsent, hmore⟩ := sent_items load t n s quiet k
  rw [← hnext] at hsent hmore
  have hwstep : step sha256 t n w .poll = some { w with conn := some (w.poll t n c) } := by
    simp only [step, hl.conn, Option.map_some]
  refine ⟨[.poll], _, got, .still ((Runs.run_cons_eq_some _).mpr ⟨_, hwstep, rfl⟩) ?_ rfl⟩
  refine ⟨h.audit, h.llm, h.tool, h.lastId, h.handed, h.sub, fun hno => (by cases hno), fun k' hk' => ?_⟩
  obtain rfl := Option.some.inj hk'
  rw [hmore]
  refine ⟨_, is ++ more, m, before, out, rfl, by rw [hpoll], by rw [hpoll], by rw [hpoll], hl.carries.send more rfl, ?_,
    ?_, hl.delivered, hl.header⟩
  · rw [hpoll, framesOf, List.filterMap_append]
    change framesOf is ++ framesOf more = _
    rw [hl.sent, hsent, List.append_assoc]
  · have hlines : linesOfItems load (is ++ more) = linesOfItems load is ++ linesOfItems load more := List.flatMap_append
    rw [hlines, List.take_append_of_le_length hl.carries.read]
    exact hl.events

theorem Simulates.arrive (h : Simulates load start s w got) {size : ℕ}
    (hstep : Net.step sha256 load t n s (.arrive size) = some s') :
    ∃ ops w' got', Follows sha256 load t n start s s' w got (.arrive size) ops w' got' := by
  obtain ⟨k, hk, rfl⟩ := Option.map_eq_some_iff.mp hstep
  obtain ⟨c, is, m, before, out, hl⟩ := h.opened k hk
  obtain ⟨fs, rest, j, hwire, hevents, hlinked⟩ := hl.arrive size
  refine ⟨_, _, got ++ fs, deliver_run hl.conn hwire, ?_, ?_, fun hall _ => by rw [hall]⟩
  · refine ⟨h.audit, h.llm, h.tool, ?_, ?_, h.sub.append (List.Sublist.refl fs), fun hno => (by cases hno),
      fun k' hk' => ?_⟩
    · simp only [h.lastId, List.getLast?_append]
      rcases fs.getLast? with _ | f <;> rfl
    · change s.client.handed ++ (k.parser.feed (k.wire.take size)).2 = _
      rw [h.handed, hevents, List.map_append]
    · obtain rfl := Option.some.inj hk'
      exact ⟨_, is, m + j, before, out ++ fs, hlinked _ rfl rfl⟩
  · simp only [List.length_append]
    omega

theorem Simulates.cut (h : Simulates load start s w got) {broken : Bool}
    (hstep : Net.step sha256 load t n s (.cut broken) = some s') :
    ∃ ops w' got', Follows sha256 load t n start s s' w got (.cut broken) ops w' got' := by
  obtain ⟨k, hk, rfl⟩ := Option.map_eq_some_iff.mp hstep
  obtain ⟨c, is, m, before, out, hl⟩ := h.opened k hk
  obtain ⟨s', hs'⟩ : ∃ s' : Net, s' = if broken then Net.failed { s with conn := none } else { s with conn := none } :=
    ⟨_, rfl⟩
  have hsame : s'.conn = none ∧ s'.audit = s.audit ∧ s'.llm = s.llm ∧ s'.tool = s.tool ∧
    s'.client.handed = s.client.handed ∧
      s'.client.header = s.client.header := by
    rw [hs']
    cases broken <;> exact ⟨rfl, rfl, rfl, rfl, rfl, rfl⟩
  obtain ⟨hconn, haudit, hllm, htool, hhanded, hheader⟩ := hsame
  have hended : ∀ w' : World, w'.audit = w.audit → w'.llm = w.llm → w'.tool = w.tool → w'.conn = none →
      w'.client.lastId = w'.client.delivered.getLast?.map (fun f => f.id.str) → got.Sublist w'.client.delivered →
      s.client.header = w'.client.lastId.or (openStream start).header → Simulates load start s' w' got := by
    intro w' ha hl' ht hc hlast hsub hhead
    exact ⟨ha.trans (h.audit.trans haudit.symm), hl'.trans (h.llm.trans hllm.symm),
      ht.trans (h.tool.trans htool.symm), hlast, hhanded.trans h.handed, hsub, fun _ => ⟨hc, hheader.trans hhead⟩,
      fun k' hk' => by rw [hconn] at hk'; cases hk'⟩
  have hcut : ∀ w' : World, w'.conn ≠ none → step sha256 t n w' .cut = some { w' with conn := none } := by
    intro w' hw'
    obtain ⟨c', hc'⟩ := Option.ne_none_iff_exists'.mp hw'
    simp only [step, hc', Option.map_some]
  simp only [← hs']
  by_cases hheld : s.client.header = w.client.lastId.or (openStream start).header
  · refine ⟨[.cut], { w with conn := none }, got, .still ?_ ?_ rfl⟩
    · exact (Runs.run_cons_eq_some _).mpr ⟨_, hcut w (by rw [hl.conn]; simp), rfl⟩
    · exact hended { w with conn := none } rfl rfl rfl rfl h.lastId h.sub hheld
  -- The next frame is lost: its id was read, and it is not.
  obtain ⟨f, rest, hwire, hnext⟩ := (hl.lastId h.lastId).resolve_left hheld
  have hdeliver : Runs.run (step sha256 t n) w [.deliver] = some { w with
      conn := some { c with wire := rest }
      client := { w.client with lastId := some f.id.str, delivered := w.client.delivered ++ [f] } } :=
    @deliver_run sha256 t n w c hl.conn [f] rest hwire
  refine ⟨[Op.deliver] ++ [.cut],
    { w with conn := none,
             client := { w.client with lastId := some f.id.str, delivered := w.client.delivered ++ [f] } },
    got, (Runs.run_append _).mpr ⟨_, hdeliver, ?_⟩, hended _ rfl rfl rfl rfl ?_ ?_ ?_, ?_,
      fun hall hcalm => absurd ?_ hheld⟩
  · exact (Runs.run_cons_eq_some _).mpr ⟨_, hcut _ (by simp), rfl⟩
  · simp
  · exact h.sub.trans (List.sublist_append_left _ _)
  · exact hnext
  · simp only [List.length_append, List.length_singleton, Net.Op.isCut, if_true]
    omega
  · have hresumes : s.client.header = handledId start s.client.handed := hcalm rfl
    rw [hresumes, handledId, h.handed, hall, h.lastId, List.getLast?_map]
    rcases w.client.delivered.getLast? with _ | g <;> rfl

end Blackboard.Stream

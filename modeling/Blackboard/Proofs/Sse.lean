import Blackboard.Spec.Sse
import Mathlib.Data.List.Induction

/-! The id a client resumes from against the last event it handled, in terms of the lines that
arrived. -/

namespace Blackboard.Sse

/-! The text. Its lines depend on the chunks: a `\r\n` that is split between two ends two lines. -/

/-- The complete lines of a buffer, and the rest. -/
def splitLines : ℕ → Text → List Text × Text
  | 0, b => ([], b)
  | n + 1, b =>
    match nextLine b with
    | none => ([], b)
    | some (line, rest) => (line :: (splitLines n rest).1, (splitLines n rest).2)

/-- The lines that the chunks complete, after `b`. -/
def linesFrom (b : Text) : List Text → List Text
  | [] => []
  | chunk :: rest =>
    (splitLines (b ++ chunk).length (b ++ chunk)).1 ++ linesFrom (splitLines (b ++ chunk).length (b ++ chunk)).2 rest

def linesOf (chunks : List Text) : List Text := linesFrom [] chunks

/-- The value of a line of the field `name`; comments have the empty one. -/
def valueOf (name : String) (line : Text) : Option Text :=
  if (field line).1 = name.toList then some (field line).2 else none

def idOf (line : Text) : Option Text := (valueOf "id" line).filter fun v => '\x00' ∉ v

def ids (lines : List Text) : List Text := lines.filterMap idOf

/-- Lines between two blank ones are an event if they hold data or name it. -/
def IsEvent (block : List Text) : Prop :=
  block.filterMap (valueOf "data") ≠ [] ∨ (block.filterMap (valueOf "event")).getLast?.getD [] ≠ []

instance (block : List Text) : Decidable (IsEvent block) := instDecidableOr

/-- Lines read so far: the complete events, the lines after the last of them, and the lines after
the last blank one. -/
structure Reading where
  events : List (List Text) := []
  since : List Text := []
  block : List Text := []

def Reading.line (r : Reading) (line : Text) : Reading :=
  if line = [] then
    if IsEvent r.block then { events := r.events ++ [r.block] } else { r with block := [] }
  else { r with since := r.since ++ [line], block := r.block ++ [line] }

def reading (lines : List Text) : Reading := lines.foldl Reading.line {}

/-- The id of the last complete event, or else the one that the connection resumed from. -/
def lastEventId (resume : Option Text) (r : Reading) : Option Text :=
  match r.events.getLast? with
  | some b => (ids b).getLast?
  | none => resume

/-- No id but the last event's has arrived after that event. -/
def Settled (resume : Option Text) : Response → Prop
  | .failed => True
  | .body chunks _ => ∀ v, (ids (reading (linesOf chunks)).since).getLast? = some v →
      some v = lastEventId resume (reading (linesOf chunks))

theorem ids_append (as bs : List Text) : ids (as ++ bs) = ids as ++ ids bs := List.filterMap_append

theorem ids_blank : ids [[]] = [] := by decide

theorem reading_snoc (ls : List Text) (l : Text) : reading (ls ++ [l]) = (reading ls).line l := by
  simp [reading]

def SseParser.lines (p : SseParser) : List Text → SseParser × List SseEvent
  | [] => (p, [])
  | l :: ls => ((p.line l).1.lines ls |>.1, (p.line l).2.toList ++ ((p.line l).1.lines ls).2)

theorem SseParser.lines_append (p : SseParser) (as bs : List Text) :
    p.lines (as ++ bs) = (((p.lines as).1.lines bs).1, (p.lines as).2 ++ ((p.lines as).1.lines bs).2) := by
  induction as generalizing p with
  | nil => rfl
  | cons a as ih => simp only [List.cons_append, SseParser.lines, ih, List.append_assoc]

/-- A line does not look at the buffer. -/
theorem SseParser.line_buffer (p : SseParser) (b : Text) (l : Text) :
    SseParser.line { p with buffer := b } l = ({ (p.line l).1 with buffer := b }, (p.line l).2) := by
  unfold SseParser.line
  dsimp only
  split_ifs <;> try rfl
  split <;> rfl

theorem SseParser.lines_buffer (p : SseParser) (b : Text) (ls : List Text) :
    SseParser.lines { p with buffer := b } ls = ({ (p.lines ls).1 with buffer := b }, (p.lines ls).2) := by
  induction ls generalizing p with
  | nil => rfl
  | cons l ls ih => simp only [SseParser.lines, line_buffer, ih]

/-- The loop handles the complete lines of the buffer, and keeps the rest. -/
theorem SseParser.drain_eq (n : ℕ) (p : SseParser) :
    p.drain n = ({ (p.lines (splitLines n p.buffer).1).1 with buffer := (splitLines n p.buffer).2 },
      (p.lines (splitLines n p.buffer).1).2) := by
  induction n generalizing p with
  | zero => rfl
  | succ n ih =>
    rw [SseParser.drain, splitLines]
    rcases h : nextLine p.buffer with _ | ⟨line, rest⟩
    · rfl
    · simp only [line_buffer, ih, lines_buffer, SseParser.lines]

theorem valueOf_ne {name : String} {l : Text} (h : (field l).1 ≠ name.toList) : valueOf name l = none := if_neg h

theorem idOf_eq {l : Text} (h : (field l).1 = "id".toList) (hnul : '\x00' ∉ (field l).2) :
    idOf l = some (field l).2 := by
  rw [idOf, valueOf, if_pos h, Option.filter_some, if_pos (decide_eq_true hnul)]

theorem idOf_none {l : Text} (h : ¬ ((field l).1 = "id".toList ∧ '\x00' ∉ (field l).2)) : idOf l = none := by
  rw [idOf]
  by_cases hid : (field l).1 = "id".toList
  · rw [valueOf, if_pos hid, Option.filter_some, if_neg fun hv => h ⟨hid, of_decide_eq_true hv⟩]
  · rw [valueOf_ne hid]
    rfl

theorem nextLine_shorter {b line rest : Text} (h : nextLine b = some (line, rest)) : rest.length < b.length := by
  induction b generalizing line with
  | nil => cases h
  | cons c b ih =>
    rw [nextLine] at h
    by_cases hn : c = '\n'
    · rw [if_pos hn] at h
      obtain ⟨-, rfl⟩ := Prod.mk.inj (Option.some.inj h)
      exact Nat.lt_succ_self _
    by_cases hr : c = '\r'
    · rw [if_neg hn, if_pos hr] at h
      obtain ⟨-, rfl⟩ := Prod.mk.inj (Option.some.inj h)
      split_ifs
      · rw [List.length_tail, List.length_cons]
        omega
      · exact Nat.lt_succ_self _
    rw [if_neg hn, if_neg hr] at h
    obtain ⟨⟨line', rest'⟩, hnext, hl⟩ := Option.map_eq_some_iff.mp h
    obtain ⟨-, rfl⟩ := Prod.mk.inj hl
    exact Nat.lt_succ_of_lt (ih hnext)

theorem splitLines_complete (n : ℕ) (b : Text) (hn : b.length ≤ n) : nextLine (splitLines n b).2 = none := by
  induction n generalizing b with
  | zero =>
    obtain rfl := List.length_eq_zero_iff.mp (Nat.le_zero.mp hn)
    rfl
  | succ n ih =>
    rw [splitLines]
    rcases h : nextLine b with _ | ⟨line, rest⟩
    · exact h
    · exact ih rest (by have := nextLine_shorter h; omega)

/-- The loop runs until no complete line is left. -/
theorem SseParser.feed_complete (p : SseParser) (chunk : Text) : nextLine (p.feed chunk).1.buffer = none := by
  rw [SseParser.feed, SseParser.drain_eq]
  exact splitLines_complete _ _ (Nat.le_refl _)

def retryOf (line : Text) : Option Millis := (valueOf "retry" line).bind digits?

/-- What a line that is not blank does to the parser. -/
theorem SseParser.line_field (p : SseParser) {l : Text} (hl : l ≠ []) :
    p.line l =
      ({ p with
          data := p.data ++ (valueOf "data" l).toList
          event := (valueOf "event" l).getD p.event
          id := (idOf l).or p.id
          lastId := (idOf l).or p.lastId
          retryMs := (retryOf l).or p.retryMs }, none) := by
  by_cases hcomment : l.head? = some ':'
  · have hname : (field l).1 = [] := by
      rcases l with _ | ⟨c, rest⟩
      · exact absurd rfl hl
      · obtain rfl := Option.some.inj hcomment
        rfl
    have hdata : valueOf "data" l = none := valueOf_ne (by rw [hname]; decide)
    have hevent : valueOf "event" l = none := valueOf_ne (by rw [hname]; decide)
    have hid : idOf l = none := idOf_none fun h => absurd (hname.symm.trans h.1) (by decide)
    have hretry : retryOf l = none := by rw [retryOf, valueOf_ne (by rw [hname]; decide)]; rfl
    rw [SseParser.line, if_neg hl, if_pos hcomment, hdata, hevent, hid, hretry]
    simp
  rw [SseParser.line, if_neg hl, if_neg hcomment]
  dsimp only
  by_cases hretry : (field l).1 = "retry".toList
  · have hdata : valueOf "data" l = none := valueOf_ne (by rw [hretry]; decide)
    have hevent : valueOf "event" l = none := valueOf_ne (by rw [hretry]; decide)
    have hid : ¬ ((field l).1 = "id".toList ∧ '\x00' ∉ (field l).2) := fun h =>
      absurd (hretry.symm.trans h.1) (by decide)
    rw [if_neg (by rw [hretry]; decide), if_neg (by rw [hretry]; decide), if_neg hid, if_pos hretry, hdata, hevent,
      idOf_none hid, retryOf, valueOf, if_pos hretry, Option.bind_some]
    rcases digits? (field l).2 with _ | n <;> simp
  have hnone : retryOf l = none := by rw [retryOf, valueOf_ne hretry]; rfl
  rw [hnone, Option.none_or]
  by_cases hdata : (field l).1 = "data".toList
  · have hevent : valueOf "event" l = none := valueOf_ne (by rw [hdata]; decide)
    have hid : idOf l = none := idOf_none fun h => absurd (hdata.symm.trans h.1) (by decide)
    rw [if_pos hdata, hevent, hid, valueOf, if_pos hdata]
    rfl
  rw [if_neg hdata, valueOf_ne hdata]
  by_cases hevent : (field l).1 = "event".toList
  · have hid : idOf l = none := idOf_none fun h => absurd (hevent.symm.trans h.1) (by decide)
    rw [if_pos hevent, hid, valueOf, if_pos hevent]
    simp
  rw [if_neg hevent, valueOf_ne hevent]
  by_cases hid : (field l).1 = "id".toList ∧ '\x00' ∉ (field l).2
  · rw [if_pos hid, idOf_eq hid.1 hid.2]
    simp
  rw [if_neg hid, idOf_none hid, if_neg hretry]
  simp

theorem SseParser.line_blank (p : SseParser) :
    p.line [] = ({ p with data := [], event := [] },
      if p.data ≠ [] ∨ p.event ≠ [] then
        some ⟨p.id, if p.event = [] then "message".toList else p.event, join p.data⟩
      else none) := if_pos rfl

/-- The parser that has handled `ls` holds the open lines' fields and the last id. -/
structure SseParser.Holds (p : SseParser) (ls : List Text) : Prop where
  data : p.data = (reading ls).block.filterMap (valueOf "data")
  event : p.event = ((reading ls).block.filterMap (valueOf "event")).getLast?.getD []
  id : p.id = (ids ls).getLast?
  lastId : p.lastId = (ids ls).getLast?

theorem parser_holds (ls : List Text) : (SseParser.lines {} ls).1.Holds ls := by
  induction ls using List.reverseRecOn with
  | nil => exact ⟨rfl, rfl, rfl, rfl⟩
  | append_singleton ls l ih =>
    rw [SseParser.lines_append]
    simp only [SseParser.lines]
    generalize (SseParser.lines {} ls).1 = p at ih
    obtain ⟨hdata, hevent, hid, hlast⟩ := ih
    by_cases hl : l = []
    · subst hl
      have hblock : (reading (ls ++ [[]])).block = [] := by
        rw [reading_snoc]
        unfold Reading.line
        by_cases h : IsEvent (reading ls).block <;> simp [h]
      have hids : ids (ls ++ [[]]) = ids ls := by rw [ids_append, ids_blank, List.append_nil]
      constructor
      · rw [hblock]
        rfl
      · rw [hblock]
        rfl
      · rw [hids]
        exact hid
      · rw [hids]
        exact hlast
    · have hr := p.line_field hl
      have hblock : (reading (ls ++ [l])).block = (reading ls).block ++ [l] := by
        rw [reading_snoc]
        simp [Reading.line, hl]
      have hids : (ids (ls ++ [l])).getLast? = (idOf l).or (ids ls).getLast? := by
        rw [ids_append, List.getLast?_append]
        rcases h : idOf l with _ | v <;> simp [ids, h]
      rw [hr]
      constructor
      · rw [hblock, List.filterMap_append, hdata]
        rcases h : valueOf "data" l with _ | v <;> simp [h]
      · rw [hblock, List.filterMap_append, List.getLast?_append, hevent]
        rcases h : valueOf "event" l with _ | v <;> simp [h]
      · rw [hids, hid]
      · rw [hids, hlast]

/-- The id of the last event handled; before the first event, the one the stream was opened with. -/
def handledId (start : Option Text) (handed : List SseEvent) : Option Text :=
  match handed.getLast? with
  | some e => e.id
  | none => (openStream start).header

/-- The client would resume from what it handled. -/
def Resumes (start : Option Text) (c : Client) : Prop := c.header = handledId start c.handed

theorem header_or {c d : Client} {i : Option Text} (h : d.lastId = i.or c.lastId) (hi : ∀ v, i = some v → v ≠ []) :
    d.header = i.or c.header := by
  unfold Client.header
  rw [h]
  rcases i with _ | v
  · rfl
  · have hv : truthy (some v) = true := decide_eq_true (hi v rfl)
    rw [Option.some_or, Option.some_or, if_pos hv]

end Blackboard.Sse

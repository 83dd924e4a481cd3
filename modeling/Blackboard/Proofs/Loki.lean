import Blackboard.Lib.LogQL
import Blackboard.Spec.Loki

/-! The query of a log search as LogQL reads it. The text of the arguments reaches it inside one back-
quoted string, with every operator of an expression escaped, and the service inside one double-
quoted string, so neither can end its string or mean anything else than itself. -/

namespace Blackboard.Tools

open LogQL

/-- What is read of the filters: of lines if a text is given, and of levels if a level is. -/
def lineStages (a : LogsSearchArgs) : List Stage :=
  if a.text = "" then [] else [.line false true ("(?i)".toList ++ LogQL.escape a.text.toList)]

def levelStages (a : LogsSearchArgs) : List Stage :=
  a.level.toList.map fun level => .labels
    [[⟨"detected_level".toList, .re, ("(?i)(" ++ LEVELS level ++ ")").toList⟩],
     [⟨"severity_text".toList, .re, ("(?i)(" ++ LEVELS level ++ ")").toList⟩]]

theorem toList_re2Escape (text : String) : (re2Escape text).toList = LogQL.escape text.toList := by
  rw [re2Escape, String.toList_ofList]
  rfl

theorem nameChar_plain {c : Char} (h : nameChar c = true) : c ≠ '"' ∧ c ≠ '\\' := by
  refine ⟨?_, ?_⟩
  · rintro rfl
    exact absurd h (by decide)
  · rintro rfl
    exact absurd h (by decide)

theorem text_noBackQuote (a : LogsSearchArgs) : '\x60' ∉ a.text.toList := by
  unfold LogsSearchArgs.text
  cases hc : a.contains with
  | none => simp
  | some t => exact t.2.2

theorem noBackQuote (a : LogsSearchArgs) : '\x60' ∉ "(?i)".toList ++ LogQL.escape a.text.toList := by
  intro h
  rcases List.mem_append.mp h with h | h
  · exact absurd h (by decide)
  · rcases mem_escape h with h | h
    · exact text_noBackQuote a h
    · exact absurd h (by decide)

/-- The tokens of the selector, of the line filter and of the level filter, the last one first. -/
theorem feed_selector (a : LogsSearchArgs) :
    feedAll ⟨.start, []⟩ ("\x7bservice_name=\"" ++ a.service.1 ++ "\"\x7d").toList =
      some ⟨.start, [.punct '\x7d', .str a.service.1.toList, .op ['='], .word "service_name".toList,
        .punct '\x7b']⟩ := by
  have hopen : feedAll ⟨.start, []⟩ "\x7bservice_name=\"".toList =
      some ⟨.quoted [], [.op ['='], .word "service_name".toList, .punct '\x7b']⟩ := by decide
  have hname : "\"\x7d".toList = ['"'] ++ ['\x7d'] := by decide
  have hservice := feedAll_quoted (fun c hc => nameChar_plain (a.service.2.2 c hc)) []
    [.op ['='], .word "service_name".toList, .punct '\x7b']
  rw [String.toList_append, String.toList_append, List.append_assoc, feedAll_append, hopen, Option.bind_some, hname,
    ← List.append_assoc, feedAll_append, hservice]
  rfl

theorem feed_line (a : LogsSearchArgs) (h : a.text ≠ "") (out : List Token) :
    feedAll ⟨.start, out⟩ (lineFilter a).toList =
      some ⟨.start, .str ("(?i)".toList ++ LogQL.escape a.text.toList) :: .op ['|', '~'] :: out⟩ := by
  have hsplit : " |~ `(?i)".toList = [' ', '|', '~', ' ', '\x60'] ++ "(?i)".toList := by decide
  have hopen : feedAll ⟨.start, out⟩ [' ', '|', '~', ' ', '\x60'] = some ⟨.raw [], .op ['|', '~'] :: out⟩ := rfl
  have hback : "`".toList = ['\x60'] := by decide
  rw [lineFilter, if_neg h, String.toList_append, String.toList_append, toList_re2Escape, hsplit, List.append_assoc,
    List.append_assoc, feedAll_append, hopen, Option.bind_some, ← List.append_assoc, hback, feedAll_raw (noBackQuote a)]
  rfl

/-- The expression of a level. -/
def levelExpression (level : Level) : List Char := ("(?i)(" ++ LEVELS level ++ ")").toList

theorem levelExpression_plain (level : Level) : ∀ c ∈ levelExpression level, c ≠ '"' ∧ c ≠ '\\' := by
  have hall : (levelExpression level).all (fun c => c ≠ '"' && c ≠ '\\') = true := by cases level <;> decide +kernel
  intro c hc
  simpa using List.all_eq_true.mp hall c hc

theorem toList_levelFilter (level : Level) :
    (levelFilter level).toList = " | detected_level=~\"".toList ++ ((levelExpression level ++ ['"']) ++
      (" or severity_text=~\"".toList ++ (levelExpression level ++ ['"']))) := by
  cases level <;> decide +kernel

theorem feed_level (level : Level) (out : List Token) :
    feedAll ⟨.start, out⟩ (levelFilter level).toList =
      some ⟨.start, .str (levelExpression level) :: .op ['=', '~'] :: .word "severity_text".toList ::
        .word "or".toList ::
        .str (levelExpression level) :: .op ['=', '~'] :: .word "detected_level".toList :: .op ['|'] :: out⟩ := by
  have h1 : ∀ out, feedAll ⟨.start, out⟩ " | detected_level=~\"".toList =
      some ⟨.quoted [], .op ['=', '~'] :: .word "detected_level".toList :: .op ['|'] :: out⟩ := fun _ => rfl
  have h2 : ∀ out, feedAll ⟨.start, out⟩ " or severity_text=~\"".toList =
      some ⟨.quoted [], .op ['=', '~'] :: .word "severity_text".toList :: .word "or".toList :: out⟩ := fun _ => rfl
  have hquoted := feedAll_quoted (levelExpression_plain level) []
  simp only [List.reverse_nil, List.nil_append] at hquoted
  rw [toList_levelFilter, feedAll_append, h1, Option.bind_some, feedAll_append, hquoted, Option.bind_some,
    feedAll_append, h2, Option.bind_some, hquoted]

/-! The tokens in order, and what they are read as. -/

def selectorTokens (a : LogsSearchArgs) : List Token :=
  [.punct '\x7b', .word "service_name".toList, .op ['='], .str a.service.1.toList, .punct '\x7d']

def lineTokens (a : LogsSearchArgs) : List Token :=
  if a.text = "" then [] else [.op ['|', '~'], .str ("(?i)".toList ++ LogQL.escape a.text.toList)]

def levelTokens (level : Level) : List Token :=
  [.op ['|'], .word "detected_level".toList, .op ['=', '~'], .str (levelExpression level), .word "or".toList,
    .word "severity_text".toList, .op ['=', '~'], .str (levelExpression level)]

theorem feed_filters (a : LogsSearchArgs) :
    feedAll ⟨.start, []⟩ ("\x7bservice_name=\"" ++ a.service.1 ++ "\"\x7d" ++ lineFilter a).toList =
      some ⟨.start, (selectorTokens a ++ lineTokens a).reverse⟩ := by
  rw [String.toList_append, feedAll_append, feed_selector, Option.bind_some]
  by_cases h : a.text = ""
  · rw [lineFilter, lineTokens, if_pos h, if_pos h]
    rfl
  · rw [feed_line a h, lineTokens, if_neg h]
    rfl

theorem finish_start (out : List Token) : Lexer.finish ⟨.start, out.reverse⟩ = some out := by
  rw [Lexer.finish, List.reverse_reverse]

theorem feed_levels (a : LogsSearchArgs) (out : List Token) :
    feedAll ⟨.start, out.reverse⟩ (a.level.elim "" levelFilter).toList =
      some ⟨.start, (out ++ a.level.toList.flatMap levelTokens).reverse⟩ := by
  cases a.level with
  | none => simp [feedAll]
  | some level =>
    rw [Option.elim_some, feed_level]
    simp [levelTokens]

theorem feed_logql (a : LogsSearchArgs) :
    feedAll ⟨.start, []⟩ (logql a).toList =
      some ⟨.start, (selectorTokens a ++ lineTokens a ++ a.level.toList.flatMap levelTokens).reverse⟩ := by
  unfold logql
  rw [String.toList_append, feedAll_append, feed_filters]
  exact feed_levels a (selectorTokens a ++ lineTokens a)

theorem lex_logql (a : LogsSearchArgs) :
    lex (logql a).toList = some (selectorTokens a ++ lineTokens a ++ a.level.toList.flatMap levelTokens) := by
  rw [lex, feed_logql]
  exact finish_start _

/-- What stands before the closing brace, and the level filter at the end. -/
theorem matchers_selector (a : LogsSearchArgs) (n : ℕ) (rest : List Token) :
    matchers? (n + 1) (.word "service_name".toList :: .op ['='] :: .str a.service.1.toList :: .punct '\x7d' :: rest) =
      some ([⟨"service_name".toList, .eq, a.service.1.toList⟩], rest) := rfl

theorem stages_level (level : Level) (n : ℕ) :
    stages? (n + 3) (levelTokens level) =
      some [.labels [[⟨"detected_level".toList, .re, levelExpression level⟩],
        [⟨"severity_text".toList, .re, levelExpression level⟩]]] := by
  have hor : "or".toList = ['o', 'r'] := by decide
  rw [levelTokens, hor]
  rfl

theorem stages_filters (a : LogsSearchArgs) (n : ℕ) :
    stages? (n + 4) (lineTokens a ++ a.level.toList.flatMap levelTokens) = some (lineStages a ++ levelStages a) := by
  have hlevels : ∀ n, stages? (n + 3) (a.level.toList.flatMap levelTokens) = some (levelStages a) := by
    intro n
    unfold levelStages
    cases a.level with
    | none => rw [Option.toList_none, List.flatMap_nil, stages?, List.map_nil]
    | some level => exact stages_level level n
  unfold lineTokens lineStages
  by_cases h : a.text = ""
  · rw [if_pos h, if_pos h]
    exact hlevels (n + 1)
  · rw [if_neg h, if_neg h, List.cons_append, List.cons_append, List.nil_append, stages?, hlevels]
    rfl

theorem query_tokens (a : LogsSearchArgs) :
    query? (selectorTokens a ++ lineTokens a ++ a.level.toList.flatMap levelTokens) =
      some ⟨[⟨"service_name".toList, .eq, a.service.1.toList⟩], lineStages a ++ levelStages a⟩ := by
  let filters := lineTokens a ++ a.level.toList.flatMap levelTokens
  have hstages : stages? (filters.length + 1 + 4) filters = some (lineStages a ++ levelStages a) := stages_filters a _
  have hquery : query? (selectorTokens a ++ filters) =
      (matchers? (filters.length + 1 + 4)
        (.word "service_name".toList :: .op ['='] :: .str a.service.1.toList :: .punct '\x7d' ::
        filters)).bind fun r => (stages? (filters.length + 1 + 4) r.2).map fun stages => ⟨r.1, stages⟩ := rfl
  rw [List.append_assoc, hquery, matchers_selector, Option.bind_some, hstages]
  rfl

/-- The filter of lines keeps the lines with the text, in any case. -/
theorem lineStages_keeps (a : LogsSearchArgs) (fold : Char → Char) (line : List Char) :
    (∀ s ∈ lineStages a, s.keeps fold line) ↔ a.text.toList.map fold <:+: line.map fold := by
  unfold lineStages
  by_cases h : a.text = ""
  · rw [if_pos h, h]
    exact iff_of_true (fun s hs => absurd hs List.not_mem_nil) (List.nil_infix)
  · rw [if_neg h, List.forall_mem_singleton, Stage.keeps, expression?_escape]
    simp [Literal.found]

/-- Whatever the arguments, the query is read as the selector of the service, a filter for the lines with
the text if there is one, the filter of the level if there is one, and nothing else. -/
theorem logql_exact (a : LogsSearchArgs) :
    ∃ q, LogQL.parse (logql a) = some q ∧ q.selector = [⟨"service_name".toList, .eq, a.service.1.toList⟩] ∧
      q.stages = lineStages a ++ levelStages a ∧
      ∀ (fold : Char → Char) (line : List Char), q.keeps fold line ↔ a.text.toList.map fold <:+: line.map fold := by
  refine ⟨⟨[⟨"service_name".toList, .eq, a.service.1.toList⟩], lineStages a ++ levelStages a⟩, ?_, rfl, rfl,
    fun fold line => ?_⟩
  · rw [LogQL.parse, lex_logql]
    exact query_tokens a
  · rw [← lineStages_keeps, Query.keeps]
    refine ⟨fun h s hs => h s (List.mem_append_left _ hs), fun h s hs => ?_⟩
    rcases List.mem_append.mp hs with hs | hs
    · exact h s hs
    · obtain ⟨level, -, rfl⟩ := List.mem_map.mp hs
      trivial

end Blackboard.Tools

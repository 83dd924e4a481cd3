import Blackboard.Spec.Args

/-! `app.tools.loki`: the query of a log search. -/

namespace Blackboard.Tools

/-- `_RE2_SPECIAL` -/
def RE2_SPECIAL : List Char := ['\\', '.', '+', '*', '?', '(', ')', '|', '[', ']', '\x7b', '\x7d', '^', '$']

def re2Escape (text : String) : String :=
  String.ofList (text.toList.flatMap fun c => if c ∈ RE2_SPECIAL then ['\\', c] else [c])

def ERROR : String := "error|fatal|critical|crit|emergency|alert"

/-- "At this level or worse": warn includes the error levels. -/
def LEVELS : Level → String
  | .error => ERROR
  | .warn => "warn|warning|" ++ ERROR

/-- The text to look for; no text and an empty one are the same. -/
def LogsSearchArgs.text (a : LogsSearchArgs) : String :=
  match a.contains with
  | some t => t.1
  | none => ""

def lineFilter (a : LogsSearchArgs) : String :=
  if a.text = "" then "" else " |~ `(?i)" ++ re2Escape a.text ++ "`"

def levelFilter (level : Level) : String :=
  " | detected_level=~\"(?i)(" ++ LEVELS level ++ ")\" or severity_text=~\"(?i)(" ++ LEVELS level ++ ")\""

def logql (a : LogsSearchArgs) : String :=
  "\x7bservice_name=\"" ++ a.service.1 ++ "\"\x7d" ++ lineFilter a ++ a.level.elim "" levelFilter

end Blackboard.Tools

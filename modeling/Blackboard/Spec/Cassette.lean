import Blackboard.Lib.JsonLines

/-! The cassettes of `app.tools.sources` and `app.llm.replay`: a header and one entry a line.
The text is what is compressed and encoded; both work the same way under their own names. -/

namespace Blackboard

structure Cassette where
  entries : List Json := []
  metadata : Json := .obj []

inductive LoadError
  | indexError | jsonDecodeError | attributeError
  | valueError (message : String)
deriving DecidableEq, Repr

namespace Cassette

/-- `value == 1` -/
def isOne : Json → Bool
  | .num n => n = 1
  | .bool b => b
  | .float x => x.value = 1
  | _ => false

def json (line : List Char) : Except LoadError Json :=
  match Json.loads (String.ofList line) with
  | some j => .ok j
  | none => .error .jsonDecodeError

/-- `canonical_json` of the header and of each entry. -/
def lines (key : String) (c : Cassette) : List Json := .obj [(key, .num 1), ("meta", c.metadata)] :: c.entries

def dumpText (key : String) (c : Cassette) : String :=
  String.ofList (Lines.unlines ((c.lines key).map fun j => j.dumps.toList))

/-- The check of the header; its `meta` is what is kept of it. -/
def readHeader (key kind path : String) : Json → Except LoadError Json
  | .obj ms =>
    if ((Json.member? ms key).map isOne).getD false then .ok ((Json.member? ms "meta").getD (.obj []))
    else .error (.valueError (path ++ ": not a version 1 " ++ kind))
  | _ => .error .attributeError

def loadText (key kind path text : String) : Except LoadError Cassette :=
  match Lines.nonblank text.toList with
  | [] => .error .indexError
  | first :: rest => do
    let header ← json first
    let metadata ← readHeader key kind path header
    let entries ← rest.mapM json
    return { entries, metadata }

/-! The tool cassette. -/

def dump (c : Cassette) : String := c.dumpText "cassette"

def load (path text : String) : Except LoadError Cassette := loadText "cassette" "cassette" path text

/-- The same data, whatever the order of members. -/
structure Same (c d : Cassette) : Prop where
  metadata : c.metadata.Alike d.metadata
  entries : List.Forall₂ Json.Alike c.entries d.entries

/-- No string has a line break that is written as it is. -/
def oneLineEach (c : Cassette) : Bool := (c.metadata :: c.entries).all fun j => !j.anyChar Json.isRawBreak

end Cassette

namespace LLMCassette

/-! The LLM cassette. -/

def dump (c : Cassette) : String := c.dumpText "llm_cassette"

def load (path text : String) : Except LoadError Cassette :=
  Cassette.loadText "llm_cassette" "LLM cassette" path text

end LLMCassette

end Blackboard

import Blackboard.Lib.Dict
import Blackboard.Lib.Json

/-! `app.llm.render.inline_refs`: a schema without references, for backends that do not follow them. -/

namespace Blackboard.Render

/-- `ref.removeprefix("#/$defs/")`, of a reference that starts with it. -/
def defName? (ref : String) : Option String :=
  if "#/$defs/".toList.isPrefixOf ref.toList then some (String.ofList (ref.toList.drop 8)) else none

/-- The name of the definition that an object refers to. -/
def ref? (node : List (String × Json)) : Option String :=
  match node.lookup "$ref" with
  | some (.str ref) => defName? ref
  | _ => none

/-- `{k: v for k, v in node.items() if k != name}` -/
def without (name : String) (node : List (String × Json)) : List (String × Json) := node.filter fun m => m.1 ≠ name

/-- `walk`: nothing where it raises, or does not end within `n` calls one inside the other. -/
def walk (defs : List (String × Json)) : ℕ → Json → Option Json
  | 0, _ => none
  | n + 1, .obj node =>
    match ref? node with
    | some name =>
      match defs.lookup name with
      | some (.obj target) => walk defs n (.obj (Dict.update target (without "$ref" node)))
      -- no such definition, or one that is not a dict
      | _ => none
    | none => ((without "$defs" node).mapM fun m => (walk defs n m.2).map (m.1, ·)).map .obj
  | n + 1, .arr xs => (xs.mapM (walk defs n)).map .arr
  | _ + 1, v => some v

/-- `schema.get("$defs", {})` -/
def definitions (schema : List (String × Json)) : List (String × Json) :=
  match schema.lookup "$defs" with
  | some (.obj defs) => defs
  | _ => []

def inlineRefs (n : ℕ) (schema : List (String × Json)) : Option Json :=
  (walk (definitions schema) n (.obj schema)).map fun out => out.erase "title"

end Blackboard.Render

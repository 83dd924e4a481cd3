import Mathlib.Algebra.Order.Field.Basic
import Mathlib.Data.List.Dedup
import Blackboard.Lib.Double
import Blackboard.Lib.PyJson

/-! `app.kb.evaluate`: the threshold that the retrieval evaluation chooses, and the comparison of its report
with the committed one. `K` is the type of scores. -/

namespace Blackboard.Kb

/-! The threshold. -/

section

variable {K : Type} [Field K] [LinearOrder K]

structure Outcome (K : Type) where
  answerable : Bool
  /-- The best result's score. -/
  topScore : Option K

/-- `o.top_score or 0.0` -/
def Outcome.score (o : Outcome K) : K := o.topScore.getD 0

def goodScores (dev : List (Outcome K)) : List K := (dev.filter fun o => o.answerable).map Outcome.score

def badScores (dev : List (Outcome K)) : List K := (dev.filter fun o => !o.answerable).map Outcome.score

/-- Balanced accuracy: `(tpr + tnr) / 2`. -/
def accuracy (dev : List (Outcome K)) (t : K) : K :=
  let good := goodScores dev
  let bad := badScores dev
  let tpr := if good ≠ [] then ((good.filter fun s => t ≤ s).length : K) / good.length else 0
  let tnr := if bad ≠ [] then ((bad.filter fun s => s < t).length : K) / bad.length else 0
  (tpr + tnr) / 2

/-- `sorted({0.0, *good, *bad})` -/
def cuts (dev : List (Outcome K)) : List K :=
  (0 :: (goodScores dev ++ badScores dev)).dedup.mergeSort fun a b => a ≤ b

/-- `best`, after the loop. -/
def bestCut (dev : List (Outcome K)) : K :=
  ((cuts dev).foldl (fun b t => if b.2 < accuracy dev t then (t, accuracy dev t) else b) (0, -1)).1

def chooseThreshold (dev : List (Outcome K)) : K :=
  match ((goodScores dev ++ badScores dev).filter fun s => s < bestCut dev).max? with
  | some m => (bestCut dev + m) / 2
  | none => bestCut dev

end

/-! The comparison. -/

/-- A number as an operand of a float. -/
inductive Operand
  | finite (x : Double)
  | nan
  | infinite (neg : Bool)

/-- An int that is too large for a float raises. -/
def operand? : PyJson → Option Operand
  | .bool b => (Double.round false (if b then 1 else 0)).map .finite
  | .int n => (Double.round (n < 0) n.natAbs).map .finite
  | .float x => some (.finite x)
  | .nan => some .nan
  | .infinite neg => some (.infinite neg)
  | _ => none

/-- `abs(a - b) <= tolerance`: an infinity or NaN is not. -/
def near (tolerance : Double) : Operand → Operand → Bool
  | .finite x, .finite y => (Double.round false |x.value - y.value|).any fun d => d.value ≤ tolerance.value
  | _, _ => false

/-- 0.02 -/
def TOLERANCE : Double := ⟨false, 5764607523034235, -58, by decide, by decide, by decide, by decide⟩

variable (repr : PyJson → PyStr) (tolerance : Double)

def onlyIn (path k : PyStr) (report : String) : PyStr :=
  path ++ PyStr.ofString "/" ++ k ++ PyStr.ofString (": only in the " ++ report ++ " report")

/-- The end of `differences`, for what is not two dicts; none where it raises. -/
def leafDifferences (expected got : PyJson) (path : PyStr) : Option (List PyStr) :=
  let rest := if expected.equal got then []
  else [path ++ PyStr.ofString ": " ++ repr expected ++ PyStr.ofString " -> " ++ repr got]
  if expected.isNumber && got.isNumber && (expected.isFloat || got.isFloat) then
    match operand? expected, operand? got with
    | some x, some y => some (if near tolerance x y then [] else rest)
    | _, _ => none
  else some rest

mutual

def differences : PyJson → PyJson → PyStr → Option (List PyStr)
  | .obj ms, .obj ns, path =>
    (memberDifferences ms ns path).map fun out =>
      let new := (ns.filter fun n => n.1 ∉ ms.map Prod.fst).map fun n => (n.1, [onlyIn path n.1 "new"])
      ((out ++ new).mergeSort fun a b => a.1 ≤ b.1).flatMap Prod.snd
  | expected, got, path => leafDifferences repr tolerance expected got path

/-- What is found at each key of the committed report's dict. -/
def memberDifferences : List (PyStr × PyJson) → List (PyStr × PyJson) → PyStr → Option (List (PyStr × List PyStr))
  | [], _, _ => some []
  | (k, v) :: ms, ns, path =>
    let here :=
      match ns.lookup k with
      | some w => differences v w (path ++ PyStr.ofString "/" ++ k)
      | none => some [onlyIn path k "committed"]
    here.bind fun d => (memberDifferences ms ns path).map ((k, d) :: ·)

end

end Blackboard.Kb

import Mathlib.Data.Rat.Defs
import Mathlib.Data.String.Basic
import Blackboard.Lib.Dict

/-! `app.kb.search`: the hits of two queries fused by rank. Scores are exact. -/

namespace Blackboard.Kb

def RRF_K : ℕ := 60
def CANDIDATES : ℕ := 20

structure Hit where
  chunkId : String
  docId : String
  kind : String
  title : String
  version : String
  headings : List String
  sections : List String
  content : String
  services : List String
  /-- The final ordering key. -/
  score : ℚ := 0
  /-- path -> 1-based rank in that path -/
  ranks : List (String × ℕ) := []
deriving DecidableEq, Repr

/-- `by_id` and `scores`. -/
structure Fusion where
  byId : List Hit := []
  scores : List (String × ℚ) := []

def Fusion.score (f : Fusion) (id : String) : ℚ := (f.scores.lookup id).getD 0

/-- One round of the inner loop of `rrf`. -/
def Fusion.add (k : ℕ) (f : Fusion) (ranked : Hit × ℕ) : Fusion :=
  let (hit, rank) := ranked
  { byId :=
      if hit.chunkId ∈ f.byId.map Hit.chunkId then
        f.byId.map fun kept =>
          if kept.chunkId = hit.chunkId then { kept with ranks := Dict.update kept.ranks hit.ranks } else kept
      else f.byId ++ [hit]
    scores := Dict.set f.scores hit.chunkId (f.score hit.chunkId + 1 / (k + rank)) }

/-- The order of the keys `(-scores[h.chunk_id], h.chunk_id)`. -/
def Fusion.before (f : Fusion) (g h : Hit) : Bool :=
  f.score h.chunkId < f.score g.chunkId || f.score g.chunkId = f.score h.chunkId && g.chunkId ≤ h.chunkId

def rrf (ranked : List (List Hit)) (k : ℕ := RRF_K) : List Hit :=
  let f := (ranked.flatMap fun hits => hits.zipIdx 1).foldl (Fusion.add k) {}
  (f.byId.mergeSort f.before).map fun h => { h with score := f.score h.chunkId }

end Blackboard.Kb

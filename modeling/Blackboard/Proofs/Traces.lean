import Blackboard.Lib.Cover
import Blackboard.Spec.Traces

/-! The self time of a span against the part of its interval that no child covers. The code takes off
the sum of the children's durations, which is right as long as no two children overlap and none
reaches outside, or if they leave nothing. -/

namespace Blackboard.Tools

open MeasureTheory

def Span.interval (s : Span) : Set ℝ := Set.Ico (s.startTime : ℝ) (s.startTime + s.duration)

/-- The children of a span, each as often as it refers to it. -/
def Trace.childrenOf (t : Trace) (s : Span) : List Span :=
  t.spans.flatMap fun c => (c.references.filter (Reference.childOf · s.spanID)).map fun _ => c

/-- What no child covers of a span. -/
def Trace.uncovered (t : Trace) (s : Span) : Set ℝ := s.interval \ ⋃ c ∈ t.childrenOf s, c.interval

/-- No two children overlap and none reaches outside, or together they cover the whole span. -/
def Trace.Additive (t : Trace) (s : Span) : Prop :=
  (t.childrenOf s).Pairwise (fun c d => Disjoint c.interval d.interval) ∧
  (∀ c ∈ t.childrenOf s, c.interval ⊆ s.interval) ∨
    s.interval ⊆ ⋃ c ∈ t.childrenOf s, c.interval

/-! What the children took. -/

theorem references_foldl (s : Span) (id : String) (rs : List Reference) (f : String → ℕ) :
    rs.foldl (Trace.addChild s) f id = f id + ((rs.filter (Reference.childOf · id)).map fun _ => s.duration).sum := by
  induction rs generalizing f with
  | nil => rfl
  | cons r rs ih =>
    rw [List.foldl_cons, ih, List.filter_cons, Trace.addChild, Reference.childOf]
    by_cases hr : r.refType = "CHILD_OF"
    · by_cases hid : r.spanID = id
      · simp [hr, hid]
        omega
      · simp [hr, hid, Ne.symm hid]
    · simp [hr]

theorem spans_foldl (id : String) (spans : List Span) (f : String → ℕ) :
    spans.foldl (fun children s => s.references.foldl (Trace.addChild s) children) f id =
      f id + ((spans.flatMap fun c => (c.references.filter (Reference.childOf · id)).map fun _ =>
        c).map Span.duration).sum := by
  induction spans generalizing f with
  | nil => rfl
  | cons s spans ih =>
    rw [List.foldl_cons, ih, references_foldl, List.flatMap_cons, List.map_append, List.sum_append, List.map_map]
    rw [Nat.add_assoc]
    rfl

theorem children_eq (t : Trace) (s : Span) : t.children s.spanID = ((t.childrenOf s).map Span.duration).sum := by
  rw [Trace.children, spans_foldl, Nat.zero_add, Trace.childrenOf]

/-! The microseconds of a span. -/

def Span.micros (s : Span) : Finset ℤ := Cover.run s.startTime s.duration

theorem card_micros (s : Span) : s.micros.card = s.duration := Cover.card_run ..

theorem ticks_micros (s : Span) : Cover.ticks s.micros = s.interval := Cover.ticks_run ..

theorem covered_eq (cs : List Span) : ⋃ c ∈ cs, c.interval = Cover.ticks (Cover.union (cs.map Span.micros)) := by
  rw [Cover.ticks_union]
  ext x
  simp [ticks_micros]

theorem uncovered_eq (t : Trace) (s : Span) :
    t.uncovered s = Cover.ticks (s.micros \ Cover.union ((t.childrenOf s).map Span.micros)) := by
  rw [Trace.uncovered, covered_eq, ← ticks_micros, Cover.ticks_sdiff]

theorem volume_uncovered (t : Trace) (s : Span) :
    volume (t.uncovered s) = ((s.micros \ Cover.union ((t.childrenOf s).map Span.micros)).card : ℕ) := by
  rw [uncovered_eq, Cover.volume_ticks]

theorem additive_iff (t : Trace) (s : Span) :
    t.Additive s ↔ (((t.childrenOf s).map Span.micros).Pairwise Disjoint ∧
      ∀ c ∈ (t.childrenOf s).map Span.micros, c ⊆ s.micros) ∨
      s.micros ⊆ Cover.union ((t.childrenOf s).map Span.micros) := by
  rw [Trace.Additive, covered_eq, ← ticks_micros, Cover.ticks_subset, List.pairwise_map, List.forall_mem_map]
  simp only [← ticks_micros, Cover.ticks_disjoint, Cover.ticks_subset]

/-- The self time is the length of what no child covers exactly if the children neither overlap nor
reach outside, or cover everything. -/
theorem self_time_iff (t : Trace) (s : Span) : volume (t.uncovered s) = t.selfTime s ↔ t.Additive s := by
  have hsum : ((t.childrenOf s).map Span.duration).sum = (((t.childrenOf s).map Span.micros).map Finset.card).sum := by
    rw [List.map_map]
    exact congrArg List.sum (List.map_congr_left fun c _ => (card_micros c).symm)
  rw [volume_uncovered, additive_iff, ← Cover.card_sdiff_union, Trace.selfTime, children_eq, hsum, card_micros]
  exact_mod_cast Iff.rfl

/-! A request that calls two services at once. -/

def placeOrder : Span where
  spanID := "a"
  operationName := "PlaceOrder"
  processID := "p1"
  startTime := 0
  duration := 100

def fanOut : Trace where
  traceID := "1"
  processes := [("p1", "checkout"), ("p2", "cart"), ("p3", "payment")]
  spans := [placeOrder,
    { spanID := "b", operationName := "GetCart", processID := "p2", startTime := 0, duration := 60,
      references := [⟨"CHILD_OF", "a"⟩] },
    { spanID := "c", operationName := "Charge", processID := "p3", startTime := 20, duration := 60,
      references := [⟨"CHILD_OF", "a"⟩] }]

/-- 20 microseconds are the parent's own, and the summary says none. -/
theorem self_time_understated :
    placeOrder ∈ fanOut.spans ∧ volume (fanOut.uncovered placeOrder) = 20 ∧ fanOut.selfTime placeOrder = 0 := by
  have h : (placeOrder.micros \ Cover.union ((fanOut.childrenOf placeOrder).map Span.micros)).card = 20 := by
    decide +kernel
  refine ⟨List.mem_cons_self, ?_, by decide⟩
  rw [volume_uncovered, h]
  rfl

end Blackboard.Tools

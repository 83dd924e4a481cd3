import Blackboard.Spec.AgentLoop
import Mathlib.Tactic.SplitIfs

/-! The agent loop ends, for an agent that has tools: its last step must be the final answer. Every
round adds a step to the transcript and what answers it. -/

namespace Blackboard.AgentLoop

open Blackboard.Llm (Raised normalizeStep Step)

variable {α : Type}

/-- A step asks for actions or gives the final answer, and never both. -/
theorem normalizeStep_ok {raw : Json} {step : Step} (h : normalizeStep raw = .ok step) :
    step.final = none ∧ step.actions ≠ [] ∨ (∃ f, step.final = some f) ∧ step.actions = [] := by
  unfold normalizeStep at h
  split_ifs at h
  simp only at h
  split at h
  · cases h
  · split at h
    · split_ifs at h with hnil
      obtain rfl := Except.ok.inj h
      exact .inl ⟨rfl, by simpa using hnil⟩
    · rename_i actions _ _ final _
      obtain rfl := Except.ok.inj h
      by_cases hnil : actions = []
      · subst hnil
        exact .inr ⟨⟨final, rfl⟩, rfl⟩
      · exact .inl ⟨by simp [hnil], hnil⟩

/-! What one round does. -/

/-- What a round that goes on adds to the transcript: a step with its results, or a refused answer. -/
inductive Added (k : ℕ) : List Turn → Prop
  | queried (reasoning : String) {as : List Llm.StepAction} {results : List TurnResult} {note : List Turn}
    (ha : as ≠ [])
      (hr : results.map TurnResult.id = (numbered k as).map TurnAction.id)
        (hn : note = [] ∨ ∃ text, note = [.user text]) :
      Added k (.step reasoning (numbered k as) none :: .results results :: note)
  | refused (reasoning : String) (final : Json) (text : String) : Added k [.step reasoning [] (some final), .user text]

/-- A step that nothing answers yet. -/
inductive Opened (k : ℕ) : Turn → Prop
  | queried (reasoning : String) {as : List Llm.StepAction} (ha : as ≠ []) : Opened k
    (.step reasoning (numbered k as) none)
  | final (reasoning : String) (final : Json) : Opened k (.step reasoning [] (some final))

theorem counted_frame (outcomes : List Tools.ToolOutcome) (run : AgentRun α) :
    (outcomes.foldl counted run).turns = run.turns ∧ (outcomes.foldl counted run).steps = run.steps ∧
      (outcomes.foldl counted run).rewrites = run.rewrites := by
  induction outcomes generalizing run with
  | nil => exact ⟨rfl, rfl, rfl⟩
  | cons o os ih =>
    obtain ⟨h1, h2, h3⟩ := ih (counted run o)
    have hone : (counted run o).turns = run.turns ∧ (counted run o).steps = run.steps ∧
        (counted run o).rewrites = run.rewrites := by
      unfold counted
      split <;> exact ⟨rfl, rfl, rfl⟩
    rw [List.foldl_cons]
    exact ⟨h1.trans hone.1, h2.trans hone.2.1, h3.trans hone.2.2⟩

theorem mapM_length {ε β γ : Type} {f : β → Except ε γ} {xs : List β} {ys : List γ} (h : xs.mapM f = .ok ys) :
    ys.length = xs.length := by
  induction xs generalizing ys with
  | nil =>
    obtain rfl := Except.ok.inj h
    rfl
  | cons x xs ih =>
    rw [List.mapM_cons] at h
    cases hx : f x with
    | error e => rw [hx] at h; cases h
    | ok y =>
      cases hxs : xs.mapM f with
      | error e => rw [hx, hxs] at h; cases h
      | ok zs =>
        rw [hx, hxs] at h
        obtain rfl := Except.ok.inj h
        rw [List.length_cons, List.length_cons, ih hxs]

theorem query_cases (spec : AgentSpec α) (m : Meets α) (actions : List TurnAction) (run : AgentRun α) :
    (∃ e, query spec m actions run = .ended run (.error (.raised e))) ∨
      ∃ run' results note, query spec m actions run = .running run' ∧
        run'.turns = run.turns ++ (.results results :: note) ∧ results.map TurnResult.id = actions.map TurnAction.id ∧
        (note = [] ∨ ∃ text, note = [.user text]) ∧ run'.steps = run.steps ∧ run'.rewrites = run.rewrites := by
  unfold query
  cases hm : actions.mapM (call spec m) with
  | error e => exact .inl ⟨e, rfl⟩
  | ok outcomes =>
    obtain ⟨h1, h2, h3⟩ := counted_frame outcomes run
    have hids : ((actions.zip outcomes).map fun x =>
      (⟨x.1.id, x.1.tool, x.2.forModel⟩ : TurnResult)).map TurnResult.id =
        actions.map TurnAction.id := by
      have hfst : (actions.zip outcomes).map Prod.fst = actions := List.map_fst_zip (mapM_length hm).ge
      rw [List.map_map, ← congrArg (List.map TurnAction.id) hfst, List.map_map]
      rfl
    dsimp only
    refine .inr ?_
    split_ifs
    · exact ⟨_, _, [.user LAST_STEP_NOTE], rfl, by simp [h1], hids, .inr ⟨_, rfl⟩, h2, h3⟩
    · exact ⟨_, _, [], rfl, by simp [h1], hids, .inl rfl, h2, h3⟩

theorem conclude_cases (spec : AgentSpec α) (deps : Deps) (m : Meets α) (final : Json) (run : AgentRun α) :
    (∃ run' r, conclude spec deps m final run = .ended run' r ∧ run'.turns = run.turns ∧ run'.steps = run.steps ∧
      (r = .ok () → run'.final.isSome)) ∨
      ∃ run' text, conclude spec deps m final run = .running run' ∧ run'.turns = run.turns ++ [.user text] ∧
        run'.steps = run.steps ∧ run'.rewrites = run.rewrites + 1 ∧ run.rewrites < spec.maxRewrites := by
  unfold conclude
  split
  · split_ifs with hlt
    · exact .inr ⟨_, _, rfl, rfl, rfl, rfl, hlt⟩
    · exact .inl ⟨_, _, rfl, rfl, rfl, fun h => by cases h⟩
  · split
    · exact .inl ⟨_, _, rfl, rfl, rfl, fun h => by cases h⟩
    · dsimp only
      split_ifs with hlt
      · exact .inr ⟨_, _, rfl, rfl, rfl, rfl, hlt.2⟩
      · exact .inl ⟨_, _, rfl, rfl, rfl, fun _ => rfl⟩

/-- A round ends the agent, with at most its own step unanswered, or adds to the transcript and has
used one of the steps or one of the rewrites. -/
theorem round_cases (spec : AgentSpec α) (deps : Deps) (tools : List Json) (m : Meets α) (run : AgentRun α) :
    (∃ run' r, round spec deps tools m run = .ended run' r ∧ run'.steps = run.steps + 1 ∧
      (r = .ok () → run'.final.isSome) ∧
      (run'.turns = run.turns ∨ ∃ t, Opened (run.steps + 1) t ∧ run'.turns = run.turns ++ [t])) ∨
    ∃ run' added, round spec deps tools m run = .running run' ∧ run'.steps = run.steps + 1 ∧
      run'.turns = run.turns ++ added ∧ Added (run.steps + 1) added ∧
      ((run'.rewrites = run.rewrites ∧ (tools ≠ [] → run.steps + 1 < spec.maxSteps)) ∨
        run'.rewrites = run.rewrites + 1 ∧ run.rewrites < spec.maxRewrites) := by
  unfold round
  dsimp only
  split
  · exact .inl ⟨_, _, rfl, rfl, (fun h => by cases h), .inl rfl⟩
  rename_i used _
  by_cases hbudget : deps.tokenBudget ≤ used
  · rw [if_pos hbudget]
    exact .inl ⟨_, _, rfl, rfl, (fun h => by cases h), .inl rfl⟩
  rw [if_neg hbudget]
  split
  · exact .inl ⟨_, _, rfl, rfl, (fun h => by cases h), .inl rfl⟩
  rename_i step hstep
  obtain ⟨raw, -, hraw⟩ : ∃ raw, m.answer = .ok raw ∧ normalizeStep raw = .ok step := by
    cases ha : m.answer with
    | error e => rw [ha] at hstep; cases hstep
    | ok raw =>
      rw [ha] at hstep
      change Llm.raised (normalizeStep raw) = .ok step at hstep
      cases hn : normalizeStep raw with
      | error e => rw [hn] at hstep; cases hstep
      | ok s =>
        rw [hn] at hstep
        exact ⟨raw, rfl, hn ▸ congrArg Except.ok (Except.ok.inj hstep)⟩
  rcases normalizeStep_ok hraw with ⟨hfinal, hactions⟩ | ⟨⟨f, hfinal⟩, hactions⟩
  · simp only [hfinal]
    split_ifs with hforce
    · exact .inl ⟨_, _, rfl, rfl, (fun h => by cases h), .inr ⟨_, .queried step.reasoning hactions, rfl⟩⟩
    · rcases query_cases spec m (numbered (run.steps + 1) step.actions)
        { run with steps := run.steps + 1,
                   turns := run.turns ++ [.step step.reasoning (numbered (run.steps + 1) step.actions) none] }
        with ⟨e, he⟩ | ⟨run', results, note, hq, hturns, hids, hnote, hsteps, hrewrites⟩
      · exact .inl ⟨_, _, he, rfl, (fun h => by cases h), .inr ⟨_, .queried step.reasoning hactions, rfl⟩⟩
      · refine .inr ⟨run', _, hq, hsteps, ?_, .queried step.reasoning hactions hids hnote,
          .inl ⟨hrewrites, fun ht => ?_⟩⟩
        · rw [hturns, List.append_assoc]
          rfl
        · simp only [request, Bool.and_eq_true, Bool.not_eq_eq_eq_not, Bool.not_true, List.isEmpty_eq_false_iff,
            decide_eq_true_eq, not_and, not_le] at hforce
          exact hforce ht
  · simp only [hfinal, hactions]
    rcases conclude_cases spec deps m f
      { run with steps := run.steps + 1,
                 turns := run.turns ++ [.step step.reasoning (numbered (run.steps + 1) []) (some f)] }
      with ⟨run', r, hc, hturns, hsteps, hfin⟩ | ⟨run', text, hc, hturns, hsteps, hrewrites, hlt⟩
    · exact .inl ⟨run', r, hc, hsteps, hfin, .inr ⟨_, .final step.reasoning f, hturns⟩⟩
    · refine .inr ⟨run', _, hc, hsteps, ?_, .refused step.reasoning f text, .inr ⟨hrewrites, hlt⟩⟩
      rw [hturns, List.append_assoc]
      rfl

/-! How many rounds there are. -/

/-- After at most `n` rounds. Every round but the last of an agent with tools has used a step or a rewrite. -/
def Within (spec : AgentSpec α) (n : ℕ) : Progress α → Prop
  | .running run => run.steps = n ∧ run.rewrites ≤ spec.maxRewrites ∧
    (spec.tools ≠ [] → n < spec.maxSteps + run.rewrites)
  | .ended run result => run.steps ≤ n ∧ (result = .ok () → run.final.isSome)

theorem toolSpecs_ne_nil {spec : AgentSpec α} {deps : Deps} {specs : List Json} (h : toolSpecs spec deps = some specs)
    (ht : spec.tools ≠ []) : specs ≠ [] := by
  unfold toolSpecs at h
  obtain ⟨t, ts, hts⟩ := List.exists_cons_of_ne_nil ht
  rw [hts, List.mapM_cons] at h
  obtain ⟨d, -, h⟩ := Option.bind_eq_some_iff.1 h
  obtain ⟨ds, -, h⟩ := Option.bind_eq_some_iff.1 h
  obtain rfl := Option.some.inj h
  exact List.cons_ne_nil d ds

theorem runAgent_running {spec : AgentSpec α} {deps : Deps} {task : String} {env : ℕ → Meets α} {n : ℕ}
    {run : AgentRun α} (h : runAgent spec deps task env n = .running run) :
    ∃ specs, toolSpecs spec deps = some specs := by
  induction n generalizing run with
  | zero =>
    cases hs : toolSpecs spec deps with
    | none => simp only [runAgent, hs] at h; cases h
    | some specs => exact ⟨specs, rfl⟩
  | succ n ih =>
    rw [runAgent] at h
    cases hn : runAgent spec deps task env n with
    | running r => exact ih hn
    | ended r result => rw [hn] at h; cases h

theorem runAgent_within (spec : AgentSpec α) (hm : 1 ≤ spec.maxSteps) (deps : Deps) (task : String) (env : ℕ → Meets α)
    (n : ℕ) : Within spec n (runAgent spec deps task env n) := by
  induction n with
  | zero =>
    unfold runAgent
    split
    · exact ⟨le_rfl, fun h => by cases h⟩
    · exact ⟨rfl, Nat.zero_le _, fun _ => by omega⟩
  | succ n ih =>
    rw [runAgent]
    cases hn : runAgent spec deps task env n with
    | ended run result =>
      rw [hn] at ih
      exact ⟨ih.1.trans n.le_succ, ih.2⟩
    | running run =>
      obtain ⟨specs, hspecs⟩ := runAgent_running hn
      rw [hn] at ih
      obtain ⟨hsteps, hrewrites, hbound⟩ := ih
      dsimp only
      rw [hspecs, Option.getD_some]
      rcases round_cases spec deps specs (env n) run with
        ⟨run', r, hr, hs, hfin, -⟩ | ⟨run', added, hr, hs, -, -, hused⟩
      · rw [hr]
        exact ⟨by omega, hfin⟩
      · rw [hr]
        rcases hused with ⟨hsame, hlt⟩ | ⟨hone, hlt⟩
        · refine ⟨by omega, by omega, fun ht => ?_⟩
          have := hlt (toolSpecs_ne_nil hspecs ht)
          omega
        · refine ⟨by omega, by omega, fun ht => ?_⟩
          have := hbound ht
          omega

theorem mapM_ok {ε β γ : Type} {f : β → Except ε γ} (hf : ∀ x, ∃ y, f x = .ok y) (xs : List β) :
    ∃ ys, xs.mapM f = .ok ys := by
  induction xs with
  | nil => exact ⟨[], rfl⟩
  | cons x xs ih =>
    obtain ⟨y, hy⟩ := hf x
    obtain ⟨ys, hys⟩ := ih
    exact ⟨y :: ys, by rw [List.mapM_cons, hy, hys]; rfl⟩

/-- A model that always asks for a query, with `used` tokens so far. -/
def insistent (used : ℤ) : Meets α :=
  { used := .ok used, answer := .ok (.obj [("actions", .arr [.obj [("tool", .str "prom_query")]])]),
    called := fun a => .ok { tool := a.tool, args := a.args }, checked := .error (.other "") }

/-- An agent without tools is never made to answer. -/
theorem round_insistent (spec : AgentSpec α) (ht : spec.tools = []) (deps : Deps) {used : ℤ}
    (hb : used < deps.tokenBudget) (run : AgentRun α) :
    ∃ run', round spec deps [] (insistent used) run = .running run' := by
  have hcall (a : TurnAction) : ∃ o, call spec (insistent used) a = .ok o := by
    unfold call
    rw [ht, if_neg List.not_mem_nil]
    exact ⟨_, rfl⟩
  have hquery (actions : List TurnAction) (run : AgentRun α) :
      ∃ run', query spec (insistent used) actions run = .running run' := by
    obtain ⟨outcomes, ho⟩ := mapM_ok hcall actions
    unfold query
    rw [ho]
    exact ⟨_, rfl⟩
  have hround : round spec deps [] (insistent used) run =
      if deps.tokenBudget ≤ used then
        .ended { run with steps := run.steps + 1 }
          (.error (.budgetExceeded (toString used ++ " tokens used, budget " ++ toString deps.tokenBudget)))
      else query spec (insistent used) (numbered (run.steps + 1) [⟨"prom_query", .obj []⟩])
        { run with steps := run.steps + 1,
                   turns := run.turns ++ [.step "" (numbered (run.steps + 1) [⟨"prom_query", .obj []⟩]) none] } := rfl
  rw [hround, if_neg (by omega)]
  exact hquery _ _

theorem runAgent_insistent (spec : AgentSpec α) (ht : spec.tools = []) (deps : Deps) (task : String)
    (used : ℕ → ℤ) {n : ℕ} (hb : ∀ k < n, used k < deps.tokenBudget) :
    ∃ run, runAgent spec deps task (fun k => insistent (used k)) n = .running run := by
  have hspecs : toolSpecs spec deps = some [] := by
    unfold toolSpecs
    rw [ht]
    rfl
  induction n with
  | zero =>
    rw [runAgent, hspecs]
    exact ⟨_, rfl⟩
  | succ n ih =>
    obtain ⟨run, hrun⟩ := ih fun k hk => hb k (by omega)
    rw [runAgent, hrun, hspecs]
    exact round_insistent spec ht deps (hb n (by omega)) run

/-- The loop is bounded for exactly the agents that have tools: only these get a last step. -/
theorem bounded_iff (spec : AgentSpec α) (hm : 1 ≤ spec.maxSteps) :
    (∀ deps task env, ∃ run result, runAgent spec deps task env (spec.maxSteps + spec.maxRewrites) = .ended run result ∧
      run.steps ≤ spec.maxSteps + spec.maxRewrites ∧ (result = .ok () → run.final.isSome)) ↔ spec.tools ≠ [] := by
  constructor
  · intro h ht
    obtain ⟨run', hrun⟩ := runAgent_insistent spec ht ⟨fun _ => none, fun _ => "", "", 1⟩ "" (fun _ => 0)
      fun k (_ : k < spec.maxSteps + spec.maxRewrites) => Int.one_pos
    obtain ⟨run, result, hended, -⟩ := h ⟨fun _ => none, fun _ => "", "", 1⟩ "" fun _ => insistent 0
    rw [hrun] at hended
    cases hended
  · intro ht deps task env
    have hw := runAgent_within spec hm deps task env (spec.maxSteps + spec.maxRewrites)
    cases hn : runAgent spec deps task env (spec.maxSteps + spec.maxRewrites) with
    | running run =>
      rw [hn] at hw
      obtain ⟨-, hrewrites, hbound⟩ := hw
      have := hbound ht
      omega
    | ended run result =>
      rw [hn] at hw
      exact ⟨run, result, rfl, hw.1, hw.2⟩

/-- The coordinator, which has no tools, and an investigator. -/
def coordinator : AgentSpec Json :=
  { name := "coordinator", promptText := "", promptVersion := "1", tools := [], validate := .ok, schema := .obj [],
    maxSteps := 1 }

def investigator : AgentSpec Json :=
  { coordinator with name := "investigator.metrics", tools := ["prom_query"], maxSteps := 5 }

theorem bounded_iff_investigator : (1 ≤ investigator.maxSteps ∧ investigator.tools ≠ []) ∧
    ∀ deps task env, ∃ run result,
      runAgent investigator deps task env (investigator.maxSteps + investigator.maxRewrites) = .ended run result ∧
      run.steps ≤ investigator.maxSteps + investigator.maxRewrites ∧ (result = .ok () → run.final.isSome) :=
  ⟨by decide, (bounded_iff investigator (by decide)).2 (List.cons_ne_nil _ _)⟩

/-- A model that keeps asking for queries keeps the coordinator going, at 900 tokens a step. -/
theorem coordinator_unbounded : ¬ ∀ (spec : AgentSpec Json), 1 ≤ spec.maxSteps → ∀ deps task env, ∃ run result,
    runAgent spec deps task env (spec.maxSteps + spec.maxRewrites) = .ended run result := by
  intro h
  have hused : ∀ k < coordinator.maxSteps + coordinator.maxRewrites, (900 * k : ℤ) < 1500000 := by decide
  obtain ⟨run', hrun⟩ :=
    runAgent_insistent coordinator rfl ⟨fun _ => none, fun _ => "", "", 1500000⟩ "" (fun k => 900 * k) hused
  obtain ⟨run, result, hended⟩ := h coordinator (by decide) ⟨fun _ => none, fun _ => "", "", 1500000⟩ ""
    fun k => insistent (900 * k)
  rw [hrun] at hended
  cases hended

end Blackboard.AgentLoop

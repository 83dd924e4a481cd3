import Blackboard.Proofs.Fencing
import Blackboard.Spec.Investigation

/-! What a step of an investigation does. `Move` lists what an attempt can do to the tables and
to itself; every invariant of the investigation is read off it, and off what others do. -/

namespace Blackboard.Agents

open Blackboard.Llm (LLMError)

theorem Agent.name_injective : Function.Injective Agent.name := by
  intro g g' h
  cases g with
  | investigator f =>
    cases g' with
    | investigator f' => cases f <;> cases f' <;> first | rfl | exact absurd h (by decide)
    | coordinator | synthesizer | solo => cases f <;> exact absurd h (by decide)
  | coordinator | synthesizer | solo =>
    cases g' with
    | investigator f' => cases f' <;> exact absurd h (by decide)
    | coordinator | synthesizer | solo => first | rfl | exact absurd h (by decide)

/-- The attempt waits for the agent, which stands at `t`. -/
def Attempt.Runs (a : Attempt) (g : Agent) (t : AgentTask) : Prop := g ∈ a.awaited ∧ a.tasks g = some t

theorem World.task?_eq_some {s : World} {k : ℕ} {g : Agent} {x : Attempt × AgentTask} :
    s.task? k g = some x ↔ s.attempts.get? k = some x.1 ∧ x.1.Runs g x.2 := by
  unfold World.task? Attempt.Runs
  rw [Option.bind_eq_some_iff]
  constructor
  · rintro ⟨a, ha, h⟩
    split_ifs at h with hg
    obtain ⟨t, ht, rfl⟩ := Option.map_eq_some_iff.mp h
    exact ⟨ha, hg, ht⟩
  · rintro ⟨ha, hg, ht⟩
    exact ⟨x.1, ha, by rw [if_pos hg, ht]; rfl⟩

/-- The tables after a step of attempt `k`, and the attempt. -/
inductive Move (setup : Setup) (s : World) (k : ℕ) (a : Attempt) : World → Attempt → Prop
  /-- It crashed, lost the job or the incident, or found nothing to do. -/
  | ended : Move setup s k a s { a with pc := .ended }
  | opened {i : Incident} {version priority : ℕ} : a.pc = .opening → i.state = .investigating →
      Move setup s k a { s with incident := i } { a with pc := .readingRuns, version, priority }
  | runsRead : a.pc = .readingRuns → Move setup s k a s { a with pc := .readingBoard, runs := s.store.runs }
  | boardReadSolo : a.pc = .readingBoard → a.config.mode = .single →
      Move setup s k a s ({ a with board := s.store.entries none }.await .soloing [.solo])
  | boardRead : a.pc = .readingBoard → a.config.mode ≠ .single →
      Move setup s k a s ({ a with board := s.store.entries none }.await .coordinating [.coordinator])
  | coordinated : a.pc = .coordinating → Move setup s k a s (a.await .investigating (INVESTIGATORS.map .investigator))
  | investigated : a.pc = .investigating → Move setup s k a s { a with pc := .rereadingRuns, tasks := fun _ => none }
  | runsReread : a.pc = .rereadingRuns → Move setup s k a s { a with pc := .rereadingBoard, runs := s.store.runs }
  | boardReread : a.pc = .rereadingBoard → Move setup s k a s { a with board := s.store.entries none }.synthesize
  | concluded {g : Agent} {es : Option (List (Entry Body))} : g ∈ a.awaited → g = .synthesizer ∨ g = .solo →
      a.returned? g = some es → Move setup s k a s (a.conclude es)
  | failed {g : Agent} {t : AgentTask} {why : Failure} : a.Runs g t → Move setup s k a s (a.failed why)
  | diagnosed (now : Time) {jobs : JobTable} {d : Diagnosis} : a.pc = .concluding ⟨some d, none⟩ →
      Jobs.holds a.job s.jobs = true →
      (jobs = s.jobs ∨ ∃ e, e.kind = .plan ∧ jobs = ((QueueOp.enqueue now e).apply s.jobs).1) →
      Move setup s k a { s with incident := Incidents.moved now .diagnosed s.incident, jobs } { a with pc := .ended }
  | escalated {now : Time} :
      Move setup s k a { s with incident := Incidents.moved now .escalated s.incident } { a with pc := .ended }
  | started {g : Agent} {t : AgentTask} {model promptVersion : String} : a.Runs g t → t.pc = .starting →
      Move setup s k a { s with store := s.store.startRun g.name model promptVersion }
        (a.setTask g { t with pc := .stepping })
  | exhausted {g : Agent} {t : AgentTask} {steps : ℕ} {why : Failure} : a.Runs g t → t.pc = .stepping →
      Move setup s k a s (a.setTask g ⟨{ t.run with steps }, .failing why⟩)
  | asked {g : Agent} {t : AgentTask} {steps : ℕ} {forceFinal : Bool} : a.Runs g t → t.pc = .stepping →
      Move setup s k a { s with asked := s.asked ++ [(k, g)] } (a.setTask g ⟨{ t.run with steps }, .asking forceFinal⟩)
  | answered {g : Agent} {t : AgentTask} {forceFinal : Bool} {r : Except LLMError LLMResult} : a.Runs g t →
      t.pc = .asking forceFinal → (∀ x answer, r = .ok x → x.final = some (.ok answer) → answer.fits g = true) →
      Move setup s k a s (a.setTask g { t with pc := .recording forceFinal r })
  | recorded {g : Agent} {t : AgentTask} {forceFinal : Bool} {r : LLMResult} : a.Runs g t →
      t.pc = .recording forceFinal (.ok r) →
      Move setup s k a { s with tokens := s.tokens + r.usage.total }
        (a.setTask g
          (afterStep setup (a.config.spec g) g { t.run with usage := added t.run.usage r.usage } forceFinal r))
  | refused {g : Agent} {t : AgentTask} {forceFinal : Bool} {e : LLMError} : a.Runs g t →
      t.pc = .recording forceFinal (.error e) → Move setup s k a s (a.setTask g { t with pc := .failing (.llmError e) })
  | called {g : Agent} {t : AgentTask} {calls calls' : List (ToolAction × Option CallOutcome)}
    {evidence : List EvidenceRow} :
      a.Runs g t → t.pc = .calling calls → (evidence = s.evidence ∨ ∃ row, evidence = insertEvidence s.evidence row) →
      Move setup s k a { s with evidence } (a.setTask g { t with pc := .calling calls' })
  | gathered {g : Agent} {t : AgentTask} {calls : List (ToolAction × Option CallOutcome)}
      {outcomes : List (ToolAction × CallOutcome)} : a.Runs g t → t.pc = .calling calls →
      Move setup s k a { s with shown := s.shown ++ (evidenceIn outcomes).map fun id => (k, g, id) }
        (a.setTask g ⟨t.run.gathered outcomes, .stepping⟩)
  | checked {g : Agent} {t : AgentTask} {answer : Answer} : a.Runs g t → t.pc = .checking answer →
      Move setup s k a s (a.setTask g (afterCheck (a.config.spec g) t.run
        (check (evidenceTools setup.incidentId s.evidence) (a.citable t) answer)))
  | finished {g : Agent} {t : AgentTask} {answer : Answer} : a.Runs g t → t.pc = .finishing answer →
      Jobs.holds a.job s.jobs = true →
      Move setup s k a (s.finishRun k g t.run answer)
        (a.setTask g { t with pc := .returned (some (entriesOf g answer)) })
  | gaveUp {g : Agent} {t : AgentTask} {why : Failure} {pc : TaskPc} : a.Runs g t → t.pc = .failing why →
      pc = .raised why ∨ pc = .returned none →
      Move setup s k a { s with store := s.store.failRun g.name 0 why.error } (a.setTask g { t with pc })

namespace World

variable {setup : Setup} {s s' : World} {k : ℕ} {a : Attempt}

theorem set_attempts (s : World) (k : ℕ) (a : Attempt) : (s.set k a).attempts = s.attempts.modify k fun _ => a := rfl

/-- A transaction of attempt `k` that commits, or ends the attempt. -/
theorem fenced_move {f : World → World}
    (h : Jobs.holds a.job s.jobs = true → ∃ u a', f s = u.set k a' ∧ Move setup s k a u a') :
    ∃ u a', s.fenced k a f = u.set k a' ∧ Move setup s k a u a' := by
  unfold fenced
  split_ifs with hh
  · exact h hh
  · exact ⟨s, _, rfl, .ended⟩

theorem move_move {now : Time} {x y : State} {version : ℕ} {f : World → World}
    (h : Incidents.isAt x version s.incident = true →
      ∃ u a', f { s with incident := Incidents.moved now y s.incident } = u.set k a' ∧ Move setup s k a u a') :
    ∃ u a', s.move k a now x y version f = u.set k a' ∧ Move setup s k a u a' := by
  unfold move
  split_ifs with hi
  · exact h hi
  · exact ⟨s, _, rfl, .ended⟩

theorem opened_move {now : Time} (hpc : a.pc = .opening) :
    ∃ u a', s.opened k a now = u.set k a' ∧ Move setup s k a u a' := by
  unfold opened
  split_ifs with h1 h2
  · exact move_move fun _ => ⟨_, _, rfl, .opened hpc rfl⟩
  · exact ⟨_, _, rfl, .opened hpc h2⟩
  · exact ⟨s, _, rfl, .ended⟩

theorem closed_move {now : Time} {o : Outcome} (hpc : a.pc = .concluding o) (hh : Jobs.holds a.job s.jobs = true) :
    ∃ u a', s.closed setup k a now o = u.set k a' ∧ Move setup s k a u a' := by
  obtain ⟨diagnosis, escalate⟩ := o
  unfold closed
  split
  case h_1 d he hd =>
    obtain rfl : escalate = none := he
    obtain rfl : diagnosis = some d := hd
    refine move_move fun _ => ?_
    dsimp only
    split_ifs with hauto
    · split
      case h_1 jobs id hj =>
        refine ⟨_, _, rfl, .diagnosed now hpc hh (.inr
          ⟨Handlers.job setup.incidentId s.incident.tenantId a.priority .plan setup.settings, rfl, ?_⟩)⟩
        simp only [QueueOp.apply, hj, Except.map, answer]
      case h_2 => exact ⟨s, _, rfl, .ended⟩
    · exact ⟨_, _, rfl, .diagnosed now hpc hh (.inl rfl)⟩
  case h_2 => exact move_move fun _ => ⟨_, _, rfl, .escalated⟩

theorem attemptNext_move {now : Time} (h : s.attemptNext setup k a now = some s') :
    ∃ u a', s' = u.set k a' ∧ Move setup s k a u a' := by
  cases hpc : a.pc <;> simp only [attemptNext, hpc] at h
  case opening =>
    obtain rfl := Option.some.inj h
    exact fenced_move fun _ => opened_move hpc
  case readingRuns =>
    obtain rfl := Option.some.inj h
    exact ⟨s, _, rfl, .runsRead hpc⟩
  case readingBoard =>
    obtain rfl := Option.some.inj h
    by_cases hm : a.config.mode = .single
    · simp only [if_pos hm]
      exact ⟨s, _, rfl, .boardReadSolo hpc hm⟩
    · simp only [if_neg hm]
      exact ⟨s, _, rfl, .boardRead hpc hm⟩
  case coordinating =>
    split_ifs at h
    obtain rfl := Option.some.inj h
    exact ⟨s, _, rfl, .coordinated hpc⟩
  case investigating =>
    split_ifs at h
    obtain rfl := Option.some.inj h
    exact ⟨s, _, rfl, .investigated hpc⟩
  case rereadingRuns =>
    obtain rfl := Option.some.inj h
    exact ⟨s, _, rfl, .runsReread hpc⟩
  case rereadingBoard =>
    obtain rfl := Option.some.inj h
    exact ⟨s, _, rfl, .boardReread hpc⟩
  case synthesizing cited =>
    obtain ⟨es, hes, rfl⟩ := Option.map_eq_some_iff.mp h
    exact ⟨s, _, rfl, .concluded (by simp [Attempt.awaited, hpc]) (.inl rfl) hes⟩
  case soloing =>
    obtain ⟨es, hes, rfl⟩ := Option.map_eq_some_iff.mp h
    exact ⟨s, _, rfl, .concluded (by simp [Attempt.awaited, hpc]) (.inr rfl) hes⟩
  case concluding o =>
    obtain rfl := Option.some.inj h
    exact fenced_move fun hh => closed_move hpc hh
  case ended => cases h

theorem taskNext_move {g : Agent} {t : AgentTask} (hr : a.Runs g t) (h : s.taskNext setup k a g t = some s') :
    ∃ u a', s' = u.set k a' ∧ Move setup s k a u a' := by
  cases hpc : t.pc <;> simp only [taskNext, hpc] at h
  case starting =>
    obtain rfl := Option.some.inj h
    exact fenced_move fun _ => ⟨_, _, rfl, .started hr hpc⟩
  case stepping =>
    split_ifs at h
    · obtain rfl := Option.some.inj h
      exact ⟨s, _, rfl, .exhausted hr hpc⟩
    · obtain rfl := Option.some.inj h
      exact ⟨_, _, rfl, .asked hr hpc⟩
  case recording forceFinal r =>
    cases r with
    | error e =>
      obtain rfl := Option.some.inj h
      exact ⟨s, _, rfl, .refused hr hpc⟩
    | ok r =>
      obtain rfl := Option.some.inj h
      exact ⟨_, _, rfl, .recorded hr hpc⟩
  case calling calls =>
    obtain ⟨outcomes, -, rfl⟩ := Option.map_eq_some_iff.mp h
    exact ⟨_, _, rfl, .gathered hr hpc⟩
  case checking answer =>
    obtain rfl := Option.some.inj h
    exact ⟨s, _, rfl, .checked hr hpc⟩
  case finishing answer =>
    obtain rfl := Option.some.inj h
    exact fenced_move fun hh => ⟨_, _, rfl, .finished hr hpc hh⟩
  case failing why =>
    obtain rfl := Option.some.inj h
    refine fenced_move fun _ => ⟨_, _, rfl, .gaveUp hr hpc ?_⟩
    split_ifs
    · exact .inl rfl
    · exact .inr rfl
  case asking => cases h
  case returned => cases h
  case raised => cases h

theorem taskCalled_move {g : Agent} {t : AgentTask} {calls : List (ToolAction × Option CallOutcome)} {i : ℕ}
    {o : CallOutcome} (hr : a.Runs g t) (hpc : t.pc = .calling calls)
    (h : s.taskCalled setup k a g t calls i o = some s') :
    ∃ u a', s' = u.set k a' ∧ Move setup s k a u a' := by
  unfold taskCalled at h
  split at h
  case h_2 => cases h
  case h_1 c _ =>
    cases o with
    | ok id =>
      dsimp only at h
      split_ifs at h
      obtain rfl := Option.some.inj h
      exact ⟨_, _, rfl, .called hr hpc (.inr ⟨_, rfl⟩)⟩
    | error =>
      obtain rfl := Option.some.inj h
      exact ⟨_, _, rfl, .called hr hpc (.inl rfl)⟩

/-- The step lemma: a move of an attempt, or what others do. -/
theorem step_cases {op : Op} (h : s.step setup op = some s') :
    (∃ k a u a', s.attempts.get? k = some a ∧ s' = u.set k a' ∧ Move setup s k a u a') ∨
      (∃ q, allowed q = true ∧ s' = s.queued setup q) ∨ s' = s ∨
      (∃ now toState, toState ≠ .diagnosed ∧ s' = { s with incident := Incidents.moved now toState s.incident }) ∨
      ∃ row, s' = { s with evidence := insertEvidence s.evidence row } := by
  cases op <;> simp only [step] at h
  case queue q =>
    split_ifs at h with hq
    exact .inr (.inl ⟨q, hq, (Option.some.inj h).symm⟩)
  case transition now m =>
    split at h
    · exact .inr (.inr (.inl (Option.some.inj h).symm))
    · split_ifs at h with hd
      · exact .inr (.inr (.inr (.inl ⟨now, m.toState, hd, (Option.some.inj h).symm⟩)))
      · exact .inr (.inr (.inl (Option.some.inj h).symm))
  case evidence row => exact .inr (.inr (.inr (.inr ⟨row, (Option.some.inj h).symm⟩)))
  case next k now =>
    obtain ⟨a, ha, h⟩ := Option.bind_eq_some_iff.mp h
    obtain ⟨u, a', rfl, hm⟩ := attemptNext_move h
    exact .inl ⟨k, a, u, a', ha, rfl, hm⟩
  case raised k g =>
    obtain ⟨x, hx, h⟩ := Option.bind_eq_some_iff.mp h
    obtain ⟨ha, hr⟩ := task?_eq_some.mp hx
    split at h
    · exact .inl ⟨k, x.1, s, _, ha, (Option.some.inj h).symm, .failed hr⟩
    · cases h
  case task k g =>
    obtain ⟨x, hx, h⟩ := Option.bind_eq_some_iff.mp h
    obtain ⟨ha, hr⟩ := task?_eq_some.mp hx
    obtain ⟨u, a', rfl, hm⟩ := taskNext_move hr h
    exact .inl ⟨k, x.1, u, a', ha, rfl, hm⟩
  case answer k g r =>
    obtain ⟨x, hx, h⟩ := Option.bind_eq_some_iff.mp h
    obtain ⟨ha, hr⟩ := task?_eq_some.mp hx
    split at h
    · rename_i forceFinal hpc
      split_ifs at h with hfits
      refine .inl ⟨k, x.1, s, _, ha, (Option.some.inj h).symm, .answered hr hpc ?_⟩
      rintro ⟨actions, final, usage⟩ answer rfl hfinal
      obtain rfl : final = some (.ok answer) := hfinal
      exact hfits
    · cases h
  case called k g i o =>
    obtain ⟨x, hx, h⟩ := Option.bind_eq_some_iff.mp h
    obtain ⟨ha, hr⟩ := task?_eq_some.mp hx
    split at h
    · rename_i calls hpc
      obtain ⟨u, a', rfl, hm⟩ := taskCalled_move hr hpc h
      exact .inl ⟨k, x.1, u, a', ha, rfl, hm⟩
    · cases h
  case crash k =>
    obtain ⟨a, ha, rfl⟩ := Option.map_eq_some_iff.mp h
    exact .inl ⟨k, a, s, _, ha, rfl, .ended⟩

end World

/-! The tables only grow. -/

theorem AgentTables.isDone_iff {B : Type} {s : AgentTables B} {agent : String} :
    s.isDone agent = true ↔ ∃ r ∈ s.runs, r.agent = agent ∧ r.status = .done := by
  simp [AgentTables.isDone]

theorem RunRow.openFor_iff {agent : String} {r : RunRow} :
    r.openFor agent = true ↔ r.agent = agent ∧ r.status ≠ .done := by
  simp [RunRow.openFor]

theorem mem_insertEvidence {evidence : List EvidenceRow} {row x : EvidenceRow} (h : x ∈ evidence) :
    x ∈ insertEvidence evidence row := by
  unfold insertEvidence
  split_ifs
  · exact h
  · exact List.mem_append_left _ h

structure Grows (s s' : World) : Prop where
  done : ∀ r ∈ s.store.runs, r.status = .done → r ∈ s'.store.runs
  runs : ∀ r ∈ s.store.runs, ∃ r' ∈ s'.store.runs, r'.agent = r.agent
  board : s.store.board <+: s'.store.board
  batches : s.batches <+: s'.batches
  evidence : ∀ row ∈ s.evidence, row ∈ s'.evidence
  shown : ∀ x ∈ s.shown, x ∈ s'.shown

theorem Grows.same {s s' : World} (hs : s'.store = s.store) (hb : s'.batches = s.batches)
    (he : ∀ x ∈ s.evidence, x ∈ s'.evidence) (hsh : ∀ x ∈ s.shown, x ∈ s'.shown) : Grows s s' :=
  ⟨fun r h _ => by rwa [hs], fun r h => ⟨r, by rwa [hs], rfl⟩, by rw [hs], by rw [hb], he, hsh⟩

theorem Grows.refl (s : World) : Grows s s := Grows.same rfl rfl (fun _ h => h) fun _ h => h

theorem Grows.trans {s t u : World} (h : Grows s t) (h' : Grows t u) : Grows s u := by
  refine ⟨fun r hr hd => h'.done r (h.done r hr hd) hd, fun r hr => ?_, h.board.trans h'.board,
    h.batches.trans h'.batches,
    fun x hx => h'.evidence x (h.evidence x hx), fun x hx => h'.shown x (h.shown x hx)⟩
  obtain ⟨r', hr', he⟩ := h.runs r hr
  obtain ⟨r'', hr'', he'⟩ := h'.runs r' hr'
  exact ⟨r'', hr'', he'.trans he⟩

/-- An UPDATE of the open rows of an agent that keeps its name. -/
theorem mem_updateRun {B : Type} (s : AgentTables B) (agent : String) {f : RunRow → RunRow}
    (hf : ∀ r, (f r).agent = r.agent) :
    (∀ r ∈ s.runs, r.status = .done → r ∈ (s.updateRun agent f).runs) ∧
      ∀ r ∈ s.runs, ∃ r' ∈ (s.updateRun agent f).runs, r'.agent = r.agent := by
  refine ⟨fun r hr hd => List.mem_map.mpr ⟨r, hr, if_neg ?_⟩, fun r hr => ⟨_, List.mem_map_of_mem hr, ?_⟩⟩
  · rw [RunRow.openFor_iff]
    exact fun h => h.2 hd
  · split_ifs
    · exact hf r
    · rfl

theorem Grows.startRun (s : World) (agent model promptVersion : String) :
    Grows s { s with store := s.store.startRun agent model promptVersion } := by
  unfold AgentTables.startRun
  split_ifs
  · obtain ⟨hd, hr⟩ := mem_updateRun s.store agent
      (f := fun r => { r with status := .running, model, promptVersion, steps := 0, result := [],
                              error := none }) fun _ => rfl
    exact { Grows.refl s with done := hd, runs := hr }
  · exact { Grows.refl s with
      done := fun r hr _ => List.mem_append_left _ hr, runs := fun r hr => ⟨r, List.mem_append_left _ hr, rfl⟩ }

theorem Grows.failRun (s : World) (agent : String) (steps : ℕ) (error : String) :
    Grows s { s with store := s.store.failRun agent steps error } := by
  obtain ⟨hd, hr⟩ := mem_updateRun s.store agent
    (f := fun r => { r with status := .failed, steps, error := some (error.take 2000).copy }) fun _ => rfl
  exact { Grows.refl s with done := hd, runs := hr }

theorem Grows.finishRun (s : World) (k : ℕ) (g : Agent) (run : AgentRun) (answer : Answer) :
    Grows s (s.finishRun k g run answer) := by
  unfold World.finishRun AgentTables.finishRun
  split_ifs
  · obtain ⟨hd, hr⟩ := mem_updateRun s.store g.name
      (f := fun r => { r with status := .done, steps := run.steps, result := run.summary ++ extraOf answer }) fun _ =>
        rfl
    exact { Grows.refl s with
      done := hd, runs := hr, board := List.prefix_append _ _, batches := List.prefix_append _ _ }
  · exact Grows.refl s

theorem Move.grows {setup : Setup} {s u : World} {k : ℕ} {a a' : Attempt} (h : Move setup s k a u a') : Grows s u := by
  induction h
  case started => exact Grows.startRun ..
  case finished => exact Grows.finishRun ..
  case gaveUp => exact Grows.failRun ..
  case called he =>
    refine Grows.same rfl rfl (fun x hx => ?_) fun _ h => h
    rcases he with rfl | ⟨row, rfl⟩
    · exact hx
    · exact mem_insertEvidence hx
  case gathered => exact Grows.same rfl rfl (fun _ h => h) fun x hx => List.mem_append_left _ hx
  all_goals exact Grows.same rfl rfl (fun _ h => h) fun _ h => h

theorem World.queued_eq (setup : Setup) (s : World) (q : QueueOp) :
    ∃ jobs attempts, s.queued setup q = { s with jobs, attempts } := by
  unfold World.queued
  dsimp only
  split
  · split_ifs
    · exact ⟨_, _, rfl⟩
    · exact ⟨_, s.attempts, rfl⟩
  · exact ⟨_, s.attempts, rfl⟩

theorem World.step_grows {setup : Setup} {s s' : World} {op : Op} (h : s.step setup op = some s') : Grows s s' := by
  rcases step_cases h with ⟨k, a, u, a', -, rfl, hm⟩ | ⟨q, -, rfl⟩ | rfl | ⟨now, x, -, rfl⟩ | ⟨row, rfl⟩
  · exact hm.grows.trans (Grows.same rfl rfl (fun _ h => h) fun _ h => h)
  · obtain ⟨jobs, attempts, hq⟩ := queued_eq setup s q
    rw [hq]
    exact Grows.same rfl rfl (fun _ h => h) fun _ h => h
  · exact Grows.refl _
  · exact Grows.same rfl rfl (fun _ h => h) fun _ h => h
  · exact Grows.same rfl rfl (fun x hx => mem_insertEvidence hx) fun _ h => h

end Blackboard.Agents

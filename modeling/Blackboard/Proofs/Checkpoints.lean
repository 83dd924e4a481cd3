import Blackboard.Proofs.Investigation

/-! Checkpoints. Whatever attempts overlap, an agent finishes once: its row turns done and its
entries come in one transaction, and whoever saw the row done reads them all. -/

namespace Blackboard.Agents

/-- What the agent's `finish_run` wrote. -/
def World.wrote (s : World) (g : Agent) : List (Entry Body) :=
  (s.batches.filter fun b => b.agent = g).flatMap Batch.entries

def World.isDone (s : World) (g : Agent) : Bool := s.store.isDone g.name

/-- The rows and the blackboard say what was written. -/
structure Recorded (s : World) : Prop where
  runs : (s.store.runs.map RunRow.agent).Nodup
  agents : (s.batches.map Batch.agent).Nodup
  done : ∀ g, s.isDone g = true ↔ ∃ b ∈ s.batches, b.agent = g
  board : s.store.board = s.batches.flatMap Batch.entries
  authors : ∀ b ∈ s.batches, ∀ e ∈ b.entries, e.author = b.agent.name

theorem author_entriesOf {g : Agent} {answer : Answer} {e : Entry Body} (h : e ∈ entriesOf g answer) :
    e.author = g.name := by
  cases answer <;> simp only [entriesOf, List.mem_singleton, List.mem_map] at h
  case report =>
    obtain ⟨f, -, rfl⟩ := h
    rfl
  all_goals rw [h]

namespace Recorded

theorem board_filter {s : World} (h : Recorded s) (g : Agent) :
    (s.store.board.filter fun e => e.author = g.name) = s.wrote g := by
  have hauthors := h.authors
  rw [h.board, World.wrote]
  generalize s.batches = batches at hauthors
  induction batches with
  | nil => rfl
  | cons b batches ih =>
    have ih := ih fun b' hb' => hauthors b' (List.mem_cons_of_mem _ hb')
    have hb := hauthors b List.mem_cons_self
    rw [List.flatMap_cons, List.filter_append, ih, List.filter_cons]
    by_cases hg : b.agent = g
    · rw [List.filter_eq_self.mpr fun e he => by rw [hb e he, hg]; simp]
      simp [hg]
    · have hne : b.agent.name ≠ g.name := fun hn => hg (Agent.name_injective hn)
      rw [List.filter_eq_nil_iff.mpr fun e he => by rw [hb e he]; simpa using hne]
      simp [hg]

/-- The batch of an agent that is done is the one there is. -/
theorem filter_batches {s : World} (h : Recorded s) {b : Batch} (hb : b ∈ s.batches) :
    (s.batches.filter fun b' => b'.agent = b.agent) = [b] := by
  have hagents := h.agents
  generalize s.batches = batches at hb hagents
  induction batches with
  | nil => cases hb
  | cons c batches ih =>
    simp only [List.map_cons, List.nodup_cons, List.mem_map, not_exists, not_and] at hagents
    rcases List.mem_cons.mp hb with rfl | hb
    · rw [List.filter_cons_of_pos (by simp), List.filter_eq_nil_iff.mpr]
      intro c hc
      simpa using hagents.1 c hc
    · rw [List.filter_cons_of_neg, ih hb hagents.2]
      simpa using fun hc => hagents.1 b hb hc.symm

theorem wrote_eq {s : World} (h : Recorded s) {b : Batch} (hb : b ∈ s.batches) : s.wrote b.agent = b.entries := by
  rw [World.wrote, h.filter_batches hb, List.flatMap_cons, List.flatMap_nil, List.append_nil]

theorem filter_eq_nil {s : World} (h : Recorded s) {g : Agent} (hg : s.isDone g = false) :
    (s.batches.filter fun b => b.agent = g) = [] := by
  refine List.filter_eq_nil_iff.mpr fun b hb => ?_
  simp only [decide_eq_true_eq]
  exact fun he => by rw [(h.done g).mpr ⟨b, hb, he⟩] at hg; cases hg

/-- The rows of an agent that is done are all done. -/
theorem not_open {s : World} (h : Recorded s) {g : Agent} (hg : s.isDone g = true) :
    s.store.runs.any (RunRow.openFor g.name) = false := by
  obtain ⟨r, hr, ha, hd⟩ := AgentTables.isDone_iff.mp hg
  rw [List.any_eq_false]
  intro r' hr' ho
  rw [RunRow.openFor_iff] at ho
  obtain rfl := List.inj_on_of_nodup_map h.runs hr hr' (ha.trans ho.1.symm)
  exact ho.2 hd

end Recorded

theorem Grows.isDone {s u : World} (h : Grows s u) {g : Agent} (hg : s.isDone g = true) : u.isDone g = true := by
  obtain ⟨r, hr, ha, hd⟩ := AgentTables.isDone_iff.mp hg
  exact AgentTables.isDone_iff.mpr ⟨r, h.done r hr hd, ha, hd⟩

/-- What an agent wrote, it wrote once and for all. -/
theorem Grows.wrote {s u : World} (h : Grows s u) (hs : Recorded s) (hu : Recorded u) {g : Agent}
    (hg : s.isDone g = true) :
    u.wrote g = s.wrote g := by
  obtain ⟨b, hb, rfl⟩ := (hs.done g).mp hg
  rw [hs.wrote_eq hb, hu.wrote_eq (h.batches.subset hb)]

/-- An UPDATE of open rows to a status that is not done. -/
theorem isDone_updateRun {B : Type} {s : AgentTables B} {agent agent' : String} {f : RunRow → RunRow}
    (hf : ∀ r, (f r).agent = r.agent ∧ (f r).status ≠ .done) :
    (s.updateRun agent f).isDone agent' = s.isDone agent' := by
  rw [Bool.eq_iff_iff, AgentTables.isDone_iff, AgentTables.isDone_iff]
  simp only [AgentTables.updateRun, List.mem_map]
  constructor
  · rintro ⟨_, ⟨r, hr, rfl⟩, ha, hd⟩
    split_ifs at ha hd
    · exact absurd hd (hf r).2
    · exact ⟨r, hr, ha, hd⟩
  · rintro ⟨r, hr, ha, hd⟩
    refine ⟨r, ⟨r, hr, if_neg ?_⟩, ha, hd⟩
    rw [RunRow.openFor_iff]
    exact fun ho => ho.2 hd

theorem nodup_updateRun {B : Type} {s : AgentTables B} {agent : String} {f : RunRow → RunRow}
    (hf : ∀ r, (f r).agent = r.agent) (h : (s.runs.map RunRow.agent).Nodup) :
    ((s.updateRun agent f).runs.map RunRow.agent).Nodup := by
  have heq : (s.updateRun agent f).runs.map RunRow.agent = s.runs.map RunRow.agent := by
    rw [AgentTables.updateRun, List.map_map]
    refine List.map_congr_left fun r _ => ?_
    simp only [Function.comp_apply]
    split_ifs
    · exact hf r
    · rfl
  rwa [heq]

namespace Recorded

variable {s u : World}

theorem same (h : Recorded s) (hs : u.store = s.store) (hb : u.batches = s.batches) : Recorded u := by
  obtain ⟨h1, h2, h3, h4, h5⟩ := h
  exact ⟨by rwa [hs], by rwa [hb], fun g => by rw [World.isDone, hs, hb]; exact h3 g, by rw [hs, hb, h4], by rwa [hb]⟩

/-- Rows change, none to or from done. -/
theorem rows (h : Recorded s) {store : AgentTables Body} (hn : (store.runs.map RunRow.agent).Nodup)
    (hd : ∀ agent, store.isDone agent = s.store.isDone agent) (hb : store.board = s.store.board) :
    Recorded { s with store } :=
  ⟨hn, h.agents, fun g => by rw [World.isDone, hd]; exact h.done g, hb.trans h.board, h.authors⟩

theorem startRun (h : Recorded s) (agent model promptVersion : String) :
    Recorded { s with store := s.store.startRun agent model promptVersion } := by
  unfold AgentTables.startRun
  split_ifs with ha
  · exact h.rows (nodup_updateRun (fun _ => rfl) h.runs) (fun _ => isDone_updateRun fun _ => ⟨rfl, by simp⟩) rfl
  · refine h.rows ?_ (fun agent' => ?_) rfl
    · rw [List.map_append, List.nodup_append]
      refine ⟨h.runs, by simp, ?_⟩
      intro x hx y hy he
      obtain ⟨r, hr, rfl⟩ := List.mem_map.mp hx
      simp only [List.map_cons, List.map_nil, List.mem_singleton] at hy
      exact ha (List.any_eq_true.mpr ⟨r, hr, by simpa using he.trans hy⟩)
    · simp [AgentTables.isDone]

theorem failRun (h : Recorded s) (agent : String) (steps : ℕ) (error : String) :
    Recorded { s with store := s.store.failRun agent steps error } :=
  h.rows (nodup_updateRun (fun _ => rfl) h.runs) (fun _ => isDone_updateRun fun _ => ⟨rfl, by simp⟩) rfl

/-- The rows after `finish_run` took an open row. -/
theorem isDone_finishRun {store : AgentTables Body} {agent : String} {steps : ℕ} {result : List (String × Json)}
    {entries : List (Entry Body)} (ho : store.runs.any (RunRow.openFor agent) = true) (agent' : String) :
    (store.finishRun agent steps result entries).isDone agent' = true ↔ store.isDone agent' = true ∨
    agent' = agent := by
  obtain ⟨r, hr, hopen⟩ := List.any_eq_true.mp ho
  rw [AgentTables.finishRun, if_pos ho, AgentTables.isDone_iff, AgentTables.isDone_iff]
  simp only [AgentTables.updateRun, List.mem_map]
  constructor
  · rintro ⟨_, ⟨r', hr', rfl⟩, ha, hd⟩
    split_ifs at ha hd with ho'
    · exact .inr (ha.symm.trans (RunRow.openFor_iff.mp ho').1)
    · exact .inl ⟨r', hr', ha, hd⟩
  · rintro (⟨r', hr', ha, hd⟩ | rfl)
    · exact ⟨r', ⟨r', hr', if_neg fun ho' => (RunRow.openFor_iff.mp ho').2 hd⟩, ha, hd⟩
    · exact ⟨_, ⟨r, hr, if_pos hopen⟩, (RunRow.openFor_iff.mp hopen).1, rfl⟩

theorem finishRun (h : Recorded s) (k : ℕ) (g : Agent) (run : AgentRun) (answer : Answer) :
    Recorded (s.finishRun k g run answer) := by
  by_cases ho : s.store.runs.any (RunRow.openFor g.name) = true
  · have hnew : s.isDone g = false := by
      rw [← Bool.not_eq_true]
      exact fun hd => by rw [h.not_open hd] at ho; cases ho
    have hstore : (s.finishRun k g run answer).store.board = s.store.board ++ entriesOf g answer := by
      simp only [World.finishRun, AgentTables.finishRun, if_pos ho]
    have hbatches : (s.finishRun k g run answer).batches = s.batches ++ [⟨k, g, entriesOf g answer⟩] := by
      simp only [World.finishRun, if_pos ho]
    refine ⟨?_, ?_, fun g' => ?_, ?_, ?_⟩
    · simp only [World.finishRun, AgentTables.finishRun, if_pos ho]
      exact nodup_updateRun (fun _ => rfl) h.runs
    · rw [hbatches, List.map_append, List.nodup_append]
      refine ⟨h.agents, by simp, ?_⟩
      intro x hx y hy he
      obtain ⟨b, hb, rfl⟩ := List.mem_map.mp hx
      simp only [List.map_cons, List.map_nil, List.mem_singleton] at hy
      rw [(h.done g).mpr ⟨b, hb, he.trans hy⟩] at hnew
      cases hnew
    · rw [hbatches]
      refine (isDone_finishRun ho g'.name).trans ?_
      simp only [List.mem_append, List.mem_singleton, or_and_right, exists_or, exists_eq_left]
      exact or_congr (h.done g') ⟨fun he => (Agent.name_injective he).symm, fun he => by rw [he]⟩
    · rw [hstore, hbatches, h.board, List.flatMap_append, List.flatMap_cons, List.flatMap_nil, List.append_nil]
    · intro b hb e he
      rw [hbatches, List.mem_append, List.mem_singleton] at hb
      rcases hb with hb | rfl
      · exact h.authors b hb e he
      · exact author_entriesOf he
  · refine h.same ?_ ?_
    · simp only [World.finishRun, AgentTables.finishRun, if_neg ho]
    · simp only [World.finishRun, if_neg ho]

end Recorded

theorem Move.keepsRecorded {setup : Setup} {s u : World} {k : ℕ} {a a' : Attempt} (h : Move setup s k a u a')
    (hs : Recorded s) :
    Recorded u := by
  induction h
  case started => exact hs.startRun ..
  case finished => exact hs.finishRun ..
  case gaveUp => exact hs.failRun ..
  all_goals exact hs.same rfl rfl

theorem World.step_recorded {setup : Setup} {s s' : World} {op : Op} (h : s.step setup op = some s') (hs : Recorded s) :
    Recorded s' := by
  rcases step_cases h with ⟨k, a, u, a', -, rfl, hm⟩ | ⟨q, -, rfl⟩ | rfl | ⟨now, x, -, rfl⟩ | ⟨row, rfl⟩
  · exact (hm.keepsRecorded hs).same rfl rfl
  · obtain ⟨jobs, attempts, hq⟩ := queued_eq setup s q
    rw [hq]
    exact hs.same rfl rfl
  · exact hs
  · exact hs.same rfl rfl
  · exact hs.same rfl rfl

/-! Attempts. What one has found done, it does not ask again. -/

/-- It has no snapshot yet, or not of both tables. -/
def AttemptPc.isReading : AttemptPc → Bool
  | .opening | .readingRuns | .readingBoard | .rereadingRuns | .rereadingBoard => true
  | _ => false

structure Sees (s : World) (a : Attempt) : Prop where
  done : ∀ g, a.found g = true → s.isDone g = true
  board : a.awaited ≠ [] → ∀ g, a.found g = true → (a.board.filter fun e => e.author = g.name) = s.wrote g
  tasks : ∀ g t, a.found g = true → a.tasks g = some t → t.pc = .returned (some (s.wrote g))
  reading : a.pc.isReading = true → ∀ g, a.tasks g = none

namespace Sees

variable {s u : World} {a : Attempt}

theorem grows (h : Sees s a) (hg : Grows s u) (hs : Recorded s) (hu : Recorded u) : Sees u a :=
  ⟨fun g hf => hg.isDone (h.done g hf), fun ha g hf => by rw [h.board ha g hf, hg.wrote hs hu (h.done g hf)],
    fun g t hf ht => by rw [h.tasks g t hf ht, hg.wrote hs hu (h.done g hf)], h.reading⟩

/-- It goes where it waits for no agent. -/
theorem goto (h : Sees s a) {a' : Attempt} (hruns : a'.runs = a.runs) (htasks : a'.tasks = a.tasks)
    (hw : a'.awaited = []) (hr : a'.pc.isReading = true → a.pc.isReading = true) : Sees s a' := by
  have hfound : ∀ g, a'.found g = a.found g := fun g => by rw [Attempt.found, hruns]; rfl
  refine ⟨fun g hf => h.done g (hfound g ▸ hf), fun ha => absurd hw ha, fun g t hf ht => ?_, fun hp g => ?_⟩
  · rw [htasks] at ht
    exact h.tasks g t (hfound g ▸ hf) ht
  · rw [htasks]
    exact h.reading (hr hp) g

theorem readRuns {pc : AttemptPc} (hpc : pc = .readingBoard ∨ pc = .rereadingBoard)
    (ht : ∀ g, a.tasks g = none) : Sees s { a with pc, runs := s.store.runs } := by
  refine ⟨fun _ hf => hf, fun ha => ?_, fun g t _ hg => ?_, fun _ => ht⟩
  · rcases hpc with rfl | rfl <;> exact absurd rfl ha
  · have hg : a.tasks g = some t := hg
    rw [ht g] at hg
    cases hg

/-- The agents of a phase start; those found done have returned what they wrote. -/
theorem await (h : Sees s a) {pc : AttemptPc} {gs : List Agent} (hp : pc.isReading = false)
    (hb : ∀ g, a.found g = true → (a.board.filter fun e => e.author = g.name) = s.wrote g) :
    Sees s (a.await pc gs) := by
  refine ⟨h.done, fun _ => hb, fun g t hf ht => ?_, fun hr => ?_⟩
  · have hf : a.found g = true := hf
    simp only [Attempt.await, Option.ite_none_right_eq_some, Option.some.injEq] at ht
    rw [← ht.2, Attempt.once, if_pos hf, hb g hf]
  · exact absurd hr (by simp [Attempt.await, hp])

theorem entries_none (s : World) : s.store.entries none = s.store.board := by
  rw [AgentTables.entries, List.filter_eq_self]
  simp

/-- The blackboard is read. -/
theorem readBoard (h : Sees s a) (hs : Recorded s) (hp : a.pc.isReading = true) {pc : AttemptPc} {gs : List Agent}
    (hn : pc.isReading = false) : Sees s ({ a with board := s.store.entries none }.await pc gs) := by
  have hb : ∀ g, ((s.store.entries none).filter fun e => e.author = g.name) = s.wrote g := fun g => by
    rw [entries_none, hs.board_filter]
  have hread : Sees s { a with board := s.store.entries none } := by
    refine h.goto rfl rfl ?_ fun _ => hp
    unfold Attempt.awaited
    cases hpc : a.pc <;> rw [hpc] at hp <;> first | rfl | cases hp
  exact hread.await hn fun g _ => hb g

theorem setTask (h : Sees s a) {g : Agent} {t t' : AgentTask} (hr : a.Runs g t) (hn : ∀ es, t.pc ≠ .returned es) :
    Sees s (a.setTask g t') := by
  refine ⟨h.done, h.board, fun g' t'' hf ht => ?_, fun hp g' => ?_⟩
  · have hf : a.found g' = true := hf
    simp only [Attempt.setTask] at ht
    split_ifs at ht with he
    · subst he
      exact absurd (h.tasks g' t hf hr.2) (hn _)
    · exact h.tasks g' t'' hf ht
  · have := h.reading hp g
    rw [hr.2] at this
    cases this

end Sees

theorem Move.keepsSees {setup : Setup} {s u : World} {k : ℕ} {a a' : Attempt} (h : Move setup s k a u a')
    (hu : Recorded u) (ha : Sees u a) : Sees u a' := by
  induction h
  case ended => exact ha.goto rfl rfl rfl fun h => by cases h
  case opened hpc _ => exact ha.goto rfl rfl rfl fun _ => by rw [hpc]; rfl
  case runsRead hpc => exact .readRuns (.inl rfl) (ha.reading (by rw [hpc]; rfl))
  case boardReadSolo hpc _ => exact ha.readBoard hu (by rw [hpc]; rfl) rfl
  case boardRead hpc _ => exact ha.readBoard hu (by rw [hpc]; rfl) rfl
  case coordinated hpc => exact ha.await rfl (ha.board (by simp [Attempt.awaited, hpc]))
  case investigated hpc =>
    exact ⟨ha.done, fun hw => absurd rfl hw, fun _ _ _ ht => (by cases ht), fun _ _ => rfl⟩
  case runsReread hpc => exact .readRuns (.inr rfl) (ha.reading (by rw [hpc]; rfl))
  case boardReread hpc =>
    unfold Attempt.synthesize
    split
    · exact ha.goto rfl rfl rfl fun h => by cases h
    · exact ha.readBoard hu (by rw [hpc]; rfl) rfl
  case concluded =>
    unfold Attempt.conclude
    split
    · exact ha.goto rfl rfl rfl fun h => by cases h
    · exact ha.goto rfl rfl rfl fun h => by cases h
  case failed why _ =>
    cases why <;> simp only [Attempt.failed]
    case budgetExceeded => exact ha.goto rfl rfl rfl fun h => by cases h
    case llmError =>
      split_ifs
      · exact ha.goto rfl rfl rfl fun h => by cases h
      · exact ha.goto rfl rfl rfl fun h => by cases h
    case agentFailed => exact ha.goto rfl rfl rfl fun h => by cases h
  case diagnosed => exact ha.goto rfl rfl rfl fun h => by cases h
  case escalated => exact ha.goto rfl rfl rfl fun h => by cases h
  all_goals exact ha.setTask (by assumption) (by simp_all)

/-- The invariant of the checkpoints. -/
structure Checkpointed (s : World) : Prop where
  recorded : Recorded s
  sees : ∀ k a, s.attempts.get? k = some a → Sees s a

theorem Checkpointed.fresh (incident : Incident) (evidence : List EvidenceRow) :
    Checkpointed (.fresh incident evidence) :=
  ⟨⟨List.nodup_nil, List.nodup_nil, fun _ => by simp [World.isDone, AgentTables.isDone, World.fresh], rfl,
    fun b hb => absurd hb List.not_mem_nil⟩, fun k a ha => by simp [World.fresh] at ha⟩

theorem World.get?_set {s : World} {k j : ℕ} {a' b : Attempt} (h : (s.set k a').attempts.get? j = some b) :
    j = k ∧ b = a' ∨ j ≠ k ∧ s.attempts.get? j = some b := by
  rw [set_attempts, Table.get?_modify] at h
  split_ifs at h with hj
  · obtain ⟨-, -, rfl⟩ := Option.map_eq_some_iff.mp h
    exact .inl ⟨hj, rfl⟩
  · exact .inr ⟨hj, h⟩

/-- What a queue operation makes of the attempts: a claim of the investigation begins one. -/
theorem World.queued_attempts {setup : Setup} {s : World} {q : QueueOp} {j : ℕ} {b : Attempt}
    (h : (s.queued setup q).attempts.get? j = some b) :
    s.attempts.get? j = some b ∨ ∃ job, j = s.attempts.size ∧ b = { job, config := setup.config j } ∧
      (q.apply s.jobs).2 = .claimed (some job) ∧ isOurs setup job = true := by
  unfold queued at h
  dsimp only at h
  split at h
  case h_2 => exact .inl h
  case h_1 job hjob =>
    split_ifs at h with ho
    · rw [Table.get?_insert] at h
      split_ifs at h with hj
      · exact .inr ⟨job, hj, by rw [hj]; exact (Option.some.inj h).symm, hjob, ho⟩
      · exact .inl h
    · exact .inl h

theorem Move.attempts {setup : Setup} {s u : World} {k : ℕ} {a a' : Attempt} (h : Move setup s k a u a') :
    u.attempts = s.attempts := by
  induction h <;> rfl

theorem World.step_checkpointed {setup : Setup} {s s' : World} {op : Op} (h : s.step setup op = some s')
    (hs : Checkpointed s) :
    Checkpointed s' := by
  have hrec := step_recorded h hs.recorded
  refine ⟨hrec, fun j b hb => ?_⟩
  have hstay : s.attempts.get? j = some b → Sees s' b :=
    fun hj => (hs.sees j b hj).grows (step_grows h) hs.recorded hrec
  rcases step_cases h with ⟨k, a, u, a', ha, rfl, hm⟩ | ⟨q, -, rfl⟩ | rfl | ⟨now, x, -, rfl⟩ | ⟨row, rfl⟩
  · rcases get?_set hb with ⟨rfl, rfl⟩ | ⟨-, hj⟩
    · have hu := hm.keepsRecorded hs.recorded
      have := hm.keepsSees hu ((hs.sees j a ha).grows hm.grows hs.recorded hu)
      exact ⟨this.done, this.board, this.tasks, this.reading⟩
    · exact hstay (hm.attempts ▸ hj)
  · rcases queued_attempts hb with hj | ⟨job, -, rfl, -⟩
    · exact hstay hj
    · exact ⟨fun _ hf => Bool.noConfusion hf, fun hw => absurd rfl hw, fun _ _ _ ht => (by cases ht),
        fun _ _ => rfl⟩
  · exact hstay hb
  · exact hstay hb
  · exact hstay hb

theorem Move.runs {setup : Setup} {s u : World} {k : ℕ} {a a' : Attempt} (h : Move setup s k a u a') :
    a'.runs = a.runs ∨ a'.runs = s.store.runs := by
  induction h
  case runsRead => exact .inr rfl
  case runsReread => exact .inr rfl
  case boardReread =>
    unfold Attempt.synthesize
    split <;> exact .inl rfl
  all_goals exact .inl rfl

theorem Move.found {setup : Setup} {s u : World} {k : ℕ} {a a' : Attempt} (h : Move setup s k a u a')
    (ha : Sees s a) {g : Agent} (hf : a.found g = true) : a'.found g = true := by
  rw [Attempt.found]
  rcases h.runs with hr | hr <;> rw [hr]
  · exact hf
  · exact ha.done g hf

/-- The model is asked for an agent that stands at the top of its loop. -/
theorem Move.asked_cases {setup : Setup} {s u : World} {k : ℕ} {a a' : Attempt} (h : Move setup s k a u a') :
    u.asked = s.asked ∨ ∃ g t, a.Runs g t ∧ t.pc = .stepping ∧ u.asked = s.asked ++ [(k, g)] := by
  induction h
  case asked g t _ _ hr hpc => exact .inr ⟨g, t, hr, hpc, rfl⟩
  all_goals exact .inl rfl

/-- An attempt is still there, and the agents it found done are not asked again. -/
def Settled (s s' : World) : Prop :=
  ∀ k a, s.attempts.get? k = some a → ∃ a', s'.attempts.get? k = some a' ∧
    ∀ g, a.found g = true → a'.found g = true ∧ s'.asked.count (k, g) = s.asked.count (k, g)

theorem Settled.refl (s : World) : Settled s s := fun _ a h => ⟨a, h, fun _ hf => ⟨hf, rfl⟩⟩

theorem Settled.trans {s t u : World} (h : Settled s t) (h' : Settled t u) : Settled s u := by
  intro k a ha
  obtain ⟨b, hb, hfound⟩ := h k a ha
  obtain ⟨c, hc, hfound'⟩ := h' k b hb
  refine ⟨c, hc, fun g hf => ?_⟩
  obtain ⟨hf', hcount⟩ := hfound g hf
  obtain ⟨hf'', hcount'⟩ := hfound' g hf'
  exact ⟨hf'', hcount'.trans hcount⟩

theorem Move.settled {setup : Setup} {s u : World} {k : ℕ} {a a' : Attempt} (h : Move setup s k a u a')
    (ha : s.attempts.get? k = some a) (hs : Sees s a) : Settled s (u.set k a') := by
  have hcount : ∀ j g, (j = k → a.found g = true) → u.asked.count (j, g) = s.asked.count (j, g) := by
    intro j g hf
    rcases h.asked_cases with he | ⟨g', t, hr, hpc, he⟩
    · rw [he]
    · rw [he, List.count_append, List.count_singleton, if_neg, Nat.add_zero]
      simp only [beq_iff_eq, Prod.mk.injEq, not_and]
      rintro rfl rfl
      have hpc' := hs.tasks g' t (hf rfl) hr.2
      rw [hpc] at hpc'
      cases hpc'
  intro j b hb
  by_cases hj : j = k
  · subst hj
    obtain rfl : a = b := by rw [ha] at hb; exact Option.some.inj hb
    refine ⟨a', by rw [World.set_attempts, h.attempts, Table.get?_modify_self, ha]; rfl,
      fun g hf => ⟨h.found hs hf, ?_⟩⟩
    exact hcount j g fun _ => hf
  · refine ⟨b, by rw [World.set_attempts, h.attempts, Table.get?_modify_ne _ _ hj, hb], fun g hf => ⟨hf, ?_⟩⟩
    exact hcount j g fun he => absurd he hj

theorem World.step_settled {setup : Setup} {s s' : World} {op : Op} (h : s.step setup op = some s')
    (hs : Checkpointed s) :
    Settled s s' := by
  rcases step_cases h with ⟨k, a, u, a', ha, rfl, hm⟩ | ⟨q, -, rfl⟩ | rfl | ⟨now, x, -, rfl⟩ | ⟨row, rfl⟩
  · exact hm.settled ha (hs.sees k a ha)
  · intro k a ha
    refine ⟨a, ?_, fun g hf => ⟨hf, ?_⟩⟩
    · unfold queued
      dsimp only
      split
      · split_ifs
        · exact Table.get?_insert_of_some _ ha
        · exact ha
      · exact ha
    · obtain ⟨jobs, attempts, hq⟩ := queued_eq setup s q
      rw [hq]
  · exact Settled.refl _
  · exact Settled.refl s
  · exact Settled.refl s

/-- What holds of the checkpoints in every state a run reaches, and of every run on from there. -/
structure ExactlyOnce (setup : Setup) (s : World) : Prop where
  /-- The entries of an agent on the blackboard are those of one batch, which is there if and only
  if its row is done. -/
  done : ∀ g, s.isDone g = true → ∃ b, (s.batches.filter fun b => b.agent = g) = [b] ∧
    (s.store.board.filter fun e => e.author = g.name) = b.entries
  not_done : ∀ g, s.isDone g = false → (s.batches.filter fun b => b.agent = g) = [] ∧
    (s.store.board.filter fun e => e.author = g.name) = []
  authors : ∀ e ∈ s.store.board, ∃ g : Agent, e.author = g.name
  /-- A done row stays as it is, and the only one of its agent. -/
  kept : ∀ ops t, Runs.run (World.step setup) s ops = some t → ∀ r ∈ s.store.runs, r.status = .done →
    ∀ r', r' ∈ t.store.runs ∧ r'.agent = r.agent ↔ r' = r
  /-- An agent that an attempt found done is not asked again by it, and comes to its whole batch. -/
  found : ∀ ops t, Runs.run (World.step setup) s ops = some t → ∀ k a g, s.attempts.get? k = some a → a.found g = true →
    s.isDone g = true ∧ t.asked.count (k, g) = s.asked.count (k, g) ∧
      ∀ a' task, t.attempts.get? k = some a' → a'.Runs g task →
        task.pc = .returned (some (s.store.board.filter fun e => e.author = g.name))

theorem checkpoints_exactly_once (setup : Setup) (incident : Incident) (evidence : List EvidenceRow)
    {ops : List Op} {s : World} (h : Runs.run (World.step setup) (.fresh incident evidence) ops = some s) :
    ExactlyOnce setup s := by
  have hinv : ∀ {s t : World} {ops : List Op}, Runs.run (World.step setup) s ops = some t → Checkpointed s →
      Checkpointed t :=
    fun hrun hs => Runs.invariant (fun _ _ _ hs h => World.step_checkpointed h hs) hrun hs
  have hs := hinv h (.fresh incident evidence)
  refine ⟨fun g hg => ?_, fun g hg => ?_, fun e he => ?_, fun ops t hrun r hr hd r' => ?_,
    fun ops t hrun k a g ha hf => ?_⟩
  · obtain ⟨b, hb, rfl⟩ := (hs.recorded.done g).mp hg
    exact ⟨b, hs.recorded.filter_batches hb, by rw [hs.recorded.board_filter, hs.recorded.wrote_eq hb]⟩
  · have hnil := hs.recorded.filter_eq_nil hg
    refine ⟨hnil, ?_⟩
    rw [hs.recorded.board_filter, World.wrote, hnil, List.flatMap_nil]
  · rw [hs.recorded.board, List.mem_flatMap] at he
    obtain ⟨b, hb, he⟩ := he
    exact ⟨b.agent, hs.recorded.authors b hb e he⟩
  · have hgrows : Grows s t := Runs.related (P := fun _ => True) Grows.refl (fun _ _ _ => Grows.trans)
      (fun _ _ _ _ _ => trivial) (fun _ _ _ _ h => World.step_grows h) hrun trivial
    have hrt := hgrows.done r hr hd
    refine ⟨fun ⟨hr', ha⟩ => List.inj_on_of_nodup_map (hinv hrun hs).recorded.runs hr' hrt ha, ?_⟩
    rintro rfl
    exact ⟨hrt, rfl⟩
  · have hsettled : Settled s t := Runs.related (P := Checkpointed) Settled.refl (fun _ _ _ => Settled.trans)
      (fun _ _ _ hs h => World.step_checkpointed h hs) (fun _ _ _ hs h => World.step_settled h hs) hrun hs
    have hgrows : Grows s t := Runs.related (P := fun _ => True) Grows.refl (fun _ _ _ => Grows.trans)
      (fun _ _ _ _ _ => trivial) (fun _ _ _ _ h => World.step_grows h) hrun trivial
    have hdone := (hs.sees k a ha).done g hf
    obtain ⟨b, hb, hfound⟩ := hsettled k a ha
    obtain ⟨hf', hcount⟩ := hfound g hf
    refine ⟨hdone, hcount, fun a' task ha' htask => ?_⟩
    obtain rfl : b = a' := by rw [hb] at ha'; exact Option.some.inj ha'
    have ht := hinv hrun hs
    rw [(ht.sees k b hb).tasks g task hf' htask.2, hs.recorded.board_filter, hgrows.wrote hs.recorded ht.recorded hdone]

def sampleIncident : Incident :=
  { tenantId := "t1", fingerprint := "f", title := "Errors", service := "checkout", environment := "prod",
    priority := 1, state := .triaged, labels := [], createdAt := 0, updatedAt := 0 }

def investigateJob : Enqueue :=
  { tenantId := "t1", incidentId := some 0, kind := .investigate, priority := 1, maxAttempts := 3, agingStepS := 60,
    idempotencyKey := some (.incident 0 .investigate) }

def samplePlan : Plan :=
  { summary := ⟨"look at checkout", by decide⟩, hypotheses := ⟨[], by decide⟩, briefs := fun _ => ⟨"", by decide⟩ }

/-- The steps of one agent, from its start to its answer. -/
def answered (k : ℕ) (g : Agent) (answer : Answer) : List Op :=
  [.task k g, .task k g, .answer k g (.ok ⟨[], some (.ok answer), {}⟩), .task k g, .task k g, .task k g]

/-- A worker whose lease ran out after the coordinator, and the one that found it done. -/
theorem checkpoints_exactly_once_rerun :
    let setup : Setup := { incidentId := 0, config := fun _ => {} }
    let ops : List Op := [.queue (.enqueue 0 investigateJob), .queue (.claim 1 "w1" 30 3 none fun _ => false),
      .next 0 2, .next 0 2, .next 0 2] ++ answered 0 .coordinator (.plan samplePlan) ++
      [.queue (.reap 40 fun _ => false), .queue (.claim 41 "w2" 30 3 none fun _ => false), .next 1 42, .next 1 42]
    ∃ s, Runs.run (World.step setup) (.fresh sampleIncident []) ops = some s ∧
      (s.attempts.get? 1).any (fun a => a.found .coordinator) = true ∧ ExactlyOnce setup s := by
  intro setup ops
  have h : (Runs.run (World.step setup) (.fresh sampleIncident []) ops).any
      (fun s => (s.attempts.get? 1).any fun a => a.found .coordinator) = true := by decide +kernel
  obtain ⟨s, hs, hfound⟩ := (Option.any_eq_true ..).mp h
  exact ⟨s, hs, hfound, checkpoints_exactly_once setup sampleIncident [] hs⟩

end Blackboard.Agents

import Blackboard.Proofs.Leases
import Blackboard.Proofs.Citations

/-! A diagnosis is grounded. What an agent hands in was checked against the evidence and against
what it may cite, both of which only grow; the attempt that concludes holds the job, so what it
concludes from is on the blackboard. -/

namespace Blackboard.Agents

/-- The agent that writes the diagnosis. -/
def Mode.concluder : Mode → Agent
  | .multi => .synthesizer
  | .single => .solo

/-- What an agent may cite: the solo agent what its attempt was shown, the synthesizer what the findings cite. -/
def World.MayCite (s : World) (k : ℕ) (g : Agent) (id : String) : Prop :=
  if g = .solo then (k, g, id) ∈ s.shown else ∃ f ∈ findingsOn s.store.board, id ∈ f.evidenceIds.1

def Grounded (setup : Setup) (s : World) (k : ℕ) (g : Agent) (d : Diagnosis) : Prop :=
  ∀ ids ∈ d.items, Supported setup.incidentId s.evidence (s.MayCite k g) ids

theorem findingsOn_mono {board board' : List (Entry Body)} (h : board <+: board') {f : Finding}
    (hf : f ∈ findingsOn board) :
    f ∈ findingsOn board' := by
  obtain ⟨new, rfl⟩ := h
  rw [findingsOn, List.filterMap_append]
  exact List.mem_append_left _ hf

theorem Grows.mayCite {s u : World} (h : Grows s u) {k : ℕ} {g : Agent} {id : String} (hm : s.MayCite k g id) :
    u.MayCite k g id := by
  unfold World.MayCite at hm ⊢
  split_ifs at hm ⊢
  · exact h.shown _ hm
  · obtain ⟨f, hf, hid⟩ := hm
    exact ⟨f, findingsOn_mono h.board hf, hid⟩

theorem Grows.grounded {setup : Setup} {s u : World} (h : Grows s u) {k : ℕ} {g : Agent} {d : Diagnosis}
    (hd : Grounded setup s k g d) : Grounded setup u k g d :=
  fun ids hids => (hd ids hids).mono h.evidence fun _ => h.mayCite

/-- A batch is what its agent writes for an answer it may give, checked. -/
def GoodBatch (setup : Setup) (m : Mode) (s : World) (b : Batch) : Prop :=
  (b.agent = .solo ↔ m = .single) ∧ ∃ answer, answer.fits b.agent = true ∧ b.entries = entriesOf b.agent answer ∧
    ∀ d, answer = .diagnosis d → Grounded setup s b.attempt b.agent d

/-- The concluder has written this diagnosis, and it names a cause. -/
def Concludes (m : Mode) (s : World) (d : Diagnosis) : Prop :=
  d.rootCauses ≠ [] ∧ ∃ b ∈ s.batches, b.agent = m.concluder ∧ b.entries.head?.map Entry.body = some (.diagnosis d)

theorem Grows.concludes {s u : World} (h : Grows s u) {m : Mode} {d : Diagnosis} (hd : Concludes m s d) :
    Concludes m u d := by
  obtain ⟨hne, b, hb, hx⟩ := hd
  exact ⟨hne, b, h.batches.subset hb, hx⟩

/-- What is true of an agent that stands there. -/
def TaskPc.Ok (setup : Setup) (s : World) (k : ℕ) (g : Agent) : TaskPc → Prop
  | .recording _ (.ok r) => ∀ answer, r.final = some (.ok answer) → answer.fits g = true
  | .checking answer => answer.fits g = true
  | .finishing answer => answer.fits g = true ∧ ∀ d, answer = .diagnosis d → Grounded setup s k g d
  | .returned (some es) => ∃ b ∈ s.batches, b.agent = g ∧ es = b.entries
  | _ => True

structure AgentTask.Ok (setup : Setup) (s : World) (k : ℕ) (g : Agent) (t : AgentTask) : Prop where
  shown : ∀ id ∈ t.run.shown.map Prod.fst, (k, g, id) ∈ s.shown
  started : t.pc = .starting ∨ ∃ r ∈ s.store.runs, r.agent = g.name
  pc : t.pc.Ok setup s k g

theorem Grows.task {setup : Setup} {s u : World} (h : Grows s u) {k : ℕ} {g : Agent} {t : AgentTask}
    (ht : t.Ok setup s k g) :
    t.Ok setup u k g := by
  refine ⟨fun id hid => h.shown _ (ht.shown id hid), ?_, ?_⟩
  · rcases ht.started with hpc | ⟨r, hr, ha⟩
    · exact .inl hpc
    · obtain ⟨r', hr', ha'⟩ := h.runs r hr
      exact .inr ⟨r', hr', ha'.trans ha⟩
  · have hpc := ht.pc
    revert hpc
    cases t.pc with
    | recording _ r => cases r <;> exact id
    | finishing answer => exact fun hpc => ⟨hpc.1, fun d hd => h.grounded (hpc.2 d hd)⟩
    | returned es =>
      cases es with
      | none => exact id
      | some es =>
        rintro ⟨b, hb, hx⟩
        exact ⟨b, h.batches.subset hb, hx⟩
    | _ => exact id

namespace AttemptPc

def isMulti : AttemptPc → Bool
  | .coordinating | .investigating | .rereadingRuns | .rereadingBoard | .synthesizing _ => true
  | _ => false

/-- The agents that the attempt may have run by then. -/
def past : AttemptPc → Agent → Bool
  | .opening, _ | .readingRuns, _ | .readingBoard, _ => false
  | .coordinating, g => g = .coordinator
  | .investigating, g | .rereadingRuns, g | .rereadingBoard, g => g ≠ .synthesizer && g ≠ .solo
  | .synthesizing _, g => g ≠ .solo
  | .soloing, g => g = .solo
  | .concluding _, _ | .ended, _ => true

/-- It has read the run rows while it held the job. -/
def hasRuns : AttemptPc → Bool
  | .opening | .readingRuns | .ended => false
  | _ => true

end AttemptPc

structure Working (setup : Setup) (m : Mode) (s : World) (k : ℕ) (a : Attempt) : Prop where
  mode : a.config.mode = m
  multi : a.pc.isMulti = true → m = .multi
  solo : a.pc = .soloing → m = .single
  tasks : ∀ g t, a.tasks g = some t → t.Ok setup s k g
  cited : ∀ cited, a.pc = .synthesizing cited → ∀ id ∈ cited, ∃ f ∈ findingsOn s.store.board, id ∈ f.evidenceIds.1
  /-- What it wrote itself, its agent has returned. -/
  own : ∀ b ∈ s.batches, b.attempt = k →
    a.pc.past b.agent = true ∧ ∀ t, a.tasks b.agent = some t → ∃ es, t.pc = .returned es
  /-- While it holds the job nobody else writes: it has found all the rest. -/
  held : Jobs.holds a.job s.jobs = true → a.pc.hasRuns = true → ∀ b ∈ s.batches, b.attempt = k ∨ a.found b.agent = true
  concluding : ∀ d, a.pc = .concluding ⟨some d, none⟩ → Concludes m s d

namespace Working

variable {setup : Setup} {m : Mode} {s u : World} {k : ℕ} {a : Attempt}

/-- What others do. -/
theorem frame (h : Working setup m s k a) (hg : Grows s u)
    (hb : ∀ b ∈ u.batches, b ∈ s.batches ∨ b.attempt ≠ k ∧ Jobs.holds a.job s.jobs = false)
    (hh : Jobs.holds a.job u.jobs = true → Jobs.holds a.job s.jobs = true) : Working setup m u k a := by
  refine ⟨h.mode, h.multi, h.solo, fun g t ht => hg.task (h.tasks g t ht), fun cited hpc id hid => ?_,
    fun b hb' hk => ?_,
    fun hu hr b hb' => ?_, fun d hd => hg.concludes (h.concluding d hd)⟩
  · obtain ⟨f, hf, hx⟩ := h.cited cited hpc id hid
    exact ⟨f, findingsOn_mono hg.board hf, hx⟩
  · rcases hb b hb' with hbs | ⟨hne, -⟩
    · exact h.own b hbs hk
    · exact absurd hk hne
  · rcases hb b hb' with hbs | ⟨-, hn⟩
    · exact h.held (hh hu) hr b hbs
    · rw [hh hu] at hn
      cases hn

/-- It goes where it waits for no agent. -/
theorem goto (h : Working setup m s k a) {a' : Attempt} (hjob : a'.job = a.job) (hconfig : a'.config = a.config)
    (hruns : a'.runs = a.runs) (htasks : a'.tasks = a.tasks) (hm : a'.pc.isMulti = true → a.pc.isMulti = true)
    (hw : a'.awaited = []) (hp : ∀ g, a.pc.past g = true → a'.pc.past g = true)
    (hr : a'.pc.hasRuns = true → a.pc.hasRuns = true) (hc : ∀ d, a'.pc = .concluding ⟨some d, none⟩ → Concludes m s d) :
    Working setup m s k a' := by
  have hfound : ∀ g, a'.found g = a.found g := fun g => by rw [Attempt.found, hruns]; rfl
  refine ⟨hconfig ▸ h.mode, fun hx => h.multi (hm hx), fun hpc => ?_, fun g t ht => h.tasks g t (htasks ▸ ht),
    fun cited hpc => ?_, fun b hb hk => ?_, fun hh hx b hb => ?_, hc⟩
  · simp [Attempt.awaited, hpc] at hw
  · simp [Attempt.awaited, hpc] at hw
  · obtain ⟨hpast, hret⟩ := h.own b hb hk
    exact ⟨hp _ hpast, fun t ht => hret t (htasks ▸ ht)⟩
  · rw [hfound]
    exact h.held (hjob ▸ hh) (hr hx) b hb

theorem readRuns (h : Working setup m s k a) (hs : Recorded s) {pc : AttemptPc}
    (hpc : pc = .readingBoard ∧ a.pc = .readingRuns ∨ pc = .rereadingBoard ∧ a.pc = .rereadingRuns) :
    Working setup m s k { a with pc, runs := s.store.runs } := by
  refine ⟨h.mode, fun hx => h.multi ?_, fun hx => ?_, h.tasks, fun cited hx => ?_, fun b hb hk => ?_,
    fun _ _ b hb => ?_,
    fun d hx => ?_⟩
  · rcases hpc with ⟨rfl, hpc⟩ | ⟨rfl, hpc⟩
    · cases hx
    · rw [hpc]; rfl
  · rcases hpc with ⟨rfl, -⟩ | ⟨rfl, -⟩ <;> cases hx
  · rcases hpc with ⟨rfl, -⟩ | ⟨rfl, -⟩ <;> cases hx
  · have hown := h.own b hb hk
    refine ⟨?_, hown.2⟩
    rcases hpc with ⟨rfl, hpc⟩ | ⟨rfl, hpc⟩ <;> rw [hpc] at hown <;> exact hown.1
  · exact .inr ((hs.done b.agent).mpr ⟨b, hb, rfl⟩)
  · rcases hpc with ⟨rfl, -⟩ | ⟨rfl, -⟩ <;> cases hx

theorem readBoard (h : Working setup m s k a) (hpc : a.pc = .readingBoard ∨ a.pc = .rereadingBoard) :
    Working setup m s k { a with board := s.store.entries none } := by
  refine h.goto rfl rfl rfl rfl id ?_ (fun _ => id) id fun d hd => ?_
  · rcases hpc with hpc | hpc <;> simp [Attempt.awaited, hpc]
  · rcases hpc with hpc | hpc <;> (rw [hpc] at hd; cases hd)

/-- The agents of a phase start. None of them has run in this attempt. -/
theorem await (h : Working setup m s k a) (hs : Recorded s) (hsees : ∀ g, a.found g = true → s.isDone g = true)
    (hb : ∀ g, a.found g = true → (a.board.filter fun e => e.author = g.name) = s.wrote g) {pc : AttemptPc}
    {gs : List Agent} (hm : pc.isMulti = true → m = .multi) (hsolo : pc = .soloing → m = .single)
    (hcited : ∀ cited, pc = .synthesizing cited → ∀ id ∈ cited, ∃ f ∈ findingsOn s.store.board, id ∈ f.evidenceIds.1)
    (hp : ∀ g, a.pc.past g = true → pc.past g = true ∧ g ∉ gs) (hr : pc.hasRuns = true → a.pc.hasRuns = true)
    (hc : ∀ o, pc ≠ .concluding o) : Working setup m s k (a.await pc gs) := by
  refine ⟨h.mode, hm, hsolo, fun g t ht => ?_, hcited, fun b hb' hk => ?_, fun hh hx => h.held hh (hr hx),
    fun d hd => absurd hd (hc _)⟩
  · simp only [Attempt.await, Option.ite_none_right_eq_some, Option.some.injEq] at ht
    obtain ⟨-, rfl⟩ := ht
    unfold Attempt.once
    split_ifs with hf
    · obtain ⟨b, hbm, rfl⟩ := (hs.done g).mp (hsees g hf)
      obtain ⟨r, hr', ha, -⟩ := AgentTables.isDone_iff.mp (hsees b.agent hf)
      exact ⟨by simp, .inr ⟨r, hr', ha⟩, b, hbm, rfl, by rw [hb _ hf, hs.wrote_eq hbm]⟩
    · exact ⟨by simp, .inl rfl, trivial⟩
  · obtain ⟨hpast, -⟩ := h.own b hb' hk
    obtain ⟨hnew, hnot⟩ := hp _ hpast
    refine ⟨hnew, fun t ht => ?_⟩
    simp only [Attempt.await, if_neg hnot] at ht
    cases ht

theorem setTask (h : Working setup m s k a) {g : Agent} {t t' : AgentTask} (hr : a.Runs g t)
    (hn : ∀ es, t.pc ≠ .returned es) (ht' : t'.Ok setup s k g) : Working setup m s k (a.setTask g t') := by
  refine ⟨h.mode, h.multi, h.solo, fun g' t'' ht => ?_, h.cited, fun b hb hk => ?_, h.held, h.concluding⟩
  · simp only [Attempt.setTask] at ht
    split_ifs at ht with he
    · rw [he, ← Option.some.inj ht]
      exact ht'
    · exact h.tasks g' t'' ht
  · obtain ⟨hpast, hret⟩ := h.own b hb hk
    refine ⟨hpast, fun t'' ht => ?_⟩
    simp only [Attempt.setTask] at ht
    split_ifs at ht with he
    · obtain ⟨es, hes⟩ := hret t (he ▸ hr.2)
      exact absurd hes (hn es)
    · exact hret t'' ht

/-- The agent of a phase fits the mode, and has its turn. -/
theorem awaited_cases {g : Agent} (hg : g ∈ a.awaited) :
    g = .solo ∧ a.pc = .soloing ∨ g ≠ .solo ∧ a.pc.isMulti = true ∧ a.pc.past g = true := by
  unfold Attempt.awaited at hg
  cases hpc : a.pc <;> simp only [hpc, List.mem_singleton, List.mem_map, List.not_mem_nil] at hg
  case coordinating => exact .inr (by subst hg; exact ⟨nofun, rfl, rfl⟩)
  case investigating =>
    obtain ⟨f, -, rfl⟩ := hg
    exact .inr ⟨nofun, rfl, rfl⟩
  case synthesizing => exact .inr (by subst hg; exact ⟨nofun, rfl, rfl⟩)
  case soloing => exact .inl ⟨hg, rfl⟩

theorem awaited_solo (h : Working setup m s k a) {g : Agent} (hg : g ∈ a.awaited) : g = .solo ↔ m = .single := by
  rcases awaited_cases hg with ⟨rfl, hpc⟩ | ⟨hne, hpc, -⟩
  · exact iff_of_true rfl (h.solo hpc)
  · exact iff_of_false hne (by rw [h.multi hpc]; nofun)

theorem awaited_past {g : Agent} (hg : g ∈ a.awaited) : a.pc.past g = true := by
  rcases awaited_cases hg with ⟨rfl, hpc⟩ | ⟨-, -, hp⟩
  · rw [hpc]; rfl
  · exact hp

theorem awaited_hasRuns {g : Agent} (hg : g ∈ a.awaited) : a.pc.hasRuns = true := by
  unfold Attempt.awaited at hg
  cases hpc : a.pc <;> first | rfl | simp [hpc] at hg

/-- What the concluder may cite in this attempt. -/
theorem citable (h : Working setup m s k a) {g : Agent} {t : AgentTask} (hr : a.Runs g t)
    (hg : g = .synthesizer ∨ g = .solo) {id : String} (hid : id ∈ a.citable t) : s.MayCite k g id := by
  have haw := hr.1
  unfold Attempt.awaited at haw
  unfold Attempt.citable at hid
  unfold World.MayCite
  rcases hg with rfl | rfl
  · cases hpc : a.pc with
    | synthesizing cited =>
      rw [hpc] at hid
      exact h.cited cited hpc id hid
    | _ => simp [hpc] at haw
  · cases hpc : a.pc with
    | soloing =>
      rw [hpc] at hid
      rw [if_pos rfl]
      exact (h.tasks _ _ hr.2).shown id hid
    | _ => simp [hpc] at haw

end Working

/-! One move of an attempt. -/

theorem Move.batches_cases {setup : Setup} {s u : World} {k : ℕ} {a a' : Attempt} (h : Move setup s k a u a') :
    u.batches = s.batches ∨ Jobs.holds a.job s.jobs = true ∧ ∃ g es, u.batches = s.batches ++ [⟨k, g, es⟩] := by
  induction h
  case finished g t answer _ _ hh =>
    simp only [World.finishRun]
    split_ifs
    · exact .inr ⟨hh, g, entriesOf g answer, rfl⟩
    · exact .inl rfl
  all_goals exact .inl rfl

theorem Move.holds {setup : Setup} {s u : World} {k j : ℕ} {a a' b : Attempt} (h : Move setup s k a u a')
    (hL : Leases setup s) (hb : s.attempts.get? j = some b) (hh : Jobs.holds b.job u.jobs = true) :
    Jobs.holds b.job s.jobs = true := by
  obtain ⟨r, hr, -, hle⟩ := hL.fence j b hb
  rcases h.jobs_cases with hj | ⟨q, -, hj⟩ <;> rw [hj] at hh
  · exact hh
  · exact holds_of_apply hr hle hh

/-- The other attempts. -/
theorem Move.frame {setup : Setup} {m : Mode} {s u : World} {k j : ℕ} {a a' b : Attempt} (h : Move setup s k a u a')
    (hL : Leases setup s) (ha : s.attempts.get? k = some a) (hb : s.attempts.get? j = some b) (hne : j ≠ k)
    (hW : Working setup m s j b) : Working setup m u j b := by
  refine hW.frame h.grows (fun x hx => ?_) (h.holds hL hb)
  rcases h.batches_cases with he | ⟨hk, g, es, he⟩ <;> rw [he] at hx
  · exact .inl hx
  · refine (List.mem_append.mp hx).imp_right fun hx => ?_
    rw [List.mem_singleton.mp hx]
    refine ⟨Ne.symm hne, ?_⟩
    rw [← Bool.not_eq_true]
    exact fun hj => hne (hL.holder_unique hb ha hj hk)

theorem mem_startRun {B : Type} (s : AgentTables B) (agent model promptVersion : String) :
    ∃ r ∈ (s.startRun agent model promptVersion).runs, r.agent = agent := by
  unfold AgentTables.startRun
  split_ifs with h
  · obtain ⟨r, hr, ha⟩ := List.any_eq_true.mp h
    refine ⟨_, List.mem_map_of_mem hr, ?_⟩
    split_ifs <;> exact of_decide_eq_true ha
  · exact ⟨_, List.mem_append_right _ List.mem_cons_self, rfl⟩

theorem gathered_shown (outcomes : List (ToolAction × CallOutcome)) (run : AgentRun) :
    ∀ id ∈ (run.gathered outcomes).shown.map Prod.fst, id ∈ run.shown.map Prod.fst ∨ id ∈ evidenceIn outcomes := by
  induction outcomes generalizing run with
  | nil => exact fun id hid => .inl hid
  | cons x outcomes ih =>
    obtain ⟨action, o⟩ := x
    intro id hid
    cases o with
    | error =>
      simp only [AgentRun.gathered] at hid
      exact ih { run with toolCalls := run.toolCalls + 1, toolErrors := run.toolErrors + 1 } id hid
    | ok ev =>
      simp only [AgentRun.gathered] at hid
      simp only [evidenceIn, List.mem_cons]
      rcases ih _ id hid with hid | hid
      · simp only [AgentRun.show, List.map_cons, List.mem_cons, List.mem_map, List.mem_filter] at hid
        rcases hid with rfl | ⟨y, ⟨hy, -⟩, rfl⟩
        · exact .inr (.inl rfl)
        · exact .inl (List.mem_map_of_mem hy)
      · exact .inr (.inr hid)

theorem check_fits {known : List String → List (String × String)} {shown : List String} {answer : Answer} {g : Agent} :
    (check known shown answer).value.fits g = answer.fits g := by
  cases answer <;> cases g <;> rfl

/-- The agent that gives a diagnosis. -/
theorem fits_diagnosis {d : Diagnosis} {g : Agent} :
    (Answer.diagnosis d).fits g = true ↔ g = .synthesizer ∨ g = .solo := by
  cases g <;> simp [Answer.fits]

/-- What a checked answer says, the agent may say. -/
theorem check_grounded {setup : Setup} {m : Mode} {s : World} {k : ℕ} {a : Attempt} {g : Agent} {t : AgentTask}
    {answer : Answer} {d : Diagnosis} (h : Working setup m s k a) (hr : a.Runs g t) (hfits : answer.fits g = true)
    (hd : (check (evidenceTools setup.incidentId s.evidence) (a.citable t) answer).value = .diagnosis d) :
    Grounded setup s k g d := by
  cases answer <;> simp only [check, reduceCtorEq, Answer.diagnosis.injEq] at hd
  case diagnosis d' =>
    subst hd
    exact fun ids hids => (checkDiagnosis_supported d' ids hids).mono (fun _ hr => hr)
      fun id hid => h.citable hr (fits_diagnosis.mp hfits) hid

theorem afterStep_ok {setup : Setup} {spec : AgentSpec} {s : World} {k : ℕ} {g : Agent} {run : AgentRun}
    {forceFinal : Bool} {r : LLMResult} (hshown : ∀ id ∈ run.shown.map Prod.fst, (k, g, id) ∈ s.shown)
    (hrow : ∃ r ∈ s.store.runs, r.agent = g.name) (hfits : ∀ answer, r.final = some (.ok answer) →
      answer.fits g = true) :
    (afterStep setup spec g run forceFinal r).Ok setup s k g := by
  unfold afterStep
  split
  · split_ifs
    · exact ⟨hshown, .inr hrow, trivial⟩
    · exact ⟨hshown, .inr hrow, trivial⟩
  · split_ifs
    · exact ⟨hshown, .inr hrow, trivial⟩
    · exact ⟨hshown, .inr hrow, trivial⟩
  · rename_i answer hfinal
    exact ⟨hshown, .inr hrow, hfits answer hfinal⟩

theorem afterCheck_ok {setup : Setup} {spec : AgentSpec} {s : World} {k : ℕ} {g : Agent} {run : AgentRun}
    {c : Checked Answer} (hshown : ∀ id ∈ run.shown.map Prod.fst, (k, g, id) ∈ s.shown)
    (hrow : ∃ r ∈ s.store.runs, r.agent = g.name) (hfits : c.value.fits g = true)
    (hd : ∀ d, c.value = .diagnosis d → Grounded setup s k g d) :
    (afterCheck spec run c).Ok setup s k g := by
  unfold afterCheck
  split_ifs
  · exact ⟨hshown, .inr hrow, trivial⟩
  · exact ⟨hshown, .inr hrow, hfits, hd⟩

/-- The conclusion names a cause only from what the concluder has written. -/
theorem concluded_concludes {setup : Setup} {m : Mode} {s : World} {k : ℕ} {a : Attempt} {g : Agent}
    {es : Option (List (Entry Body))} {d : Diagnosis} (h : Working setup m s k a) (hg : g ∈ a.awaited)
    (hor : g = .synthesizer ∨ g = .solo) (hret : a.returned? g = some es) (hd : concluded es = some ⟨some d, none⟩) :
    Concludes m s d := by
  obtain ⟨t, ht, hpc⟩ := Option.bind_eq_some_iff.mp hret
  have hok := (h.tasks g t ht).pc
  cases htpc : t.pc <;> rw [htpc] at hpc <;> cases hpc
  rw [htpc] at hok
  have hm : g = m.concluder := by
    have := h.awaited_solo hg
    cases m <;> rcases hor with rfl | rfl <;> first | rfl | exact absurd this (by simp)
  cases es with
  | none => simp [concluded] at hd
  | some es =>
    obtain ⟨b, hb, hbg, rfl⟩ := hok
    cases hes : b.entries with
    | nil => simp [concluded, hes] at hd
    | cons e rest =>
      rw [hes] at hd
      simp only [concluded] at hd
      split at hd
      · rename_i d' hbody
        simp only [Option.some.injEq, Outcome.mk.injEq] at hd
        obtain ⟨rfl, hesc⟩ := hd
        refine ⟨?_, b, hb, hbg.trans hm, by rw [hes, List.head?_cons, Option.map_some, hbody]⟩
        rintro hnil
        simp [hnil] at hesc
      · cases hd

theorem Working.failed {setup : Setup} {m : Mode} {s : World} {k : ℕ} {a : Attempt} {g : Agent} {t : AgentTask}
    {why : Failure} (h : Working setup m s k a) (hr : a.Runs g t) : Working setup m s k (a.failed why) := by
  have hruns := Working.awaited_hasRuns hr.1
  cases why <;> simp only [Attempt.failed]
  case budgetExceeded =>
    exact h.goto rfl rfl rfl rfl (fun h => by cases h) rfl (fun _ _ => rfl) (fun _ => hruns) fun _ h => by cases h
  case llmError =>
    split_ifs
    · exact h.goto rfl rfl rfl rfl (fun h => by cases h) rfl (fun _ _ => rfl) (fun _ => hruns) fun _ h => by cases h
    · exact h.goto rfl rfl rfl rfl (fun h => by cases h) rfl (fun _ _ => rfl) (fun h => by cases h) fun _ h => by
        cases h
  case agentFailed =>
    exact h.goto rfl rfl rfl rfl (fun h => by cases h) rfl (fun _ _ => rfl) (fun h => by cases h)
      fun _ h => by cases h

/-- Nobody finished the agent before the attempt that holds the job and runs it. -/
theorem Working.finishes {setup : Setup} {m : Mode} {s : World} {k : ℕ} {a : Attempt} {g : Agent} {t : AgentTask}
    {answer : Answer} (h : Working setup m s k a) (hC : Checkpointed s) (ha : s.attempts.get? k = some a)
    (hr : a.Runs g t) (hpc : t.pc = .finishing answer) (hh : Jobs.holds a.job s.jobs = true) :
    s.store.runs.any (RunRow.openFor g.name) = true := by
  obtain ⟨r, hr', hra⟩ := (h.tasks g t hr.2).started.resolve_left (by simp [hpc])
  refine List.any_eq_true.mpr ⟨r, hr', RunRow.openFor_iff.mpr ⟨hra, fun hd => ?_⟩⟩
  obtain ⟨b, hb, rfl⟩ := (hC.recorded.done g).mp (AgentTables.isDone_iff.mpr ⟨r, hr', hra, hd⟩)
  rcases h.held hh (Working.awaited_hasRuns hr.1) b hb with hk | hf
  · obtain ⟨es, hes⟩ := (h.own b hb hk).2 t hr.2
    rw [hpc] at hes
    cases hes
  · have hret := (hC.sees k a ha).tasks b.agent t hf hr.2
    rw [hpc] at hret
    cases hret

theorem Working.finished {setup : Setup} {m : Mode} {s : World} {k : ℕ} {a : Attempt} {g : Agent} {t : AgentTask}
    {answer : Answer} (h : Working setup m s k a) (hC : Checkpointed s) (ha : s.attempts.get? k = some a)
    (hr : a.Runs g t) (hpc : t.pc = .finishing answer) (hh : Jobs.holds a.job s.jobs = true) :
    Working setup m (s.finishRun k g t.run answer) k
    (a.setTask g { t with pc := .returned (some (entriesOf g answer)) }) := by
  have hopen := h.finishes hC ha hr hpc hh
  have hg := Grows.finishRun s k g t.run answer
  have hbatches : (s.finishRun k g t.run answer).batches = s.batches ++ [⟨k, g, entriesOf g answer⟩] := by
    simp only [World.finishRun, if_pos hopen]
  have hmem : ⟨k, g, entriesOf g answer⟩ ∈ (s.finishRun k g t.run answer).batches := by
    rw [hbatches]
    exact List.mem_append_right _ List.mem_cons_self
  have ht := hg.task (h.tasks g t hr.2)
  refine ⟨h.mode, h.multi, h.solo, fun g' t' ht' => ?_, fun cited hc id hid => ?_, fun b hb hk => ?_,
    fun hj hx b hb => ?_,
    fun d hd => hg.concludes (h.concluding d hd)⟩
  · simp only [Attempt.setTask] at ht'
    split_ifs at ht' with he
    · rw [he, ← Option.some.inj ht']
      exact ⟨ht.shown, .inr (ht.started.resolve_left (by simp [hpc])), _, hmem, rfl, rfl⟩
    · exact hg.task (h.tasks g' t' ht')
  · obtain ⟨f, hf, hx⟩ := h.cited cited hc id hid
    exact ⟨f, findingsOn_mono hg.board hf, hx⟩
  · have hpast : a.pc.past b.agent = true := by
      rw [hbatches, List.mem_append, List.mem_singleton] at hb
      rcases hb with hb | rfl
      · exact (h.own b hb hk).1
      · exact Working.awaited_past hr.1
    refine ⟨hpast, fun t' ht' => ?_⟩
    simp only [Attempt.setTask] at ht'
    split_ifs at ht' with he
    · exact ⟨_, by rw [← Option.some.inj ht']⟩
    · rw [hbatches, List.mem_append, List.mem_singleton] at hb
      rcases hb with hb | rfl
      · exact (h.own b hb hk).2 t' ht'
      · exact absurd rfl he
  · rw [hbatches, List.mem_append, List.mem_singleton] at hb
    rcases hb with hb | rfl
    · exact h.held hj hx b hb
    · exact .inl rfl

theorem Move.working {setup : Setup} {m : Mode} {s u : World} {k : ℕ} {a a' : Attempt} (h : Move setup s k a u a')
    (hC : Checkpointed s) (hL : Leases setup s) (ha : s.attempts.get? k = some a) (hW : Working setup m s k a) :
    Working setup m u k a' := by
  have hsees := hC.sees k a ha
  have hframe : u.batches = s.batches → Working setup m u k a := fun hb =>
    hW.frame h.grows (fun x hx => .inl (hb ▸ hx)) (h.holds hL ha)
  have hrow : ∀ {w : World}, Working setup m w k a → ∀ {g t}, a.Runs g t → t.pc ≠ .starting →
      ∃ r ∈ w.store.runs, r.agent = g.name :=
    fun {w} hw {g t} hr hn => (hw.tasks g t hr.2).started.resolve_left hn
  induction h
  case ended =>
    exact hW.goto rfl rfl rfl rfl (fun h => by cases h) rfl (fun _ _ => rfl) (fun h => by cases h) fun _ h => by cases h
  case opened hpc _ =>
    exact (hframe rfl).goto rfl rfl rfl rfl (fun h => by cases h) rfl (fun _ hp => by rw [hpc] at hp; cases hp)
      (fun h => by cases h) fun _ h => by cases h
  case runsRead hpc => exact hW.readRuns hC.recorded (.inl ⟨rfl, hpc⟩)
  case boardReadSolo hpc hmode =>
    have hg := hW.readBoard (.inl hpc)
    exact hg.await hC.recorded hsees.done (fun g _ => by rw [Sees.entries_none, hC.recorded.board_filter])
      (fun h => by cases h)
      (fun _ => hW.mode ▸ hmode) (fun _ h => by cases h) (fun _ hp => by rw [hpc] at hp; cases hp)
      (fun _ => by rw [hpc]; rfl) (fun _ h => by cases h)
  case boardRead hpc hmode =>
    have hg := hW.readBoard (.inl hpc)
    have hm : m = .multi := by
      rw [hW.mode] at hmode
      cases m with
      | multi => rfl
      | single => exact absurd rfl hmode
    exact hg.await hC.recorded hsees.done (fun g _ => by rw [Sees.entries_none, hC.recorded.board_filter]) (fun _ => hm)
      (fun h => by cases h) (fun _ h => by cases h) (fun _ hp => by rw [hpc] at hp; cases hp)
      (fun _ => by rw [hpc]; rfl) (fun _ h => by cases h)
  case coordinated hpc =>
    refine hW.await hC.recorded hsees.done (hsees.board (by simp [Attempt.awaited, hpc]))
      (fun _ => hW.multi (by rw [hpc]; rfl)) (fun h => by cases h) (fun _ h => by cases h) (fun g hp => ?_)
      (fun _ => by rw [hpc]; rfl) (fun _ h => by cases h)
    rw [hpc] at hp
    obtain rfl : g = .coordinator := of_decide_eq_true hp
    exact ⟨rfl, by simp⟩
  case investigated hpc =>
    refine ⟨hW.mode, fun _ => hW.multi (by rw [hpc]; rfl), (fun h => by cases h), fun _ _ ht => (by cases ht),
      (fun _ h => by cases h), fun b hb hk => ?_,
      fun hh _ => hW.held hh (by rw [hpc]; rfl), (fun _ h => by cases h)⟩
    have hown := (hW.own b hb hk).1
    rw [hpc] at hown
    exact ⟨hown, fun _ ht => by cases ht⟩
  case runsReread hpc => exact hW.readRuns hC.recorded (.inr ⟨rfl, hpc⟩)
  case boardReread hpc =>
    have hg := hW.readBoard (.inr hpc)
    unfold Attempt.synthesize
    split
    · exact hW.goto rfl rfl rfl rfl (fun h => by cases h) rfl (fun _ _ => rfl) (fun _ => by rw [hpc]; rfl) fun _ h => by
        cases h
    · rename_i f fs hfindings
      refine hg.await hC.recorded hsees.done (fun g _ => by rw [Sees.entries_none, hC.recorded.board_filter])
        (fun _ => hW.multi (by rw [hpc]; rfl)) (fun h => by cases h) (fun cited hc id hid => ?_)
        (fun g hp => ?_) (fun _ => by rw [hpc]; rfl) (fun _ h => by cases h)
      · simp only [AttemptPc.synthesizing.injEq] at hc
        rw [← hc, citedBy, List.mem_flatMap] at hid
        obtain ⟨f', hf', hid⟩ := hid
        rw [Sees.entries_none] at hfindings
        exact ⟨f', hfindings ▸ hf', hid⟩
      · have hp : AttemptPc.rereadingBoard.past g = true := hpc ▸ hp
        simp only [AttemptPc.past, ne_eq, decide_not, Bool.and_eq_true, Bool.not_eq_eq_eq_not, Bool.not_true,
          decide_eq_false_iff_not] at hp
        exact ⟨by simp [AttemptPc.past, hp.2], by simpa using hp.1⟩
  case concluded hg hor hret =>
    have hpc := Working.awaited_hasRuns hg
    unfold Attempt.conclude
    split
    · rename_i o ho
      refine hW.goto rfl rfl rfl rfl (fun h => by cases h) rfl (fun _ _ => rfl) (fun _ => hpc) fun d hd => ?_
      simp only [AttemptPc.concluding.injEq] at hd
      exact concluded_concludes hW hg hor hret (hd ▸ ho)
    · exact hW.goto rfl rfl rfl rfl (fun h => by cases h) rfl (fun _ _ => rfl) (fun h => by cases h) fun _ h => by
        cases h
  case failed why hr => exact hW.failed hr
  case diagnosed =>
    exact (hframe rfl).goto rfl rfl rfl rfl (fun h => by cases h) rfl (fun _ _ => rfl) (fun h => by cases h)
      fun _ h => by cases h
  case escalated =>
    exact (hframe rfl).goto rfl rfl rfl rfl (fun h => by cases h) rfl (fun _ _ => rfl) (fun h => by cases h)
      fun _ h => by cases h
  case started g t model promptVersion hr hpc =>
    exact (hframe rfl).setTask hr (by simp [hpc])
      ⟨((hframe rfl).tasks g t hr.2).shown, .inr (mem_startRun ..), trivial⟩
  case exhausted g t steps why hr hpc =>
    exact hW.setTask hr (by simp [hpc]) ⟨(hW.tasks g t hr.2).shown, .inr (hrow hW hr (by simp [hpc])), trivial⟩
  case asked g t steps forceFinal hr hpc =>
    exact (hframe rfl).setTask hr (by simp [hpc])
      ⟨(hW.tasks g t hr.2).shown, .inr (hrow hW hr (by simp [hpc])), trivial⟩
  case answered g t forceFinal r hr hpc hfits =>
    refine hW.setTask hr (by simp [hpc]) ⟨(hW.tasks g t hr.2).shown, .inr (hrow hW hr (by simp [hpc])), ?_⟩
    cases r with
    | error e => trivial
    | ok x => exact fun answer hfinal => hfits x answer rfl hfinal
  case recorded g t forceFinal r hr hpc =>
    have hok := (hW.tasks g t hr.2).pc
    rw [hpc] at hok
    exact (hframe rfl).setTask hr (by simp [hpc])
      (afterStep_ok (hW.tasks g t hr.2).shown (hrow hW hr (by simp [hpc])) hok)
  case refused g t forceFinal e hr hpc =>
    exact hW.setTask hr (by simp [hpc]) ⟨(hW.tasks g t hr.2).shown, .inr (hrow hW hr (by simp [hpc])), trivial⟩
  case called g t calls calls' evidence hr hpc _ =>
    exact (hframe rfl).setTask hr (by simp [hpc])
      ⟨(hW.tasks g t hr.2).shown, .inr (hrow hW hr (by simp [hpc])), trivial⟩
  case gathered g t calls outcomes hr hpc =>
    refine (hframe rfl).setTask hr (by simp [hpc]) ⟨fun id hid => ?_, .inr (hrow hW hr (by simp [hpc])), trivial⟩
    rcases gathered_shown outcomes t.run id hid with hid | hid
    · exact List.mem_append_left _ ((hW.tasks g t hr.2).shown id hid)
    · exact List.mem_append_right _ (List.mem_map.mpr ⟨id, hid, rfl⟩)
  case checked g t answer hr hpc =>
    have hfits := (hW.tasks g t hr.2).pc
    rw [hpc] at hfits
    exact hW.setTask hr (by simp [hpc]) (afterCheck_ok (hW.tasks g t hr.2).shown (hrow hW hr (by simp [hpc]))
      (check_fits.trans hfits) fun d hd => check_grounded hW hr hfits hd)
  case finished g t answer hr hpc hh => exact hW.finished hC ha hr hpc hh
  case gaveUp g t why pc hr hpc hcases =>
    refine (hframe rfl).setTask hr (by simp [hpc])
      ⟨((hframe rfl).tasks g t hr.2).shown, .inr (hrow (hframe rfl) hr (by simp [hpc])), ?_⟩
    rcases hcases with rfl | rfl <;> trivial

/-! Every state of a run. -/

structure Grounding (setup : Setup) (m : Mode) (s : World) : Prop where
  checkpointed : Checkpointed s
  leases : Leases setup s
  batches : ∀ b ∈ s.batches, GoodBatch setup m s b
  attempts : ∀ b ∈ s.batches, b.attempt < s.attempts.size
  working : ∀ k a, s.attempts.get? k = some a → Working setup m s k a
  diagnosed : s.incident.state = .diagnosed → ∃ d, Concludes m s d

theorem Grows.goodBatch {setup : Setup} {m : Mode} {s u : World} (h : Grows s u) {b : Batch}
    (hb : GoodBatch setup m s b) :
    GoodBatch setup m u b := by
  obtain ⟨hsolo, answer, hfits, hentries, hd⟩ := hb
  exact ⟨hsolo, answer, hfits, hentries, fun d he => h.grounded (hd d he)⟩

/-- A batch is written of an answer that was checked. -/
theorem Move.goodBatch {setup : Setup} {m : Mode} {s u : World} {k : ℕ} {a a' : Attempt} (h : Move setup s k a u a')
    (hW : Working setup m s k a) : ∀ b ∈ u.batches, b ∈ s.batches ∨ GoodBatch setup m u b := by
  induction h
  case finished g t answer hr hpc hh =>
    intro b hb
    have hok := (hW.tasks g t hr.2).pc
    rw [hpc] at hok
    simp only [World.finishRun] at hb
    split_ifs at hb with hopen
    · refine (List.mem_append.mp hb).imp_right fun hb => ?_
      rw [List.mem_singleton.mp hb]
      exact ⟨hW.awaited_solo hr.1, answer, hok.1, rfl,
        fun d hd => (Grows.finishRun s k g t.run answer).grounded (hok.2 d hd)⟩
    · exact .inl hb
  all_goals exact fun b hb => .inl hb

/-- Only a conclusion diagnoses. -/
theorem Move.diagnosed_cases {setup : Setup} {s u : World} {k : ℕ} {a a' : Attempt} (h : Move setup s k a u a') :
    u.incident.state = .diagnosed → s.incident.state = .diagnosed ∨ ∃ d, a.pc = .concluding ⟨some d, none⟩ := by
  induction h
  case opened hi => exact fun hd => by rw [hi] at hd; cases hd
  case diagnosed d hpc _ _ => exact fun _ => .inr ⟨d, hpc⟩
  case escalated => exact fun hd => by cases hd
  all_goals exact .inl

theorem World.size_queued (setup : Setup) (s : World) (q : QueueOp) :
    s.attempts.size ≤ (s.queued setup q).attempts.size := by
  unfold queued
  dsimp only
  split
  · split_ifs
    · rw [Table.size_insert]
      exact Nat.le_succ _
    · exact Nat.le_refl _
  · exact Nat.le_refl _

theorem World.step_grounding {setup : Setup} {m : Mode} (hmode : ∀ k, (setup.config k).mode = m)
    {s s' : World} {op : Op} (h : s.step setup op = some s') (hs : Grounding setup m s) : Grounding setup m s' := by
  have hC := step_checkpointed h hs.checkpointed
  have hL := step_leases h hs.leases
  have hg := step_grows h
  rcases step_cases h with ⟨k, a, u, a', ha, rfl, hm⟩ | ⟨q, hq, rfl⟩ | rfl | ⟨now, x, hx, rfl⟩ | ⟨row, rfl⟩
  · have hW := hs.working k a ha
    refine ⟨hC, hL, fun b hb => ?_, fun b hb => ?_, fun j c hc => ?_, fun hd => ?_⟩
    · rcases hm.goodBatch hW b hb with hbs | hgood
      · exact hg.goodBatch (hs.batches b hbs)
      · exact hgood
    · rw [set_attempts, Table.size_modify, hm.attempts]
      rcases hm.batches_cases with he | ⟨-, g, es, he⟩
      · exact hs.attempts b (he ▸ hb)
      · rcases List.mem_append.mp (he ▸ hb : b ∈ s.batches ++ [⟨k, g, es⟩]) with hb | hb
        · exact hs.attempts b hb
        · rw [List.mem_singleton.mp hb]
          exact Table.lt_size ha
    · rcases get?_set hc with ⟨rfl, rfl⟩ | ⟨hne, hj⟩
      · have := hm.working hs.checkpointed hs.leases ha hW
        exact this.frame (Grows.same rfl rfl (fun _ h => h) fun _ h => h) (fun _ hb => .inl hb) id
      · have := hm.frame hs.leases ha (hm.attempts ▸ hj) hne (hs.working j c (hm.attempts ▸ hj))
        exact this.frame (Grows.same rfl rfl (fun _ h => h) fun _ h => h) (fun _ hb => .inl hb) id
    · rcases hm.diagnosed_cases hd with hold | ⟨d, hpc⟩
      · obtain ⟨d, hcon⟩ := hs.diagnosed hold
        exact ⟨d, hg.concludes hcon⟩
      · exact ⟨d, hg.concludes (hW.concluding d hpc)⟩
  · have hb : (s.queued setup q).batches = s.batches ∧ (s.queued setup q).incident = s.incident := by
      obtain ⟨jobs, attempts, he⟩ := queued_eq setup s q
      rw [he]
      exact ⟨rfl, rfl⟩
    have hjobs : (s.queued setup q).jobs = (q.apply s.jobs).1 := by
      unfold queued
      dsimp only
      split
      · split_ifs <;> rfl
      · rfl
    refine ⟨hC, hL, fun b hbm => hg.goodBatch (hs.batches b (hb.1 ▸ hbm)),
      fun b hbm => Nat.lt_of_lt_of_le (hs.attempts b (hb.1 ▸ hbm)) (size_queued setup s q), fun j c hc => ?_,
      fun hd => ?_⟩
    · rcases queued_attempts hc with hj | ⟨job, hj, rfl, -⟩
      · refine (hs.working j c hj).frame hg (fun b hbm => .inl (hb.1 ▸ hbm)) fun hh => ?_
        obtain ⟨r, hr, -, hle⟩ := hs.leases.fence j c hj
        rw [hjobs] at hh
        exact holds_of_apply hr hle hh
      · -- a claim has just begun the attempt: it has written nothing
        refine ⟨hmode j, (fun h => by cases h), (fun h => by cases h), fun _ _ ht => (by cases ht),
          (fun _ h => by cases h), fun b hbm hk => ?_, (fun _ h => by cases h), (fun _ h => by cases h)⟩
        have := hs.attempts b (hb.1 ▸ hbm)
        omega
    · obtain ⟨d, hcon⟩ := hs.diagnosed (hb.2 ▸ hd)
      exact ⟨d, hg.concludes hcon⟩
  · exact hs
  · refine ⟨hC, hL, hs.batches, hs.attempts, fun j c hc => (hs.working j c hc).frame hg (fun _ hb => .inl hb) id,
      fun hd => absurd hd hx⟩
  · exact ⟨hC, hL, fun b hb => hg.goodBatch (hs.batches b hb), hs.attempts,
      fun j c hc => (hs.working j c hc).frame hg (fun _ hb => .inl hb) id, hs.diagnosed⟩

/-- The diagnosis that the readers see is the one its concluder handed in. -/
theorem Grounding.stored {setup : Setup} {m : Mode} {s : World} (h : Grounding setup m s) {d : Diagnosis}
    (hd : Concludes m s d) :
    s.storedDiagnosis = some d ∧ ∃ b ∈ s.batches, b.agent = m.concluder ∧ Grounded setup s b.attempt b.agent d := by
  obtain ⟨-, b, hb, hagent, hhead⟩ := hd
  obtain ⟨-, answer, hfits, hentries, hgrounded⟩ := h.batches b hb
  have hcon : b.agent = .synthesizer ∨ b.agent = .solo := by
    cases m
    · exact .inl hagent
    · exact .inr hagent
  have hanswer : answer = .diagnosis d := by
    cases answer with
    | plan p => rcases hcon with hc | hc <;> rw [hc] at hfits <;> cases hfits
    | report r => rcases hcon with hc | hc <;> rw [hc] at hfits <;> cases hfits
    | diagnosis d' =>
      rw [hentries] at hhead
      simp only [entriesOf, List.head?_cons, Option.map_some, Option.some.injEq, Body.diagnosis.injEq] at hhead
      rw [hhead]
  subst hanswer
  refine ⟨?_, b, hb, hagent, hgrounded d rfl⟩
  -- the entries that are diagnoses are those of the concluder's one batch
  have hkind : ∀ e ∈ s.store.board, (decide (e.kind = .diagnosis) = true ↔
      decide (e.author = b.agent.name) = true) := by
    intro e he
    rw [h.checkpointed.recorded.board, List.mem_flatMap] at he
    obtain ⟨b', hb', he⟩ := he
    obtain ⟨hsolo', answer', hfits', hentries', -⟩ := h.batches b' hb'
    rw [hentries'] at he
    rw [decide_eq_true_eq, decide_eq_true_eq, author_entriesOf he]
    constructor
    · intro hk
      cases answer' with
      | plan p =>
        rw [List.mem_singleton.mp he] at hk
        cases hk
      | report r =>
        obtain ⟨f, -, rfl⟩ := List.mem_map.mp he
        cases hk
      | diagnosis d' =>
        have hcon' := fits_diagnosis.mp hfits'
        rw [hagent]
        cases m <;> rcases hcon' with hc | hc <;> rw [hc] at hsolo' ⊢ <;> simp [Mode.concluder] at hsolo' ⊢
    · intro hn
      have heq := Agent.name_injective hn
      obtain rfl := List.inj_on_of_nodup_map h.checkpointed.recorded.agents hb' hb heq
      rw [← hentries', hentries] at he
      rw [List.mem_singleton.mp he]
  have hfilter : s.store.entries (some .diagnosis) = b.entries := by
    rw [← h.checkpointed.recorded.wrote_eq hb, ← h.checkpointed.recorded.board_filter, AgentTables.entries]
    refine List.filter_congr fun e he => ?_
    rw [Bool.eq_iff_iff, ← hkind e he]
    simp
  rw [World.storedDiagnosis, hfilter, hentries]
  rfl

/-- What a diagnosis may cite: in the multi-agent mode what findings on the blackboard cite, in the
single-agent mode what was shown to the agent that wrote it. -/
def World.Citable (s : World) : Mode → String → Prop
  | .multi, id => ∃ f ∈ findingsOn s.store.board, id ∈ f.evidenceIds.1
  | .single, id => ∃ b ∈ s.batches, b.agent = .solo ∧ (b.attempt, .solo, id) ∈ s.shown

/-- The stored diagnosis of an incident that is DIAGNOSED is grounded. -/
theorem diagnosis_grounded (setup : Setup) (m : Mode) (hmode : ∀ k, (setup.config k).mode = m) (incident : Incident)
    (hi : incident.state ≠ .diagnosed) (evidence : List EvidenceRow) {ops : List Op} {s : World}
    (h : Runs.run (World.step setup) (.fresh incident evidence) ops = some s) (hd : s.incident.state = .diagnosed) :
    ∃ d, s.storedDiagnosis = some d ∧ d.rootCauses ≠ [] ∧
      ∀ ids ∈ d.items, Supported setup.incidentId s.evidence (s.Citable m) ids := by
  have hfresh : Grounding setup m (.fresh incident evidence) :=
    ⟨.fresh incident evidence, .fresh setup incident evidence, fun b hb => absurd hb List.not_mem_nil,
      fun b hb => absurd hb List.not_mem_nil, fun k a ha => by simp [World.fresh] at ha, fun hd => absurd hd hi⟩
  have hs : Grounding setup m s := Runs.invariant (fun _ _ _ hs h => World.step_grounding hmode h hs) h hfresh
  obtain ⟨d, hcon⟩ := hs.diagnosed hd
  obtain ⟨hstored, b, hb, hagent, hgrounded⟩ := hs.stored hcon
  refine ⟨d, hstored, hcon.1, fun ids hids => (hgrounded ids hids).mono (fun _ hr => hr) fun id hid => ?_⟩
  cases m with
  | multi =>
    have hne : b.agent ≠ .solo := by simp [hagent, Mode.concluder]
    rw [World.MayCite, if_neg hne] at hid
    exact hid
  | single =>
    have hsolo : b.agent = .solo := hagent
    rw [World.MayCite, hsolo, if_pos rfl] at hid
    exact ⟨b, hb, hsolo, hid⟩

def sampleDiagnosis : Diagnosis :=
  { summary := ⟨"payment is down", by decide⟩,
    rootCauses := [⟨⟨"payment", by decide⟩, ⟨"bad release", by decide⟩, ⟨9 / 10, by norm_num⟩, ⟨["ev_1"], by decide⟩⟩],
    facts := [], inferences := [], hypotheses := [], bounded := by decide }

/-- One agent, one query and its answer. -/
theorem diagnosis_grounded_solo :
    let setup : Setup := { incidentId := 0, config := fun _ => { mode := .single } }
    let ops : List Op := [.queue (.enqueue 0 investigateJob), .queue (.claim 1 "w1" 30 3 none fun _ => false),
      .next 0 2, .next 0 2, .next 0 2, .task 0 .solo, .task 0 .solo,
      .answer 0 .solo (.ok ⟨[⟨"prom_query", .obj []⟩], none, {}⟩), .task 0 .solo, .called 0 .solo 0 (.ok "ev_1"),
      .task 0 .solo] ++ (answered 0 .solo (.diagnosis sampleDiagnosis)).tail ++ [.next 0 3, .next 0 4]
    ∃ s, Runs.run (World.step setup) (.fresh sampleIncident []) ops = some s ∧ s.incident.state = .diagnosed ∧
      ∃ d, s.storedDiagnosis = some d ∧ d.rootCauses ≠ [] ∧
        ∀ ids ∈ d.items, Supported setup.incidentId s.evidence (s.Citable .single) ids := by
  intro setup ops
  have h : (Runs.run (World.step setup) (.fresh sampleIncident []) ops).any
      (fun s => s.incident.state = .diagnosed) = true := by
    decide +kernel
  obtain ⟨s, hs, hd⟩ := (Option.any_eq_true ..).mp h
  have hd : s.incident.state = .diagnosed := of_decide_eq_true hd
  exact ⟨s, hs, hd, diagnosis_grounded setup .single (fun _ => rfl) sampleIncident (by decide) [] hs hd⟩

end Blackboard.Agents

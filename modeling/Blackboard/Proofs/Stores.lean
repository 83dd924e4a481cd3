import Blackboard.Lib.Runs
import Blackboard.Spec.Stores

/-! The two agent stores against each other. They answer alike as long as nothing ends a run that is
done: the updates of Postgres leave such a run alone, in memory it is overwritten and its entries
are added once more. -/

namespace Blackboard.Agents

variable {B : Type}

abbrev Seen := String × RunStatus × ℕ

/-- What a write of one agent's run does to what is seen of all runs. -/
def setSeen (l : List Seen) (x : Seen) : List Seen :=
  if l.any fun y => y.1 = x.1 then l.map fun y => if y.1 = x.1 then x else y else l ++ [x]

theorem mem_setSeen {l : List Seen} {x y : Seen} : y ∈ setSeen l x ↔ y = x ∨ y ∈ l ∧ y.1 ≠ x.1 := by
  unfold setSeen
  by_cases h : l.any fun z => z.1 = x.1
  · rw [if_pos h]
    simp only [List.any_eq_true, decide_eq_true_eq] at h
    obtain ⟨z, hz, hzx⟩ := h
    simp only [List.mem_map]
    constructor
    · rintro ⟨w, hw, rfl⟩
      by_cases hwx : w.1 = x.1
      · exact Or.inl (if_pos hwx)
      · rw [if_neg hwx]
        exact Or.inr ⟨hw, hwx⟩
    · rintro (rfl | ⟨hy, hne⟩)
      · exact ⟨z, hz, if_pos hzx⟩
      · exact ⟨y, hy, if_neg hne⟩
  · rw [if_neg h]
    simp only [List.any_eq_true, decide_eq_true_eq, not_exists, not_and] at h
    rw [List.mem_append, List.mem_singleton, or_comm]
    exact or_congr_right ⟨fun hy => ⟨hy, h y hy⟩, And.left⟩

theorem nodup_setSeen {l : List Seen} {x : Seen} (h : (l.map Prod.fst).Nodup) : ((setSeen l x).map Prod.fst).Nodup := by
  unfold setSeen
  by_cases ha : l.any fun z => z.1 = x.1
  · rw [if_pos ha, List.map_map]
    have hsame : (Prod.fst ∘ fun y : Seen => if y.1 = x.1 then x else y) = Prod.fst := by
      funext y
      by_cases hy : y.1 = x.1
      · simp [hy]
      · simp [hy]
    rwa [hsame]
  · rw [if_neg ha, List.map_append, List.nodup_append]
    refine ⟨h, List.nodup_singleton _, fun a ha' b hb => ?_⟩
    simp only [List.any_eq_true, decide_eq_true_eq, not_exists, not_and] at ha
    obtain ⟨y, hy, rfl⟩ := List.mem_map.mp ha'
    rw [List.map_singleton, List.mem_singleton] at hb
    exact hb ▸ ha y hy

theorem seen_put (s : MemoryStore B) (r : RunRow) :
    (s.put r).runRows.map RunRow.seen = setSeen (s.runRows.map RunRow.seen) r.seen := by
  have hany : ((s.runRows.map RunRow.seen).any fun y => y.1 = r.seen.1) = s.runRows.any fun q => q.agent = r.agent := by
    rw [List.any_map]
    rfl
  unfold MemoryStore.put setSeen
  rw [hany]
  by_cases h : s.runRows.any fun q => q.agent = r.agent
  · rw [if_pos h, if_pos h, List.map_map, List.map_map]
    refine List.map_congr_left fun q _ => ?_
    by_cases hq : q.agent = r.agent
    · simp [RunRow.seen, hq]
    · simp [RunRow.seen, hq]
  · rw [if_neg h, if_neg h, List.map_append, List.map_singleton]

/-- An UPDATE with its guard, where no row of the agent is done. -/
theorem seen_updateRun {s : AgentTables B} {agent : String} {f : RunRow → RunRow} {st : RunStatus} {steps : ℕ}
    (hf : ∀ r, r.agent = agent → (f r).seen = (agent, st, steps)) (hrow : ∃ x ∈ s.runs.map RunRow.seen, x.1 = agent)
    (hopen : ∀ x ∈ s.runs.map RunRow.seen, x.1 = agent → x.2.1 ≠ .done) :
    (s.updateRun agent f).runs.map RunRow.seen = setSeen (s.runs.map RunRow.seen) (agent, st, steps) := by
  obtain ⟨x, hx, hxa⟩ := hrow
  rw [setSeen, if_pos (List.any_eq_true.mpr ⟨x, hx, decide_eq_true hxa⟩), AgentTables.updateRun, List.map_map,
    List.map_map]
  refine List.map_congr_left fun r hr => ?_
  have hdone : r.agent = agent → r.status ≠ .done := hopen r.seen (List.mem_map_of_mem hr)
  by_cases hra : r.agent = agent
  · simp only [Function.comp_apply, RunRow.openFor, hra, hdone hra, ne_eq, not_false_eq_true, decide_true,
      Bool.and_self, if_true]
    rw [hf r hra, if_pos (show r.seen.1 = agent from hra)]
  · simp only [Function.comp_apply, RunRow.openFor, hra, decide_false, Bool.false_and, Bool.false_eq_true, if_false]
    rw [if_neg (show ¬ r.seen.1 = agent from hra)]

/-- It leaves everything alone where every row of the agent is done. -/
theorem updateRun_done {s : AgentTables B} {agent : String} {f : RunRow → RunRow}
    (hdone : ∀ x ∈ s.runs.map RunRow.seen, x.1 = agent → x.2.1 = .done) : s.updateRun agent f = s := by
  rw [AgentTables.updateRun]
  congr 1
  refine (List.map_congr_left fun r hr => if_neg fun ho => ?_).trans (List.map_id _)
  simp only [RunRow.openFor, Bool.and_eq_true, decide_eq_true_eq] at ho
  exact ho.2 (hdone r.seen (List.mem_map_of_mem hr) ho.1)

/-! What is asked of an operation, with those before it. -/

/-- The agent whose run it ends. -/
def StoreOp.ends? : StoreOp B → Option String
  | .finishRun agent .. => some agent
  | .failRun agent .. => some agent
  | _ => none

def Started (pre : List (StoreOp B)) (op : StoreOp B) : Prop :=
  ∀ agent, op.ends? = some agent → ∃ model promptVersion, .startRun agent model promptVersion ∈ pre

/-- A run that was finished is neither finished nor failed again. -/
def FinishedOnce (pre : List (StoreOp B)) (op : StoreOp B) : Prop :=
  ∀ agent, op.ends? = some agent → ∀ steps result es, .finishRun agent steps result es ∉ pre

/-- The database takes the operation, and gives back the bodies it writes. -/
def Kept (pg : Columns B) (op : StoreOp B) : Prop :=
  pg.takes op = true ∧ ∀ agent steps result es, op = .finishRun agent steps result es →
  ∀ e ∈ es, pg.body e.body = e.body

/-- What the two stores have in common after these operations. -/
structure Alike (pre : List (StoreOp B)) (m : MemoryStore B) (p : AgentTables B) : Prop where
  board : m.board = p.board
  runs : m.runRows.map RunRow.seen = p.runs.map RunRow.seen
  agents : ((p.runs.map RunRow.seen).map Prod.fst).Nodup
  started : ∀ agent model promptVersion, .startRun agent model promptVersion ∈ pre →
    ∃ x ∈ p.runs.map RunRow.seen, x.1 = agent
  finished : ∀ x ∈ p.runs.map RunRow.seen, x.2.1 = .done → ∃ steps result es, .finishRun x.1 steps result es ∈ pre

namespace Alike

variable {pre : List (StoreOp B)} {m m' : MemoryStore B} {p p' : AgentTables B} {op : StoreOp B} {x : Seen}

/-- Both stores write the same run. -/
theorem set (h : Alike pre m p) (hm : m'.runRows.map RunRow.seen = setSeen (m.runRows.map RunRow.seen) x)
    (hp : p'.runs.map RunRow.seen = setSeen (p.runs.map RunRow.seen) x) (hb : m'.board = p'.board)
    (hs : ∀ agent model promptVersion, op = .startRun agent model promptVersion → x.1 = agent)
    (hd : x.2.1 = .done → ∃ steps result es, op = .finishRun x.1 steps result es) : Alike (pre ++ [op]) m' p' where
  board := hb
  runs := by rw [hm, hp, h.runs]
  agents := hp ▸ nodup_setSeen h.agents
  started agent model promptVersion hmem := by
    simp only [hp, mem_setSeen]
    rcases List.mem_append.mp hmem with hmem | hmem
    · obtain ⟨y, hy, rfl⟩ := h.started agent model promptVersion hmem
      by_cases hyx : y.1 = x.1
      · exact ⟨x, Or.inl rfl, hyx.symm⟩
      · exact ⟨y, Or.inr ⟨hy, hyx⟩, rfl⟩
    · exact ⟨x, Or.inl rfl, hs agent model promptVersion (List.mem_singleton.mp hmem).symm⟩
  finished y hy hdone := by
    rw [hp, mem_setSeen] at hy
    rcases hy with rfl | ⟨hy, -⟩
    · obtain ⟨steps, result, es, rfl⟩ := hd hdone
      exact ⟨steps, result, es, by simp⟩
    · obtain ⟨steps, result, es, hmem⟩ := h.finished y hy hdone
      exact ⟨steps, result, es, List.mem_append_left _ hmem⟩

/-- Neither store changes. -/
theorem keep (h : Alike pre m p) (hs : ∀ agent model promptVersion, op = .startRun agent model promptVersion →
    ∃ x ∈ p.runs.map RunRow.seen, x.1 = agent) : Alike (pre ++ [op]) m p where
  board := h.board
  runs := h.runs
  agents := h.agents
  started agent model promptVersion hmem := by
    rcases List.mem_append.mp hmem with hmem | hmem
    · exact h.started agent model promptVersion hmem
    · exact hs agent model promptVersion (List.mem_singleton.mp hmem).symm
  finished y hy hdone := by
    obtain ⟨steps, result, es, hmem⟩ := h.finished y hy hdone
    exact ⟨steps, result, es, List.mem_append_left _ hmem⟩

/-- The run that memory finds is the one the rows have. -/
theorem run? (h : Alike pre m p) (agent : String) :
    (m.run? agent = none ∧ ∀ x ∈ p.runs.map RunRow.seen, x.1 ≠ agent) ∨
    ∃ r, m.run? agent = some r ∧ r.seen ∈ p.runs.map RunRow.seen ∧ r.agent = agent ∧
      ∀ x ∈ p.runs.map RunRow.seen, x.1 = agent → x = r.seen := by
  cases hr : m.run? agent with
  | none =>
    refine Or.inl ⟨rfl, fun x hx hxa => ?_⟩
    rw [← h.runs] at hx
    obtain ⟨r, hmem, rfl⟩ := List.mem_map.mp hx
    have := List.find?_eq_none.mp hr r hmem
    exact this (decide_eq_true hxa)
  | some r =>
    have hmem : r.seen ∈ p.runs.map RunRow.seen := h.runs ▸ List.mem_map_of_mem (List.mem_of_find?_eq_some hr)
    have hagent : r.agent = agent := by simpa using List.find?_some hr
    exact Or.inr ⟨r, rfl, hmem, hagent, fun x hx hxa =>
      List.inj_on_of_nodup_map h.agents hx hmem (hxa.trans hagent.symm)⟩

theorem startRun (h : Alike pre m p) (agent model promptVersion : String) :
    Alike (pre ++ [.startRun agent model promptVersion]) (m.startRun agent model promptVersion)
      (p.startRun agent model promptVersion) := by
  have hs : ∀ a mo v, StoreOp.startRun (B := B) agent model promptVersion = .startRun a mo v →
      agent = a := fun a mo v he =>
    (StoreOp.startRun.inj he).1
  unfold MemoryStore.startRun AgentTables.startRun
  rcases h.run? agent with ⟨hr, hnone⟩ | ⟨r, hr, hmem, hagent, hsole⟩
  · have hany : ¬ (p.runs.any fun r => r.agent = agent) = true := by
      rw [List.any_eq_true]
      rintro ⟨r, hmem, hra⟩
      exact hnone r.seen (List.mem_map_of_mem hmem) (of_decide_eq_true hra)
    rw [hr, if_neg hany]
    refine h.set (x := (agent, .running, 0)) (seen_put ..) ?_ h.board (fun a mo v he => hs a mo v he)
      (fun hd => by cases hd)
    rw [setSeen, if_neg, List.map_append]
    · rfl
    · rw [List.any_eq_true]
      rintro ⟨x, hx, hxa⟩
      exact hnone x hx (of_decide_eq_true hxa)
  · have hany : (p.runs.any fun r => r.agent = agent) = true := by
      obtain ⟨q, hq, hqr⟩ := List.mem_map.mp hmem
      exact List.any_eq_true.mpr ⟨q, hq, decide_eq_true ((congrArg Prod.fst hqr).trans hagent)⟩
    rw [hr, if_pos hany]
    by_cases hdone : r.status = .done
    · -- neither store starts a run again that is done
      dsimp only
      rw [if_neg (not_not_intro hdone), updateRun_done fun x hx hxa => hsole x hx hxa ▸ hdone]
      exact h.keep fun a mo v he => ⟨r.seen, hmem, hagent.trans (hs a mo v he)⟩
    · dsimp only
      rw [if_pos hdone]
      refine h.set (x := (agent, .running, 0)) (seen_put ..) ?_ h.board (fun a mo v he => hs a mo v he)
        (fun hd => by cases hd)
      exact seen_updateRun (fun q hq => by rw [← hq]; rfl) ⟨r.seen, hmem, hagent⟩ fun x hx hxa => hsole x hx hxa ▸ hdone

/-- A run that was started, and not finished, is there to be ended, and is not done. -/
theorem running (h : Alike pre m p) {agent : String} (hends : op.ends? = some agent) (hstart : Started pre op)
    (honce : FinishedOnce pre op) :
    ∃ r, m.run? agent = some r ∧ (∃ x ∈ p.runs.map RunRow.seen, x.1 = agent) ∧
      ∀ x ∈ p.runs.map RunRow.seen, x.1 = agent → x.2.1 ≠ .done := by
  obtain ⟨model, promptVersion, hmem⟩ := hstart agent hends
  obtain ⟨x, hx, hxa⟩ := h.started agent model promptVersion hmem
  rcases h.run? agent with ⟨-, hnone⟩ | ⟨r, hr, -⟩
  · exact absurd hxa (hnone x hx)
  · refine ⟨r, hr, ⟨x, hx, hxa⟩, fun y hy hya hdone => ?_⟩
    obtain ⟨steps, result, es, hfin⟩ := h.finished y hy hdone
    exact honce agent hends steps result es (hya ▸ hfin)

theorem finishRun (h : Alike pre m p) {agent : String} {steps : ℕ} {result : List (String × Json)} {es : List (Entry B)}
    (hstart : Started pre (.finishRun agent steps result es))
    (honce : FinishedOnce pre (.finishRun agent steps result es)) :
    ∃ m', m.finishRun agent steps result es = some m' ∧
      Alike (pre ++ [.finishRun agent steps result es]) m' (p.finishRun agent steps result es) := by
  obtain ⟨r, hr, hrow, hopen⟩ := h.running rfl hstart honce
  obtain ⟨x, hx, hxa⟩ := hrow
  have hany : p.runs.any (RunRow.openFor agent) = true := by
    obtain ⟨q, hq, rfl⟩ := List.mem_map.mp hx
    refine List.any_eq_true.mpr ⟨q, hq, ?_⟩
    simp only [RunRow.openFor, Bool.and_eq_true, decide_eq_true_eq]
    exact ⟨hxa, hopen q.seen hx hxa⟩
  rw [MemoryStore.finishRun, hr, AgentTables.finishRun, if_pos hany]
  refine ⟨_, rfl, h.set (x := (agent, .done, steps)) (seen_put ..) ?_ ?_ (fun a mo v he => by cases he) fun _ =>
    ⟨_, _, _, rfl⟩⟩
  · exact seen_updateRun (fun q hq => by rw [← hq]; rfl) ⟨x, hx, hxa⟩ hopen
  · exact congrArg (· ++ es) h.board

theorem failRun (h : Alike pre m p) {agent : String} {steps : ℕ} {error : String}
    (hstart : Started pre (.failRun agent steps error)) (honce : FinishedOnce pre (.failRun agent steps error)) :
    ∃ m', m.failRun agent steps error = some m' ∧
    Alike (pre ++ [.failRun agent steps error]) m' (p.failRun agent steps error) := by
  obtain ⟨r, hr, hrow, hopen⟩ := h.running rfl hstart honce
  rw [MemoryStore.failRun, hr, AgentTables.failRun]
  refine ⟨_, rfl, h.set (x := (agent, .failed, steps)) (seen_put ..) ?_ h.board (fun a mo v he => by cases he)
    (fun hd => by cases hd)⟩
  exact seen_updateRun (fun q hq => by rw [← hq]; rfl) hrow hopen

/-- One operation is answered alike, and what the stores have in common stays. -/
theorem step (h : Alike pre m p) {pg : Columns B} (hstart : Started pre op) (honce : FinishedOnce pre op)
    (hkept : Kept pg op) :
    (m.step op).1 = (p.step pg op).1 ∧ Alike (pre ++ [op]) (m.step op).2 (p.step pg op).2 := by
  cases op with
  | startRun agent model promptVersion =>
    rw [AgentTables.step, AgentTables.write, if_pos hkept.1]
    exact ⟨rfl, h.startRun agent model promptVersion⟩
  | finishRun agent steps result es =>
    have hes : es.map (AgentTables.stored pg) = es := by
      refine (List.map_congr_left fun e he => ?_).trans (List.map_id es)
      rw [AgentTables.stored, hkept.2 _ _ _ _ rfl e he]
      rfl
    obtain ⟨m', hm, h'⟩ := h.finishRun hstart honce
    rw [MemoryStore.step, hm, AgentTables.step, AgentTables.write, if_pos hkept.1, hes]
    exact ⟨rfl, h'⟩
  | failRun agent steps error =>
    obtain ⟨m', hm, h'⟩ := h.failRun hstart honce
    rw [MemoryStore.step, hm, AgentTables.step, AgentTables.write, if_pos hkept.1]
    exact ⟨rfl, h'⟩
  | entries kind =>
    refine ⟨?_, h.keep fun a mo v he => by cases he⟩
    rw [MemoryStore.step, AgentTables.step, MemoryStore.entries, AgentTables.entries, h.board]
  | runs =>
    refine ⟨?_, h.keep fun a mo v he => by cases he⟩
    rw [MemoryStore.step, AgentTables.step, h.runs]

theorem init : Alike (B := B) [] {} {} where
  board := rfl
  runs := rfl
  agents := List.nodup_nil
  started _ _ _ h := absurd h List.not_mem_nil
  finished _ h := absurd h List.not_mem_nil

end Alike

/-- The stores answer every sequence of operations alike in which no run is finished or failed after it
was finished. -/
theorem stores_agree (pg : Columns B) {ops : List (StoreOp B)} (hstart : Runs.Orderly Started ops)
    (honce : Runs.Orderly FinishedOnce ops) (hkept : ∀ op ∈ ops, Kept pg op) :
    Runs.replies MemoryStore.step {} ops = Runs.replies (AgentTables.step pg) {} ops := by
  refine Runs.replies_eq (R := Alike) (K := fun pre op => Started pre op ∧ FinishedOnce pre op ∧ Kept pg op)
    (fun pre op m p h hok => h.step hok.1 hok.2.1 hok.2.2) Alike.init fun mid op post he => ?_
  rw [List.nil_append]
  exact ⟨hstart mid op post he, honce mid op post he, hkept op (by rw [he]; simp)⟩

/-! One run of one agent. -/

/-- A database that takes everything and gives it back. -/
def faithful (B : Type) : Columns B := ⟨fun _ => true, id⟩

def sampleEntry : Entry String := { kind := .finding, author := "metrics", body := "latency doubled at 10:02" }

def finishOnce : List (StoreOp String) :=
  [.startRun "metrics" "m" "v1", .finishRun "metrics" 3 [] [sampleEntry], .runs, .entries none]

/-- One agent's operations after its start. -/
theorem started_cons {agent model promptVersion : String} {ops : List (StoreOp B)}
    (h : ∀ op ∈ ops, ∀ a, op.ends? = some a → a = agent) :
    Runs.Orderly Started (.startRun agent model promptVersion :: ops) := by
  intro pre op post he a hends
  rcases pre with _ | ⟨first, pre⟩
  · obtain ⟨rfl, -⟩ := List.cons.inj he
    cases hends
  · obtain ⟨rfl, htail⟩ := List.cons.inj he
    have hop : op ∈ ops := htail ▸ List.mem_append_right _ List.mem_cons_self
    obtain rfl := h op hop a hends
    exact ⟨model, promptVersion, List.mem_cons_self⟩

theorem started_finishOnce : Runs.Orderly Started finishOnce :=
  started_cons fun op hop a hends => by
    simp only [List.mem_cons, List.not_mem_nil, or_false] at hop
    rcases hop with rfl | rfl | rfl
    · exact (Option.some.inj hends).symm
    · cases hends
    · cases hends

theorem finishedOnce_finishOnce : Runs.Orderly FinishedOnce finishOnce := by
  intro pre op post he agent hends
  rcases pre with _ | ⟨first, _ | ⟨second, pre⟩⟩
  · obtain ⟨rfl, -⟩ := List.cons.inj he
    cases hends
  · obtain ⟨rfl, -⟩ := List.cons.inj he
    simp
  · have hop : op ∈ finishOnce.tail.tail := by
      rw [he]
      exact List.mem_append_right pre List.mem_cons_self
    simp only [finishOnce, List.tail_cons, List.mem_cons, List.not_mem_nil, or_false] at hop
    rcases hop with rfl | rfl <;> cases hends

theorem stores_agree_once :
    Runs.replies MemoryStore.step {} finishOnce = Runs.replies (AgentTables.step (faithful String)) {} finishOnce :=
  stores_agree (faithful String) started_finishOnce finishedOnce_finishOnce fun _ _ => ⟨rfl, fun _ _ _ _ _ _ _ => rfl⟩

def finishTwice : List (StoreOp String) :=
  [.startRun "metrics" "m" "v1", .finishRun "metrics" 3 [] [sampleEntry], .finishRun "metrics" 3 [] [sampleEntry],
    .entries none]

/-- Finished twice, a run has its entries twice in memory. -/
theorem stores_disagree : Runs.Orderly Started finishTwice ∧
    Runs.replies MemoryStore.step {} finishTwice = [.done, .done, .done, .entries [sampleEntry, sampleEntry]] ∧
    Runs.replies (AgentTables.step (faithful String)) {} finishTwice =
    [.done, .done, .done, .entries [sampleEntry]] := by
  refine ⟨started_cons fun op hop a hends => ?_, rfl, rfl⟩
  simp only [List.mem_cons, List.not_mem_nil, or_false] at hop
  rcases hop with rfl | rfl | rfl
  · exact (Option.some.inj hends).symm
  · exact (Option.some.inj hends).symm
  · cases hends

end Blackboard.Agents

import Blackboard.Proofs.AgentLoop
import Mathlib.Data.List.Chain
import Mathlib.Data.List.Nodup

/-! The messages of a transcript: each round is a message of the assistant and the user's message
that answers it. -/

namespace Blackboard.AgentLoop

variable {α : Type}

/-! What the Messages API asks of a request. -/

namespace Block

def isText : Block → Bool
  | text _ => true
  | _ => false

def isResult : Block → Bool
  | toolResult _ _ _ => true
  | _ => false

def useId? : Block → Option String
  | toolUse id _ _ => some id
  | _ => none

def resultId? : Block → Option String
  | toolResult id _ _ => some id
  | _ => none

end Block

namespace Message

def toolUses (m : Message) : List String := m.content.filterMap Block.useId?

def toolResults (m : Message) : List String := m.content.filterMap Block.resultId?

end Message

/-- `u` has one result for each call of `a`, ahead of its texts. -/
structure Answered (a u : Message) : Prop where
  user : u.role = .user
  once : ∀ id ∈ a.toolUses, u.toolResults.count id = 1
  ahead : u.content.Pairwise fun b c => c.isResult → ¬ b.isText

structure Valid (ms : List Message) : Prop where
  starts : ∃ m, ms.head? = some m ∧ m.role = .user
  alternate : ms.IsChain fun a b => a.role ≠ b.role
  distinct : (ms.flatMap Message.toolUses).Nodup
  answered : ∀ i a u, ms[i]? = some a → a.role = .assistant → ms[i + 1]? = some u → Answered a u

/-- The last message is the user's: nothing waits for an answer. -/
def Complete (ms : List Message) : Prop := ∃ u, ms.getLast? = some u ∧ u.role = .user

theorem Valid.snoc {ms : List Message} (h : Valid ms) {l m : Message} (hl : ms.getLast? = some l)
    (hrole : l.role ≠ m.role) (hnodup : m.toolUses.Nodup) (hnew : ∀ id ∈ m.toolUses, id ∉ ms.flatMap Message.toolUses)
    (hans : l.role = .assistant → Answered l m) : Valid (ms ++ [m]) where
  starts := by
    obtain ⟨f, hf, hu⟩ := h.starts
    exact ⟨f, by rw [List.head?_append, hf]; rfl, hu⟩
  alternate := by
    refine List.isChain_append.2 ⟨h.alternate, List.isChain_singleton m, ?_⟩
    intro a ha b hb
    rw [hl] at ha
    obtain rfl := Option.some.inj ha
    obtain rfl := Option.some.inj hb
    exact hrole
  distinct := by
    rw [List.flatMap_append, List.flatMap_singleton]
    exact h.distinct.append hnodup fun id hid hm => hnew id hm hid
  answered := by
    intro i a u ha hassistant hu
    by_cases hi : i + 1 < ms.length
    · rw [List.getElem?_append_left (by omega)] at ha
      rw [List.getElem?_append_left hi] at hu
      exact h.answered i a u ha hassistant hu
    · have hlen : i + 1 = ms.length := by
        have := (List.getElem?_eq_some_iff.1 hu).1
        rw [List.length_append, List.length_singleton] at this
        omega
      rw [List.getElem?_append_left (by omega)] at ha
      rw [List.getElem?_append_right hlen.ge, hlen, Nat.sub_self] at hu
      obtain rfl := Option.some.inj hu
      rw [List.getLast?_eq_getElem?, ← hlen, Nat.add_sub_cancel, ha] at hl
      obtain rfl := Option.some.inj hl
      exact hans hassistant

/-! Blocks of one role are one message. -/

theorem append_other {ms : List Message} {l : Message} {r : Role} (hl : ms.getLast? = some l) (h : l.role ≠ r)
    (b : Block) :
    append ms r b = ms ++ [⟨r, [b]⟩] := by
  unfold append
  rw [hl]
  exact if_neg h

theorem append_same (ms : List Message) (r : Role) (c : List Block) (b : Block) :
    append (ms ++ [⟨r, c⟩]) r b = ms ++ [⟨r, c ++ [b]⟩] := by
  unfold append
  rw [List.getLast?_concat]
  dsimp only
  rw [if_pos rfl, List.dropLast_concat]

theorem foldl_same (ms : List Message) (r : Role) (c bs : List Block) :
    bs.foldl (fun ms b => append ms r b) (ms ++ [⟨r, c⟩]) = ms ++ [⟨r, c ++ bs⟩] := by
  induction bs generalizing c with
  | nil => rw [List.foldl_nil, List.append_nil]
  | cons b bs ih => rw [List.foldl_cons, append_same, ih, List.append_assoc, List.singleton_append]

theorem foldl_other {m : List Message} {l : Message} {r : Role} (hl : m.getLast? = some l) (h : l.role ≠ r)
    {s : List Block} (hbs : s ≠ []) : s.foldl (fun ms b => append ms r b) m = m ++ [⟨r, s⟩] := by
  obtain ⟨b, bs, rfl⟩ := List.exists_cons_of_ne_nil hbs
  rw [List.foldl_cons, append_other hl h, foldl_same, List.singleton_append]

/-! The ids of the calls. -/

def actionId (k j : ℕ) : String := "c" ++ toString k ++ "_" ++ toString j

def finalId (i : ℕ) : String := "final_" ++ toString i

theorem toString_toList (n : ℕ) : (toString n).toList = Nat.toDigits 10 n := Nat.toList_repr

theorem toDigits_inj {m n : ℕ} (h : Nat.toDigits 10 m = Nat.toDigits 10 n) : m = n := by
  rw [← Nat.ofDigitChars_ten_toDigits (n := m), h, Nat.ofDigitChars_ten_toDigits]

theorem underscore_not_mem_toDigits (n : ℕ) : '_' ∉ Nat.toDigits 10 n := fun h => by
  have := Nat.isDigit_of_mem_toDigits (by decide) (by decide) h
  exact absurd this (by decide)

theorem actionId_toList (k j : ℕ) : (actionId k j).toList = 'c' :: (Nat.toDigits 10 k ++ '_' :: Nat.toDigits 10 j) := by
  simp only [actionId, String.toList_append, toString_toList, List.append_assoc]
  rfl

theorem finalId_toList (i : ℕ) : (finalId i).toList = 'f' :: 'i' :: 'n' :: 'a' :: 'l' :: '_' :: Nat.toDigits 10 i := by
  simp only [finalId, String.toList_append, toString_toList]
  rfl

theorem actionId_inj {k j k' j' : ℕ} (h : actionId k j = actionId k' j') : k = k' ∧ j = j' := by
  have hl := congrArg String.toList h
  rw [actionId_toList, actionId_toList] at hl
  obtain ⟨hk, -, hj⟩ :=
    (List.append_cons_inj_of_notMem (underscore_not_mem_toDigits k) (underscore_not_mem_toDigits j)).1
    (List.cons.inj hl).2
  exact ⟨toDigits_inj hk, toDigits_inj hj⟩

theorem finalId_inj {i i' : ℕ} (h : finalId i = finalId i') : i = i' := by
  have hl := congrArg String.toList h
  rw [finalId_toList, finalId_toList] at hl
  simp only [List.cons.injEq, true_and] at hl
  exact toDigits_inj hl

theorem actionId_ne_finalId (k j i : ℕ) : actionId k j ≠ finalId i := fun h => by
  have hl := congrArg String.toList h
  rw [actionId_toList, finalId_toList] at hl
  exact absurd (List.cons.inj hl).1 (by decide)

theorem numbered_ids (k : ℕ) (as : List Llm.StepAction) :
    (numbered k as).map TurnAction.id = (List.range' 1 (as.take MAX_ACTIONS).length).map (actionId k) := by
  rw [numbered, List.map_map, ← List.zipIdx_map_snd 1 (as.take MAX_ACTIONS), List.map_map]
  rfl

theorem numbered_ids_nodup (k : ℕ) (as : List Llm.StepAction) : ((numbered k as).map TurnAction.id).Nodup := by
  rw [numbered_ids]
  exact (List.nodup_range' 1 Nat.one_pos).map fun _ _ h => (actionId_inj h).2

theorem numbered_ne_nil (k : ℕ) {as : List Llm.StepAction} (h : as ≠ []) : numbered k as ≠ [] := by
  obtain ⟨a, as, rfl⟩ := List.exists_cons_of_ne_nil h
  exact List.cons_ne_nil _ _

/-- The ids of the rounds before the `k`th, whose step is turn `i`. -/
def Earlier (k i : ℕ) (id : String) : Prop := (∃ k' < k, ∃ j, id = actionId k' j) ∨ ∃ i' < i, id = finalId i'

theorem not_earlier_action (k i j : ℕ) : ¬ Earlier k i (actionId k j) := by
  rintro (⟨k', hk, j', h⟩ | ⟨i', -, h⟩)
  · have := (actionId_inj h).1
    omega
  · exact actionId_ne_finalId k j i' h

theorem not_earlier_final (k i : ℕ) : ¬ Earlier k i (finalId i) := by
  rintro (⟨k', -, j, h⟩ | ⟨i', hi, h⟩)
  · exact actionId_ne_finalId k' j i h.symm
  · have := finalId_inj h
    omega

theorem Earlier.mono {k k' i i' : ℕ} {id : String} (h : Earlier k i id) (hk : k ≤ k') (hi : i ≤ i') :
    Earlier k' i' id := by
  rcases h with ⟨k₀, hk₀, j, rfl⟩ | ⟨i₀, hi₀, rfl⟩
  · exact .inl ⟨k₀, by omega, j, rfl⟩
  · exact .inr ⟨i₀, by omega, rfl⟩

/-! A round is two messages. -/

/-- The state of the renderer after some turns. -/
def renderFrom (i : ℕ) (s : List Message × Option String) (turns : List Turn) : List Message × Option String :=
  (turns.zipIdx i).foldl renderTurn s

theorem renderFrom_append (i : ℕ) (s : List Message × Option String) (turns more : List Turn) :
    renderFrom i s (turns ++ more) = renderFrom (i + turns.length) (renderFrom i s turns) more := by
  rw [renderFrom, List.zipIdx_append, List.foldl_append]
  rfl

theorem stepBlocks_queried (i : ℕ) (reasoning : String) {actions : List TurnAction} (h : actions ≠ []) :
    stepBlocks i reasoning actions none ≠ [] ∧
      (stepBlocks i reasoning actions none).filterMap Block.useId? = actions.map TurnAction.id := by
  obtain ⟨a, as, rfl⟩ := List.exists_cons_of_ne_nil h
  have huses (as : List TurnAction) :
      (as.map fun a => Block.toolUse a.id a.tool a.args).filterMap Block.useId? = as.map TurnAction.id := by
    induction as with
    | nil => rfl
    | cons a as ih => rw [List.map_cons, List.filterMap_cons, ih]; rfl
  by_cases hr : reasoning = ""
  · simp only [stepBlocks, if_pos hr, List.nil_append, List.append_nil]
    exact ⟨List.cons_ne_nil _ _, huses _⟩
  · simp only [stepBlocks, if_neg hr, List.append_nil]
    exact ⟨List.cons_ne_nil _ _, huses _⟩

theorem stepBlocks_final (i : ℕ) (reasoning : String) (final : Json) :
    stepBlocks i reasoning [] (some final) ≠ [] ∧
      (stepBlocks i reasoning [] (some final)).filterMap Block.useId? = [finalId i] := by
  by_cases hr : reasoning = ""
  · simp only [stepBlocks, if_pos hr]
    exact ⟨List.cons_ne_nil _ _, rfl⟩
  · simp only [stepBlocks, if_neg hr]
    exact ⟨List.cons_ne_nil _ _, rfl⟩

theorem renderFrom_step {ms : List Message} (hc : Complete ms) (i : ℕ) (p : Option String) (reasoning : String)
    (actions : List TurnAction) (final : Option Json) (hb : stepBlocks i reasoning actions final ≠ []) :
    renderFrom i (ms, p) [.step reasoning actions final] =
      (ms ++ [⟨.assistant, stepBlocks i reasoning actions final⟩], final.elim p fun _ => some (finalId i)) := by
  obtain ⟨l, hl, hu⟩ := hc
  exact Prod.ext (foldl_other hl (by rw [hu]; exact fun h => by cases h) hb) (by cases final <;> rfl)

/-- The results of a step, and a note after them, are one message of the user. -/
theorem renderFrom_results (ms : List Message) (c : List Block) (i : ℕ) {results : List TurnResult} (hr : results ≠ [])
    {note : List Turn} (hn : note = [] ∨ ∃ text, note = [.user text]) :
    ∃ texts : List Block, (∀ b ∈ texts, b.isResult = false ∧ b.resultId? = none ∧ b.useId? = none) ∧
      renderFrom i (ms ++ [⟨.assistant, c⟩], none) (.results results :: note) =
        (ms ++ [⟨.assistant, c⟩] ++ [⟨.user, results.map (fun r => .toolResult r.id r.content false) ++ texts⟩],
          none) := by
  have hresults : renderFrom i (ms ++ [⟨.assistant, c⟩], none) [.results results] =
      (ms ++ [⟨.assistant, c⟩] ++ [⟨.user, results.map fun r => .toolResult r.id r.content false⟩], none) := by
    have hfold := foldl_other (r := .user) (m := ms ++ [⟨.assistant, c⟩]) List.getLast?_concat (fun h => by cases h)
      (s := results.map fun r => .toolResult r.id r.content false) (by simpa using hr)
    rw [List.foldl_map] at hfold
    exact Prod.ext hfold rfl
  rcases hn with rfl | ⟨text, rfl⟩
  · exact ⟨[], fun b hb => absurd hb List.not_mem_nil, by rw [hresults, List.append_nil]⟩
  · refine ⟨[.text text], fun b hb => ?_, ?_⟩
    · rw [List.mem_singleton.1 hb]
      exact ⟨rfl, rfl, rfl⟩
    · rw [show [Turn.results results, .user text] = [.results results] ++ [.user text] from rfl,
        renderFrom_append, hresults]
      exact Prod.ext (append_same _ _ _ _) rfl

theorem answered_of_ids {a u : Message} {results : List TurnResult} {texts : List Block} (hu : u.role = .user)
    (hcontent : u.content = results.map (fun r => .toolResult r.id r.content false) ++ texts)
    (htexts : ∀ b ∈ texts, b.isResult = false ∧ b.resultId? = none ∧ b.useId? = none)
    (hids : results.map TurnResult.id = a.toolUses) (hnodup : a.toolUses.Nodup) : Answered a u where
  user := hu
  once := by
    intro id hid
    have hres (rs : List TurnResult) :
        (rs.map fun r => Block.toolResult r.id r.content false).filterMap Block.resultId? = rs.map TurnResult.id := by
      induction rs with
      | nil => rfl
      | cons r rs ih => rw [List.map_cons, List.filterMap_cons, ih]; rfl
    have hnone : texts.filterMap Block.resultId? = [] := List.filterMap_eq_nil_iff.2 fun b hb => (htexts b hb).2.1
    rw [Message.toolResults, hcontent, List.filterMap_append, hres, hnone, List.append_nil, hids]
    exact List.count_eq_one_of_mem hnodup hid
  ahead := by
    rw [hcontent]
    refine List.pairwise_append.2 ⟨List.pairwise_of_forall_mem_list ?_, List.pairwise_of_forall_mem_list ?_, ?_⟩
    · intro b hb c hc _
      obtain ⟨r, -, rfl⟩ := List.mem_map.1 hb
      exact Bool.false_ne_true
    · intro b hb c hc hresult
      rw [(htexts c hc).1] at hresult
      exact absurd hresult Bool.false_ne_true
    · intro b hb c hc hresult
      rw [(htexts c hc).1] at hresult
      exact absurd hresult Bool.false_ne_true

/-- What a step with these ids adds: a message of the assistant after one of the user. -/
theorem Valid.step {ms : List Message} (h : Valid ms) (hc : Complete ms) {content : List Block}
    (hnodup : (content.filterMap Block.useId?).Nodup)
    (hnew : ∀ id ∈ content.filterMap Block.useId?, id ∉ ms.flatMap Message.toolUses) :
    Valid (ms ++ [⟨.assistant, content⟩]) := by
  obtain ⟨l, hl, hu⟩ := hc
  refine h.snoc hl (by rw [hu]; exact fun h => by cases h) hnodup hnew fun ha => ?_
  rw [hu] at ha
  cases ha

/-- The user's answer to it. -/
theorem Valid.answer {ms : List Message} {content : List Block} (h : Valid (ms ++ [⟨.assistant, content⟩]))
    {u : Message} (hans : Answered ⟨.assistant, content⟩ u) (hnone : u.toolUses = []) :
    Valid (ms ++ [⟨.assistant, content⟩] ++ [u]) := by
  refine h.snoc List.getLast?_concat (by rw [hans.user]; exact fun h => by cases h) ?_ ?_ fun _ => hans
  · rw [hnone]
    exact List.nodup_nil
  · rw [hnone]
    exact fun id hid => absurd hid List.not_mem_nil

/-- The transcript after the task and `k` rounds, and its messages. -/
structure Rendered (k : ℕ) (turns : List Turn) (ms : List Message) : Prop where
  render : renderFrom 0 ([], none) turns = (ms, none)
  valid : Valid ms
  complete : Complete ms
  ids : ∀ id ∈ ms.flatMap Message.toolUses, Earlier (k + 1) turns.length id

theorem rendered_task (task : String) : Rendered 0 [.user task] [⟨.user, [.text task]⟩] where
  render := rfl
  valid :=
    { starts := ⟨_, rfl, rfl⟩
      alternate := List.isChain_singleton _
      distinct := List.nodup_nil
      answered := fun i a u ha hrole hu => by
        obtain ⟨hi, -⟩ := List.getElem?_eq_some_iff.1 hu
        rw [List.length_singleton] at hi
        omega }
  complete := ⟨_, rfl, rfl⟩
  ids := fun id hid => absurd hid List.not_mem_nil

/-- The message of a step that asks for queries. -/
theorem Rendered.queried {k : ℕ} {turns : List Turn} {ms : List Message} (h : Rendered k turns ms) (reasoning : String)
    {as : List Llm.StepAction} (ha : as ≠ []) : ∃ content,
      renderFrom 0 ([], none) (turns ++ [.step reasoning (numbered (k + 1) as) none]) =
      (ms ++ [⟨.assistant, content⟩], none) ∧
      content.filterMap Block.useId? = (numbered (k + 1) as).map TurnAction.id ∧
        Valid (ms ++ [⟨.assistant, content⟩]) := by
  obtain ⟨hne, huses⟩ := stepBlocks_queried (0 + turns.length) reasoning (numbered_ne_nil (k + 1) ha)
  refine ⟨_, ?_, huses, h.valid.step h.complete ?_ ?_⟩
  · rw [renderFrom_append, h.render, renderFrom_step h.complete _ _ _ _ _ hne]
    rfl
  · rw [huses]
    exact numbered_ids_nodup _ _
  · intro id hid hold
    rw [huses, numbered_ids] at hid
    obtain ⟨j, -, rfl⟩ := List.mem_map.1 hid
    exact not_earlier_action _ _ _ (h.ids _ hold)

/-- The message of a step that gives the final answer. -/
theorem Rendered.answered {k : ℕ} {turns : List Turn} {ms : List Message} (h : Rendered k turns ms) (reasoning : String)
    (final : Json) : ∃ content,
      renderFrom 0 ([], none) (turns ++ [.step reasoning [] (some final)]) =
        (ms ++ [⟨.assistant, content⟩], some (finalId turns.length)) ∧
      content.filterMap Block.useId? = [finalId turns.length] ∧ Valid (ms ++ [⟨.assistant, content⟩]) := by
  obtain ⟨hne, huses⟩ := stepBlocks_final (0 + turns.length) reasoning final
  rw [Nat.zero_add] at hne huses
  refine ⟨_, ?_, huses, h.valid.step h.complete ?_ ?_⟩
  · rw [renderFrom_append, h.render, Nat.zero_add, renderFrom_step h.complete _ _ _ _ _ hne]
    rfl
  · rw [huses]
    exact List.nodup_singleton _
  · intro id hid hold
    rw [huses, List.mem_singleton] at hid
    subst hid
    exact not_earlier_final _ _ (h.ids _ hold)

theorem Rendered.opened {k : ℕ} {turns : List Turn} {ms : List Message} (h : Rendered k turns ms) {t : Turn}
    (ho : Opened (k + 1) t) : Valid (renderFrom 0 ([], none) (turns ++ [t])).1 := by
  rcases ho with ⟨reasoning, ha⟩ | ⟨reasoning, final⟩
  · obtain ⟨content, hrender, -, hvalid⟩ := h.queried reasoning ha
    rw [hrender]
    exact hvalid
  · obtain ⟨content, hrender, -, hvalid⟩ := h.answered reasoning final
    rw [hrender]
    exact hvalid

theorem mem_toolUses_snoc {ms : List Message} {content : List Block} {u : Message} (hu : u.toolUses = []) {id : String}
    (h : id ∈ (ms ++ [(⟨.assistant, content⟩ : Message)] ++ [u]).flatMap Message.toolUses) :
    id ∈ ms.flatMap Message.toolUses ∨ id ∈ content.filterMap Block.useId? := by
  rw [List.flatMap_append, List.flatMap_append, List.flatMap_singleton, List.flatMap_singleton, hu, List.append_nil,
    List.mem_append] at h
  exact h

/-- A round keeps the messages valid, and complete. -/
theorem Rendered.round {k : ℕ} {turns added : List Turn} {ms : List Message} (h : Rendered k turns ms)
    (ha : Added (k + 1) added) : ∃ ms', Rendered (k + 1) (turns ++ added) ms' := by
  rcases ha with @⟨reasoning, as, results, note, hne, hr, hn⟩ | ⟨reasoning, final, text⟩
  · obtain ⟨content, hrender, huses, hvalid⟩ := h.queried reasoning hne
    have hresults : results ≠ [] := by
      rintro rfl
      exact numbered_ne_nil (k + 1) hne (List.map_eq_nil_iff.1 hr.symm)
    obtain ⟨texts, htexts, hfold⟩ :=
      renderFrom_results ms content (0 + (turns ++ [Turn.step reasoning _ none]).length) hresults hn
    have hnone : Message.toolUses ⟨.user, results.map (fun r => Block.toolResult r.id r.content false) ++ texts⟩ =
        [] := by
      refine List.filterMap_eq_nil_iff.2 fun b hb => ?_
      rcases List.mem_append.1 hb with hb | hb
      · obtain ⟨r, -, rfl⟩ := List.mem_map.1 hb
        rfl
      · exact (htexts b hb).2.2
    refine ⟨ms ++ [⟨.assistant, content⟩] ++
      [⟨.user, results.map (fun r => .toolResult r.id r.content false) ++ texts⟩], ?_,
      hvalid.answer (answered_of_ids rfl rfl htexts (hr.trans huses.symm) ?_) hnone, ⟨_, List.getLast?_concat, rfl⟩,
      fun id hid => ?_⟩
    · rw [show turns ++ (Turn.step reasoning (numbered (k + 1) as) none :: .results results :: note) =
        (turns ++ [.step reasoning (numbered (k + 1) as) none]) ++ (.results results :: note) by simp,
        renderFrom_append, hrender, hfold]
    · rw [Message.toolUses, huses]
      exact numbered_ids_nodup _ _
    · rcases mem_toolUses_snoc hnone hid with hold | hnew
      · exact (h.ids id hold).mono (by omega) (by rw [List.length_append]; omega)
      · rw [huses, numbered_ids] at hnew
        obtain ⟨j, -, rfl⟩ := List.mem_map.1 hnew
        exact .inl ⟨k + 1, by omega, j, rfl⟩
  · obtain ⟨content, hrender, huses, hvalid⟩ := h.answered reasoning final
    refine ⟨ms ++ [⟨.assistant, content⟩] ++ [⟨.user, [.toolResult (finalId turns.length) text true]⟩], ?_,
      hvalid.answer ⟨rfl, ?_, List.pairwise_singleton _ _⟩ rfl, ⟨_, List.getLast?_concat, rfl⟩, fun id hid => ?_⟩
    · rw [show turns ++ [Turn.step reasoning [] (some final), .user text] =
        (turns ++ [.step reasoning [] (some final)]) ++ [.user text] by simp, renderFrom_append, hrender]
      exact Prod.ext (append_other List.getLast?_concat (fun h => by cases h) _) rfl
    · intro id hid
      rw [Message.toolUses, huses, List.mem_singleton] at hid
      subst hid
      exact List.count_eq_one_of_mem (List.nodup_singleton _) (List.mem_singleton_self _)
    · rcases mem_toolUses_snoc rfl hid with hold | hnew
      · exact (h.ids id hold).mono (by omega) (by rw [List.length_append]; omega)
      · rw [huses, List.mem_singleton] at hnew
        subst hnew
        exact .inr ⟨turns.length, by rw [List.length_append]; exact Nat.lt_add_of_pos_right (Nat.succ_pos _), rfl⟩

/-! The transcripts of a run. -/

def Transcript (n : ℕ) : Progress α → Prop
  | .running run => run.steps = n ∧ ∃ ms, Rendered n run.turns ms
  | .ended run _ => Valid (renderMessages run.turns)

theorem runAgent_transcript (spec : AgentSpec α) (deps : Deps) (task : String) (env : ℕ → Meets α) (n : ℕ) :
    Transcript n (runAgent spec deps task env n) := by
  induction n with
  | zero =>
    unfold runAgent
    split
    · exact (rendered_task task).valid
    · exact ⟨rfl, _, rendered_task task⟩
  | succ n ih =>
    rw [runAgent]
    cases hn : runAgent spec deps task env n with
    | ended run result =>
      rw [hn] at ih
      exact ih
    | running run =>
      rw [hn] at ih
      obtain ⟨hsteps, ms, hms⟩ := ih
      dsimp only
      rcases round_cases spec deps ((toolSpecs spec deps).getD []) (env n) run with
        ⟨run', r, hr, -, -, hturns⟩ | ⟨run', added, hr, hs, hturns, hadded, -⟩
      · rw [hr]
        rw [hsteps] at hturns
        rcases hturns with hsame | ⟨t, ht, hopen⟩
        · change Valid (renderFrom 0 ([], none) run'.turns).1
          rw [hsame, hms.render]
          exact hms.valid
        · change Valid (renderFrom 0 ([], none) run'.turns).1
          rw [hopen]
          exact hms.opened ht
      · rw [hr]
        rw [hsteps] at hadded
        refine ⟨by omega, ?_⟩
        rw [hturns]
        exact hms.round hadded

/-- The messages of a transcript are valid at every point of every run, and those of a request leave
no call without its result. -/
theorem messages_valid (spec : AgentSpec α) (deps : Deps) (task : String) (env : ℕ → Meets α) (n : ℕ) :
    Valid (renderMessages (runAgent spec deps task env n).run.turns) ∧
      ∀ run tools, runAgent spec deps task env n = .running run →
        Complete (renderMessages (request spec deps tools { run with steps := run.steps + 1 }).turns) := by
  have h := runAgent_transcript spec deps task env n
  cases hn : runAgent spec deps task env n with
  | running run =>
    rw [hn] at h
    obtain ⟨-, ms, hms⟩ := h
    have hrender : renderMessages run.turns = ms := congrArg Prod.fst hms.render
    refine ⟨?_, fun run' tools hrun => ?_⟩
    · change Valid (renderMessages run.turns)
      rw [hrender]
      exact hms.valid
    · obtain rfl := Progress.running.inj hrun
      change Complete (renderMessages run.turns)
      rw [hrender]
      exact hms.complete
  | ended run result =>
    rw [hn] at h
    exact ⟨h, fun run' tools hrun => by cases hrun⟩

/-- A call with its result, and a final answer that is sent back. -/
example : renderMessages [.user "Why?", .step "Look." [⟨"c1_1", "prom_query", .null⟩] none,
      .results [⟨"c1_1", "prom_query", "1"⟩], .step "" [] (some .null), .user "Not accepted."] =
    [⟨.user, [.text "Why?"]⟩, ⟨.assistant, [.text "Look.", .toolUse "c1_1" "prom_query" .null]⟩,
      ⟨.user, [.toolResult "c1_1" "1" false]⟩, ⟨.assistant, [.toolUse "final_3" "submit_final" .null]⟩,
      ⟨.user, [.toolResult "final_3" "Not accepted." true]⟩] :=
  rfl

end Blackboard.AgentLoop

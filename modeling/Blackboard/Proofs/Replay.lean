import Blackboard.Spec.Sources
import Mathlib.Data.List.Induction

/-! A replaying source answers each agent from the agent's own entries, whatever the others ask
in between. -/

namespace Blackboard.Tools

variable {repr : Json → String}

/-! Keys tell the agent, the tool and the arguments. -/

theorem alike_key {xs ys : List Json} : key xs = key ys ↔ xs.map Json.canon = ys.map Json.canon := by
  rw [key, key, Json.dumps_inj, Json.Alike, Json.canon, Json.canon, Json.canonAll_eq, Json.canonAll_eq]
  exact ⟨fun h => Json.arr.inj h, fun h => congrArg Json.arr h⟩

theorem agentKey_inj {a b t u : String} {x y : Json} : agentKey a t x = agentKey b u y ↔ a = b ∧ t = u ∧ x.Alike y := by
  rw [agentKey, agentKey, alike_key]
  simp [Json.canon, Json.Alike]

theorem agentKey_ne_cassetteKey (a t u : String) (x y : Json) : agentKey a t x ≠ cassetteKey u y := by
  intro h
  have := congrArg List.length (alike_key.mp h)
  cases this

/-- The agent's own entries for a call. -/
def own (entries : List Entry) (agent : String) (c : Call) : List Entry :=
  entries.filter fun e => e.agent = some agent ∧ e.tool = c.tool ∧ e.args.dumps = c.args.dumps

theorem ReplaySource.last_add (s : ReplaySource) (e : Entry) : (s.add e).last = s.last := by
  rcases ha : e.agent with _ | a
  · simp only [add, ha, push]
  · simp only [add, ha, push]

theorem queues_ofEntries (entries : List Entry) (agent : String) (c : Call) :
    (ReplaySource.ofEntries entries).queues (agentKey agent c.tool c.args) = own entries agent c ∧
      (ReplaySource.ofEntries entries).last = fun _ => none := by
  induction entries using List.reverseRecOn with
  | nil => exact ⟨rfl, rfl⟩
  | append_singleton entries e ih =>
    obtain ⟨hq, hl⟩ := ih
    rw [ReplaySource.ofEntries, List.foldl_append, ← ReplaySource.ofEntries]
    simp only [List.foldl_cons, List.foldl_nil]
    refine ⟨?_, (ReplaySource.last_add _ e).trans hl⟩
    rw [ReplaySource.add]
    have hne : agentKey agent c.tool c.args ≠ cassetteKey e.tool e.args := agentKey_ne_cassetteKey _ _ _ _ _
    have hown : own (entries ++ [e]) agent c = own entries agent c ++ own [e] agent c := List.filter_append ..
    rw [hown]
    rcases ha : e.agent with _ | a
    · have hno : own [e] agent c = [] := by simp [own, ha]
      rw [hno, List.append_nil]
      simp only [ReplaySource.push, Function.update_of_ne hne, hq]
    · by_cases hk : agentKey agent c.tool c.args = agentKey a e.tool e.args
      · obtain ⟨rfl, ht, hx⟩ := agentKey_inj.mp hk
        have hyes : own [e] agent c = [e] := by
          rw [own, List.filter_cons_of_pos (by simp [ha, ht, Json.dumps_inj.mpr hx]), List.filter_nil]
        have hne' : agentKey agent e.tool e.args ≠ cassetteKey e.tool e.args := agentKey_ne_cassetteKey _ _ _ _ _
        rw [hk] at hq ⊢
        simp only [ReplaySource.push, Function.update_self, Function.update_of_ne hne', hq, hyes]
      · have hno : own [e] agent c = [] := by
          rw [own, List.filter_cons_of_neg, List.filter_nil]
          intro h
          obtain ⟨h1, h2, h3⟩ := of_decide_eq_true h
          rw [ha] at h1
          exact hk (agentKey_inj.mpr ⟨(Option.some.inj h1).symm, h2.symm, (Json.dumps_inj.mp h3).symm⟩)
        rw [hno, List.append_nil]
        simp only [ReplaySource.push, Function.update_of_ne hk, Function.update_of_ne hne, hq]

/-! Where a queue stands. -/

/-- The answer to the call after `n` others: the next entry, or the last one again. -/
def nth (entries : List Entry) (n : ℕ) : Option Entry := entries[min n (entries.length - 1)]?

namespace ReplaySource

/-- Of the key's entries `n` have been asked for. -/
def Stands (s : ReplaySource) (k : String) (entries : List Entry) (n : ℕ) : Prop :=
  s.queues k = entries.drop n ∧ s.last k = if n = 0 then none else nth entries (n - 1)

variable {s : ReplaySource} {k k' : String} {entries : List Entry} {n : ℕ}

theorem take_stands (h : s.Stands k entries n) :
    (s.take k).1 = nth entries n ∧ (s.take k).2.Stands k entries (n + 1) := by
  obtain ⟨hq, hl⟩ := h
  rcases Nat.lt_or_ge n entries.length with hn | hn
  · have hdrop : entries.drop n = entries[n] :: entries.drop (n + 1) := List.drop_eq_getElem_cons hn
    have hnth : nth entries n = some entries[n] := by
      rw [nth, Nat.min_eq_left (by omega), List.getElem?_eq_getElem hn]
    rw [take, hq, hdrop]
    refine ⟨hnth.symm, Function.update_self .., ?_⟩
    dsimp only
    rw [Function.update_self, if_neg (Nat.succ_ne_zero n), Nat.add_sub_cancel, hnth]
  · have hempty : entries.drop n = [] := List.drop_eq_nil_of_le hn
    have hsame : s.last k = nth entries n := by
      rw [hl]
      by_cases h0 : n = 0
      · have : entries = [] := List.length_eq_zero_iff.mp (by omega)
        rw [if_pos h0, this]
        rfl
      · rw [if_neg h0, nth, nth, Nat.min_eq_right (by omega), Nat.min_eq_right (by omega)]
    rw [take, hq, hempty]
    refine ⟨hsame, ?_, ?_⟩
    · rw [hq, hempty, List.drop_eq_nil_of_le (by omega)]
    · rw [if_neg (Nat.succ_ne_zero n), Nat.add_sub_cancel]
      exact hsame

theorem take_other (hk : k ≠ k') : (s.take k').2.queues k = s.queues k ∧ (s.take k').2.last k = s.last k := by
  unfold take
  rcases s.queues k' with _ | ⟨e, rest⟩
  · exact ⟨rfl, rfl⟩
  · exact ⟨Function.update_of_ne hk .., Function.update_of_ne hk ..⟩

theorem Stands.other (h : s.Stands k entries n) (hk : k ≠ k') : (s.take k').2.Stands k entries n := by
  obtain ⟨hq, hl⟩ := take_other (s := s) hk
  exact ⟨hq.trans h.1, hl.trans h.2⟩

end ReplaySource

/-- Two calls of one agent, tool and arguments. -/
def Call.Matches (agent : String) (c d : Call) : Prop :=
  d.agent = some agent ∧ d.tool = c.tool ∧ d.args.dumps = c.args.dumps

instance (agent : String) (c d : Call) : Decidable (c.Matches agent d) := instDecidableAnd

/-- A call moves its own agent's queue and no other agent's. -/
theorem find_stands {s : ReplaySource} {entries : List Entry} {n : ℕ} {agent : String} {c : Call} (d : Call)
    (h : s.Stands (agentKey agent c.tool c.args) entries n) :
    (s.find d).2.Stands (agentKey agent c.tool c.args) entries (if c.Matches agent d then n + 1 else n) ∧
      (c.Matches agent d → entries ≠ [] → (s.find d).1 = nth entries n) := by
  rcases hd : d.agent with _ | a
  · have hno : ¬ c.Matches agent d := fun hm => by cases hd.symm.trans hm.1
    rw [if_neg hno, ReplaySource.find, hd]
    exact ⟨h.other (agentKey_ne_cassetteKey _ _ _ _ _), fun hm => absurd hm hno⟩
  · by_cases hk : agentKey agent c.tool c.args = agentKey a d.tool d.args
    · obtain ⟨rfl, ht, hx⟩ := agentKey_inj.mp hk
      have hm : c.Matches agent d := ⟨hd, ht.symm, (Json.dumps_inj.mpr hx).symm⟩
      obtain ⟨hres, hnext⟩ := ReplaySource.take_stands h
      rw [if_pos hm, ReplaySource.find, hd]
      simp only [← hk]
      rcases hcase : s.take (agentKey agent c.tool c.args) with ⟨_ | e, s'⟩ <;> rw [hcase] at hres hnext
      · refine ⟨hnext.other (agentKey_ne_cassetteKey _ _ _ _ _), fun _ hne => ?_⟩
        exfalso
        rw [nth, eq_comm, List.getElem?_eq_none_iff] at hres
        have := List.length_pos_iff.mpr hne
        omega
      · exact ⟨hnext, fun _ _ => hres⟩
    · have hno : ¬ c.Matches agent d := by
        rintro ⟨h1, h2, h3⟩
        rw [hd] at h1
        exact hk (agentKey_inj.mpr ⟨(Option.some.inj h1).symm, h2.symm, (Json.dumps_inj.mp h3).symm⟩)
      refine ⟨?_, fun hm => absurd hm hno⟩
      rw [if_neg hno, ReplaySource.find, hd]
      have hother := h.other hk
      rcases hcase : s.take (agentKey a d.tool d.args) with ⟨_ | e, s'⟩ <;> rw [hcase] at hother <;> simp only [hcase]
      · exact hother.other (agentKey_ne_cassetteKey _ _ _ _ _)
      · exact hother

/-- How many calls of `cs` are the agent's calls like `c`. -/
def asked (agent : String) (c : Call) (cs : List Call) : ℕ := cs.countP fun d => c.Matches agent d

theorem asked_append (agent : String) (c : Call) (cs ds : List Call) :
    asked agent c (cs ++ ds) = asked agent c cs + asked agent c ds := List.countP_append

/-! Whole runs. -/

/-- The calls that one agent makes, in order. -/
def callsOf (agent : String) (cs : List Call) : List Call := cs.filter fun c => c.agent = some agent

/-- The answers that one agent gets, when the calls of all agents come in the order `cs`. -/
def answersOf (repr : Json → String) (agent : String) (s : ReplaySource) (cs : List Call) :
    List (Except ToolError Fetched) :=
  ((cs.zip (s.answers repr cs)).filter fun p => p.1.agent = some agent).map Prod.snd

/-- Each call's next recorded answer; `before` are earlier calls. -/
def inOrder (repr : Json → String) (entries : List Entry) (agent : String) (before cs : List Call) :
    List (Except ToolError Fetched) :=
  cs.mapIdx fun i c => replayed repr c (nth (own entries agent c) (asked agent c (before ++ cs.take i)))

theorem inOrder_cons (entries : List Entry) (agent : String) (before : List Call) (c : Call) (cs : List Call) :
    inOrder repr entries agent before (c :: cs) =
      replayed repr c (nth (own entries agent c) (asked agent c before)) ::
        inOrder repr entries agent (before ++ [c]) cs := by
  unfold inOrder
  rw [List.mapIdx_cons]
  simp

theorem answersOf_stands (repr : Json → String) {entries : List Entry} {agent : String} (cs : List Call) :
    ∀ (s : ReplaySource) (before : List Call),
      (∀ c : Call, s.Stands (agentKey agent c.tool c.args) (own entries agent c) (asked agent c before)) →
      (∀ c ∈ cs, c.agent = some agent → own entries agent c ≠ []) →
      answersOf repr agent s cs = inOrder repr entries agent before (callsOf agent cs) := by
  induction cs with
  | nil => exact fun s before h hrec => rfl
  | cons d cs ih =>
    intro s before h hrec
    have hrest : ∀ c ∈ cs, c.agent = some agent → own entries agent c ≠ [] :=
      fun c hc => hrec c (List.mem_cons_of_mem _ hc)
    by_cases hd : d.agent = some agent
    · have hnext : ∀ c : Call, (s.find d).2.Stands (agentKey agent c.tool c.args) (own entries agent c)
          (asked agent c (before ++ [d])) := by
        intro c
        have hstands := (find_stands d (h c)).1
        rw [asked_append]
        by_cases hm : c.Matches agent d
        · rw [if_pos hm] at hstands
          simpa [asked, hm] using hstands
        · rw [if_neg hm] at hstands
          simpa [asked, hm] using hstands
      have hself : (s.find d).1 = nth (own entries agent d) (asked agent d before) :=
        (find_stands d (h d)).2 ⟨hd, rfl, rfl⟩ (hrec d List.mem_cons_self hd)
      have hcalls : callsOf agent (d :: cs) = d :: callsOf agent cs := List.filter_cons_of_pos (by simpa using hd)
      rw [hcalls, inOrder_cons, ← ih (s.find d).2 _ hnext hrest, ← hself, answersOf, ReplaySource.answers,
        List.zip_cons_cons, List.filter_cons_of_pos (by simpa using hd), List.map_cons]
      rfl
    · have hnext : ∀ c : Call, (s.find d).2.Stands (agentKey agent c.tool c.args) (own entries agent c)
          (asked agent c before) := by
        intro c
        have hno : ¬ c.Matches agent d := fun hm => hd hm.1
        have hstands := (find_stands d (h c)).1
        rwa [if_neg hno] at hstands
      have hcalls : callsOf agent (d :: cs) = callsOf agent cs := List.filter_cons_of_neg (by simpa using hd)
      rw [hcalls, ← ih (s.find d).2 _ hnext hrest, answersOf, ReplaySource.answers, List.zip_cons_cons,
        List.filter_cons_of_neg (by simpa using hd)]
      rfl

theorem stands_ofEntries (entries : List Entry) (agent : String) (c : Call) :
    (ReplaySource.ofEntries entries).Stands (agentKey agent c.tool c.args) (own entries agent c) 0 := by
  obtain ⟨hq, hl⟩ := queues_ofEntries entries agent c
  exact ⟨hq, by rw [hl]; rfl⟩

/-- Whatever the other agents ask in between, an agent whose calls were recorded gets for each call
its own recorded answers in their order, and the last one again after them; so its answers are the
same in any two interleavings. -/
theorem replay_in_order (repr : Json → String) (entries : List Entry) (agent : String) (cs ds : List Call)
    (hrec : ∀ c ∈ cs, c.agent = some agent → own entries agent c ≠ []) (hsame : callsOf agent ds = callsOf agent cs) :
    answersOf repr agent (.ofEntries entries) cs =
        (callsOf agent cs).mapIdx (fun i c =>
          replayed repr c (nth (own entries agent c) (asked agent c ((callsOf agent cs).take i)))) ∧
      answersOf repr agent (.ofEntries entries) ds = answersOf repr agent (.ofEntries entries) cs := by
  have hrec' : ∀ c ∈ ds, c.agent = some agent → own entries agent c ≠ [] := by
    intro c hc ha
    have hmem : c ∈ callsOf agent ds := List.mem_filter.mpr ⟨hc, by simpa using ha⟩
    rw [hsame] at hmem
    exact hrec c (List.mem_filter.mp hmem).1 ha
  have hcs := answersOf_stands repr cs (.ofEntries entries) [] (stands_ofEntries entries agent) hrec
  have hds := answersOf_stands repr ds (.ofEntries entries) [] (stands_ofEntries entries agent) hrec'
  exact ⟨hcs, by rw [hcs, hds, hsame]⟩

/-! Two agents that asked the same, and one of them again. -/

theorem sampleTime_date : (1 ≤ 2026 ∧ 2026 ≤ 9999) ∧ (1 ≤ 10 ∧ 10 ≤ 12) ∧ 1 ≤ 12 ∧ 12 ≤ daysIn 2026 10 := by decide

theorem sampleTime_time : 5 < 24 ∧ 31 < 60 ∧ 50 < 60 ∧ 265820 < 1000000 := by decide

def sampleTime : Datetime := ⟨2026, 10, 12, 5, 31, 50, 265820, sampleTime_date, sampleTime_time⟩

def sampleCall (agent : String) : Call := { agent := some agent, tool := "prom_query", args := .obj [] }

def sampleEntry (agent : String) (n : ℤ) : Entry :=
  recorded (sampleCall agent) sampleTime
  (.ok { raw := .num n, fetchedAt := sampleTime, attempts := 1, source := "live" })

def sampleEntries : List Entry := [sampleEntry "metrics" 1, sampleEntry "changes" 2, sampleEntry "metrics" 3]

theorem sample_own :
    own sampleEntries "metrics" (sampleCall "metrics") = [sampleEntry "metrics" 1, sampleEntry "metrics" 3] := by
  simp [own, sampleEntries, sampleEntry, sampleCall, recorded]

theorem sample_calls :
    callsOf "metrics" [sampleCall "metrics", sampleCall "metrics", sampleCall "changes", sampleCall "metrics"] =
      callsOf "metrics" [sampleCall "changes", sampleCall "metrics", sampleCall "metrics", sampleCall "metrics"] := by
  simp [callsOf, sampleCall]

theorem replay_in_order_shared :
    answersOf (fun _ => "") "metrics" (.ofEntries sampleEntries)
        [sampleCall "metrics", sampleCall "metrics", sampleCall "changes", sampleCall "metrics"] =
      answersOf (fun _ => "") "metrics" (.ofEntries sampleEntries)
        [sampleCall "changes", sampleCall "metrics", sampleCall "metrics", sampleCall "metrics"] := by
  refine (replay_in_order (fun _ => "") sampleEntries "metrics" _ _ ?_ sample_calls).2
  intro c hc ha
  simp only [List.mem_cons, List.not_mem_nil, or_false] at hc
  rcases hc with rfl | rfl | rfl | rfl
  · exact absurd (Option.some.inj ha) (by decide)
  · rw [sample_own]
    simp
  · rw [sample_own]
    simp
  · rw [sample_own]
    simp

end Blackboard.Tools

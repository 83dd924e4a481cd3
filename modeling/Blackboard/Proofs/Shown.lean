import Blackboard.Lib.Digest
import Blackboard.Proofs.Replay
import Blackboard.Spec.Registry

/-! What the model reads of a replayed tool call is what it read live, exactly if the outcome was
no retryable error and, after an export, its arguments and answer came through the `jsonb` columns. -/

namespace Blackboard.Tools

/-! Values without U+0000, whose objects are dicts. -/

mutual

def Clean : Json → Prop
  | .str s => '\x00' ∉ s.toList
  | .arr xs => CleanAll xs
  | .obj ms => (ms.map Prod.fst).Nodup ∧ CleanMembers ms
  | _ => True

def CleanAll : List Json → Prop
  | [] => True
  | x :: xs => Clean x ∧ CleanAll xs

def CleanMembers : List (String × Json) → Prop
  | [] => True
  | (k, v) :: ms => '\x00' ∉ k.toList ∧ Clean v ∧ CleanMembers ms

end

theorem cleanMembers_iff {ms : List (String × Json)} : CleanMembers ms ↔ ∀ m ∈ ms, '\x00' ∉ m.1.toList ∧ Clean m.2 := by
  induction ms with
  | nil => simp [CleanMembers]
  | cons m ms ih => simp only [CleanMembers, ih, List.forall_mem_cons, and_assoc]

mutual

theorem Clean.distinct : ∀ v : Json, Clean v → v.Distinct
  | .null, _ | .bool _, _ | .num _, _ | .float _, _ | .str _, _ => by simp [Json.Distinct]
  | .arr xs, h => by
    rw [Clean] at h
    rw [Json.Distinct]
    exact CleanAll.distinct xs h
  | .obj ms, h => by
    rw [Clean] at h
    rw [Json.Distinct]
    exact ⟨h.1, CleanMembers.distinct ms h.2⟩

theorem CleanAll.distinct : ∀ xs : List Json, CleanAll xs → Json.DistinctAll xs
  | [], _ => by simp [Json.DistinctAll]
  | x :: xs, h => by
    rw [CleanAll] at h
    rw [Json.DistinctAll]
    exact ⟨Clean.distinct x h.1, CleanAll.distinct xs h.2⟩

theorem CleanMembers.distinct : ∀ ms : List (String × Json), CleanMembers ms → Json.DistinctMembers ms
  | [], _ => by simp [Json.DistinctMembers]
  | (k, v) :: ms, h => by
    rw [CleanMembers] at h
    rw [Json.DistinctMembers]
    exact ⟨Clean.distinct v h.2.1, CleanMembers.distinct ms h.2.2⟩

end

theorem replaceNul_clean (s : String) : '\x00' ∉ (replaceNul s).toList := by
  rw [replaceNul, String.toList_ofList, List.mem_map]
  rintro ⟨c, -, hc⟩
  split_ifs at hc with h
  · exact absurd hc (by decide)
  · exact h hc

theorem replaceNul_of_clean {s : String} (h : '\x00' ∉ s.toList) : replaceNul s = s := by
  have hmap : (s.toList.map fun c => if c = '\x00' then '\ufffd' else c) = s.toList := by
    have hid : ∀ c ∈ s.toList, (if c = '\x00' then '\ufffd' else c) = id c := by
      intro c hc
      rw [if_neg, id]
      rintro rfl
      exact h hc
    rw [List.map_congr_left hid, List.map_id]
  rw [replaceNul, hmap, String.ofList_toList]

/-- One more pair in a dict. -/
theorem assign_spec {d : List (String × Json)} (k : String) (v : Json) (h : (d.map Prod.fst).Nodup) :
    ((Json.assign d k v).map Prod.fst).Nodup ∧ ∀ m ∈ Json.assign d k v, m ∈ d ∨ m = (k, v) := by
  unfold Json.assign
  split_ifs with hk
  · have hkeys : (d.map fun m => if m.1 = k then (k, v) else m).map Prod.fst = d.map Prod.fst := by
      rw [List.map_map]
      refine List.map_congr_left fun m _ => ?_
      by_cases hm : m.1 = k
      · simp [hm]
      · simp [hm]
    refine ⟨by rwa [hkeys], fun m hm => ?_⟩
    obtain ⟨n, hn, rfl⟩ := List.mem_map.mp hm
    split_ifs
    · exact .inr rfl
    · exact .inl hn
  · refine ⟨?_, fun m hm => ?_⟩
    · rw [List.map_append, List.map_singleton, List.nodup_append]
      refine ⟨h, List.nodup_singleton _, ?_⟩
      rintro a ha b hb rfl
      obtain ⟨m, hm, rfl⟩ := List.mem_map.mp ha
      exact hk (List.any_eq_true.mpr ⟨m, hm, by simpa using hb⟩)
    · simpa using hm

theorem foldl_assign (ps : List (String × Json)) : ∀ d : List (String × Json), (d.map Prod.fst).Nodup →
    ((ps.foldl (fun d m => Json.assign d m.1 m.2) d).map Prod.fst).Nodup ∧
      ∀ m ∈ ps.foldl (fun d m => Json.assign d m.1 m.2) d, m ∈ d ∨ m ∈ ps := by
  induction ps with
  | nil => exact fun d h => ⟨h, fun m hm => .inl hm⟩
  | cons p ps ih =>
    intro d h
    obtain ⟨hn, hm⟩ := assign_spec p.1 p.2 h
    obtain ⟨hn', hm'⟩ := ih _ hn
    refine ⟨hn', fun m h' => ?_⟩
    rcases hm' m h' with h1 | h1
    · rcases hm m h1 with h2 | rfl
      · exact .inl h2
      · exact .inr List.mem_cons_self
    · exact .inr (List.mem_cons_of_mem _ h1)

/-- New names go to the end. -/
theorem foldl_assign_new (ps : List (String × Json)) : ∀ d : List (String × Json), ((d ++ ps).map Prod.fst).Nodup →
    ps.foldl (fun d m => Json.assign d m.1 m.2) d = d ++ ps := by
  induction ps with
  | nil => exact fun d _ => (List.append_nil d).symm
  | cons p ps ih =>
    intro d h
    have hnew : Json.assign d p.1 p.2 = d ++ [p] := by
      rw [Json.assign, if_neg]
      intro ha
      obtain ⟨m, hm, he⟩ := List.any_eq_true.mp ha
      rw [List.map_append, List.map_cons, List.nodup_append] at h
      exact h.2.2 m.1 (List.mem_map_of_mem hm) p.1 List.mem_cons_self (of_decide_eq_true he)
    rw [List.foldl_cons, hnew, ih _ (by rwa [List.append_assoc, List.singleton_append]), List.append_assoc,
      List.singleton_append]

mutual

theorem clean_withoutNul : ∀ v : Json, Clean (withoutNul v)
  | .null | .bool _ | .num _ | .float _ => by simp [withoutNul, Clean]
  | .str s => by
    rw [withoutNul, Clean]
    exact replaceNul_clean s
  | .arr xs => by
    rw [withoutNul, Clean]
    exact clean_withoutNulAll xs
  | .obj ms => by
    rw [withoutNul, Clean, cleanMembers_iff]
    obtain ⟨hn, hm⟩ := foldl_assign (nulFreePairs ms) [] List.nodup_nil
    refine ⟨hn, fun m h => ?_⟩
    exact cleanMembers_iff.mp (clean_nulFreePairs ms) m ((hm m h).resolve_left List.not_mem_nil)

theorem clean_withoutNulAll : ∀ xs : List Json, CleanAll (withoutNulAll xs)
  | [] => by simp [withoutNulAll, CleanAll]
  | x :: xs => by
    rw [withoutNulAll, CleanAll]
    exact ⟨clean_withoutNul x, clean_withoutNulAll xs⟩

theorem clean_nulFreePairs : ∀ ms : List (String × Json), CleanMembers (nulFreePairs ms)
  | [] => by simp [nulFreePairs, CleanMembers]
  | (k, v) :: ms => by
    rw [nulFreePairs, CleanMembers]
    exact ⟨replaceNul_clean k, clean_withoutNul v, clean_nulFreePairs ms⟩

end

mutual

theorem withoutNul_of_clean : ∀ v : Json, Clean v → withoutNul v = v
  | .null, _ | .bool _, _ | .num _, _ | .float _, _ => by simp [withoutNul]
  | .str s, h => by
    rw [Clean] at h
    rw [withoutNul, replaceNul_of_clean h]
  | .arr xs, h => by
    rw [Clean] at h
    rw [withoutNul, withoutNulAll_of_clean xs h]
  | .obj ms, h => by
    rw [Clean] at h
    rw [withoutNul, nulFreePairs_of_clean ms h.2, foldl_assign_new ms [] h.1, List.nil_append]

theorem withoutNulAll_of_clean : ∀ xs : List Json, CleanAll xs → withoutNulAll xs = xs
  | [], _ => by simp [withoutNulAll]
  | x :: xs, h => by
    rw [CleanAll] at h
    rw [withoutNulAll, withoutNul_of_clean x h.1, withoutNulAll_of_clean xs h.2]

theorem nulFreePairs_of_clean : ∀ ms : List (String × Json), CleanMembers ms → nulFreePairs ms = ms
  | [], _ => by simp [nulFreePairs]
  | (k, v) :: ms, h => by
    rw [CleanMembers] at h
    rw [nulFreePairs, replaceNul_of_clean h.1, withoutNul_of_clean v h.2.1, nulFreePairs_of_clean ms h.2.2]

end

mutual

/-- The column adds no U+0000 and no name. -/
theorem Clean.readBack : ∀ v w : Json, Clean v → v.ReadBack w → Clean w
  | .null, w, _, h | .bool _, w, _, h => by
    simp only [Json.ReadBack] at h
    rw [← h]
    simp [Clean]
  | .str s, w, hv, h => by
    simp only [Json.ReadBack] at h
    rwa [← h]
  | .num n, w, _, h | .float x, w, _, h => by
    simp only [Json.ReadBack, Json.storedNumber, Json.ofNumeral] at h
    split_ifs at h
    · rw [← Option.some.inj h]
      simp [Clean]
    · obtain ⟨y, -, rfl⟩ := Option.map_eq_some_iff.mp h
      simp [Clean]
  | .arr xs, w, hv, h => by
    cases w with
    | arr ys =>
      simp only [Clean, Json.ReadBack] at hv h ⊢
      exact CleanAll.readBack xs ys hv h
    | _ => exact absurd h (by simp [Json.ReadBack])
  | .obj ms, w, hv, h => by
    cases w with
    | obj ns =>
      simp only [Clean, Json.ReadBack] at hv h ⊢
      obtain ⟨ls, hls, hperm⟩ := h
      have hclean := cleanMembers_iff.mp (CleanMembers.readBack ms ls hv.2 hls)
      refine ⟨?_, cleanMembers_iff.mpr fun m hm => hclean m (hperm.mem_iff.mpr hm)⟩
      rw [← (hperm.map Prod.fst).nodup_iff, ← hls.keys]
      exact hv.1
    | _ => exact absurd h (by simp [Json.ReadBack])

theorem CleanAll.readBack : ∀ xs ys : List Json, CleanAll xs → Json.ReadBackAll xs ys → CleanAll ys
  | [], ys, _, h => by
    cases ys with
    | nil => simp [CleanAll]
    | cons y ys => exact h.elim
  | x :: xs, ys, hx, h => by
    cases ys with
    | nil => exact h.elim
    | cons y ys =>
      simp only [CleanAll, Json.ReadBackAll] at hx h ⊢
      exact ⟨Clean.readBack x y hx.1 h.1, CleanAll.readBack xs ys hx.2 h.2⟩

theorem CleanMembers.readBack : ∀ ms ns :
    List (String × Json), CleanMembers ms → Json.ReadBackMembers ms ns → CleanMembers ns
  | [], ns, _, h => by
    cases ns with
    | nil => simp [CleanMembers]
    | cons n ns => exact h.elim
  | (k, v) :: ms, ns, hm, h => by
    cases ns with
    | nil => exact h.elim
    | cons n ns =>
      obtain ⟨l, w⟩ := n
      simp only [CleanMembers, Json.ReadBackMembers] at hm h ⊢
      obtain ⟨rfl, hv, hns⟩ := h
      exact ⟨hm.1, Clean.readBack v w hm.2.1 hv, CleanMembers.readBack ms ns hm.2.2 hns⟩

end

/-- An answer as it is stored is kept as it is the next time. -/
theorem withoutNul_stored {r : EvidenceRecord} {w : Json} (h : Stored r w) : withoutNul w = w := by
  obtain ⟨first, -, hw⟩ := h
  exact withoutNul_of_clean w (Clean.readBack _ w (clean_withoutNul first) hw)

/-- It comes back as the same answer exactly if its numbers do. -/
theorem alike_stored {r : EvidenceRecord} {w : Json} (h : Stored r w) :
    w.Alike r.result ↔ r.result.keepsNumbers = true := by
  obtain ⟨first, ha, hw⟩ := h
  have hd := Clean.distinct _ (clean_withoutNul first)
  rw [Json.Alike, ← Json.keepsNumbers_canon r.result, ← ha, Json.ReadBack.alike_iff _ w hd hw, Json.keepsNumbers_canon]

/-! Which texts are the same. -/

def errorText (tool : String) (e : ToolError) : String := (Json.obj [("tool", .str tool), ("error", e.toDict)]).dumps

def answerText (tool id : String) (summary : Json) : String :=
  (Json.obj [("tool", .str tool), ("evidence_id", .str id), ("summary", summary)]).dumps

theorem errorText_inj {tool : String} {e e' : ToolError} :
    errorText tool e = errorText tool e' ↔ e.code = e'.code ∧ e.message = e'.message ∧ e.retryable = e'.retryable := by
  have hkeys : ∀ e : ToolError,
      Json.canonMembers [("tool", .str tool), ("error", e.toDict)] = [("tool", .str tool), ("error", e.toDict.canon)] :=
    fun e => rfl
  have hdict : e.toDict.canon = e'.toDict.canon ↔ _ :=
    Json.alike_obj rfl (show ["code", "message", "retryable"].Nodup by decide)
  rw [errorText, errorText, Json.dumps_inj, Json.alike_obj]
  · rw [hkeys, hkeys]
    simp only [List.cons.injEq, Prod.mk.injEq, true_and, and_true]
    rw [hdict]
    simp [Json.canonMembers, Json.canon]
  · rfl
  · exact show ["tool", "error"].Nodup by decide

theorem answerText_inj {tool i i' : String} {s s' : Json} :
    answerText tool i s = answerText tool i' s' ↔ i = i' ∧ s.Alike s' := by
  rw [answerText, answerText, Json.dumps_inj, Json.alike_obj]
  · simp [Json.canonMembers, Json.canon, Json.Alike]
  · rfl
  · exact show ["tool", "evidence_id", "summary"].Nodup by decide

theorem errorText_ne (tool i : String) (e : ToolError) (s : Json) : errorText tool e ≠ answerText tool i s := by
  intro h
  cases Json.alike_obj_length (Json.dumps_inj.mp h)

theorem forModel_error {o : ToolOutcome} {e : ToolError} (h : o.error = some e) : o.forModel = errorText o.tool e := by
  rw [ToolOutcome.forModel, h, errorText]

theorem forModel_answer {o : ToolOutcome} {i : String} {s : Json} (h : o.error = none) (hi : o.evidenceId = some i)
    (hs : o.summary = some s) : o.forModel = answerText o.tool i s := by
  rw [ToolOutcome.forModel, h, hi, hs, answerText]
  rfl

/-! A cassette of one entry. -/

theorem cassetteKey_inj {t u : String} {x y : Json} : cassetteKey t x = cassetteKey u y ↔ t = u ∧ x.Alike y := by
  rw [cassetteKey, cassetteKey, alike_key]
  simp [Json.canon, Json.Alike]

namespace ReplaySource

variable {s : ReplaySource} {k : String}

theorem take_fst (h : s.last k = none) : (s.take k).1 = (s.queues k).head? := by
  rw [take]
  rcases s.queues k with _ | ⟨e, rest⟩
  · exact h
  · rfl

theorem queues_push {e : Entry} : (s.push k e).queues k = s.queues k ++ [e] := Function.update_self ..

theorem queues_push_ne {k' : String} {e : Entry} (h : k' ≠ k) : (s.push k e).queues k' = s.queues k' :=
  Function.update_of_ne h ..

theorem take_empty (h : s.queues k = []) : (s.take k).2 = s := by rw [take, h]

end ReplaySource

theorem shared_single (e : Entry) (t : String) (x : Json) :
    (ReplaySource.ofEntries [e]).queues (cassetteKey t x) = if e.tool = t ∧
    e.args.dumps = x.dumps then [e] else [] := by
  have hpush : (({} : ReplaySource).push (cassetteKey e.tool e.args) e).queues (cassetteKey t x) =
      if e.tool = t ∧ e.args.dumps = x.dumps then [e] else [] := by
    by_cases hk : cassetteKey t x = cassetteKey e.tool e.args
    · obtain ⟨ht, hx⟩ := cassetteKey_inj.mp hk
      rw [if_pos ⟨ht.symm, Json.dumps_inj.mpr hx.symm⟩, hk, ReplaySource.queues_push]
      rfl
    · rw [if_neg, ReplaySource.queues_push_ne hk]
      exact fun h => hk (cassetteKey_inj.mpr ⟨h.1.symm, (Json.dumps_inj.mp h.2).symm⟩)
  rw [ReplaySource.ofEntries, List.foldl_cons, List.foldl_nil, ReplaySource.add]
  rcases e.agent with _ | a
  · exact hpush
  · exact (ReplaySource.queues_push_ne (agentKey_ne_cassetteKey _ _ _ _ _).symm).trans hpush

/-- Whoever asks, the entry answers its own tool and arguments. -/
theorem find_single (e : Entry) (c : Call) :
    ((ReplaySource.ofEntries [e]).find c).1 = if e.tool = c.tool ∧
    e.args.dumps = c.args.dumps then some e else none := by
  have hlast : (ReplaySource.ofEntries [e]).last = fun _ => none := ReplaySource.last_add _ e
  have hshared : ((ReplaySource.ofEntries [e]).take (cassetteKey c.tool c.args)).1 =
      if e.tool = c.tool ∧ e.args.dumps = c.args.dumps then some e else none := by
    rw [ReplaySource.take_fst (by rw [hlast]), shared_single]
    split_ifs <;> rfl
  rcases ha : c.agent with _ | a
  · rw [ReplaySource.find, ha]
    exact hshared
  · have hown := (queues_ofEntries [e] a c).1
    have hfst := ReplaySource.take_fst (s := ReplaySource.ofEntries [e]) (k := agentKey a c.tool c.args) (by rw [hlast])
    rw [ReplaySource.find, ha]
    by_cases hm : e.agent = some a ∧ e.tool = c.tool ∧ e.args.dumps = c.args.dumps
    · have hself : own [e] a c = [e] := by simp [own, hm]
      rw [hown, hself] at hfst
      rw [if_pos hm.2]
      rcases hcase : (ReplaySource.ofEntries [e]).take (agentKey a c.tool c.args) with ⟨_ | e', s'⟩
      · rw [hcase] at hfst
        cases hfst
      · rw [hcase] at hfst
        simp only [hcase]
        exact hfst
    · have hno : own [e] a c = [] := by simp [own, hm]
      rw [hno] at hown
      have hsame := ReplaySource.take_empty hown
      rw [hown] at hfst
      rcases hcase : (ReplaySource.ofEntries [e]).take (agentKey a c.tool c.args) with ⟨_ | e', s'⟩
      · rw [hcase] at hsame
        obtain rfl : s' = _ := hsame
        simp only [hcase]
        exact hshared
      · rw [hcase] at hfst
        cases hfst

/-! What a registry call comes to. -/

/-- The error of a call that no entry answers. -/
def miss (repr : Json → String) (c : Call) : ToolError :=
  { code := "replay_miss", message := "no recorded answer for " ++ c.tool ++ " " ++ repr c.args }

namespace ToolRegistry

variable {A : Type} {reg : ToolRegistry A} {repr : Json → String} {sha256 : String → String}
  {live : Call → Except ToolError Fetched} {name : String} {rawArgs : Json} {ctx : ToolContext} {o : ToolOutcome}
  {ev : Option EvidenceRecord}

/-- The registry's own error, the same whatever the source would have said. -/
structure Local (reg : ToolRegistry A) (repr : Json → String) (sha256 : String → String) (name : String)
    (rawArgs : Json) (ctx : ToolContext) (o : ToolOutcome) : Prop where
  asked : reg.asked name rawArgs ctx = none
  error : ∃ e, o.error = some e ∧ e.code ∈ LOCAL_ERRORS ∧ e.retryable = false
  anyway : ∀ fetch, reg.call repr sha256 fetch name rawArgs ctx = some (o, none)

theorem call_cases (h : reg.call repr sha256 live name rawArgs ctx = some (o, ev)) :
    o.tool = name ∧ (reg.Local repr sha256 name rawArgs ctx o ∨
      ∃ t a, reg.tool? name = some t ∧ t.validate rawArgs = .ok a ∧ o.args = t.dump a ∧
        ((∃ e, reg.run sha256 live t a ctx = some (.error e) ∧ o.error = some e ∧ ev = none) ∨
          ∃ got r, reg.run sha256 live t a ctx = some (.ok (got, r)) ∧ o.error = none ∧ ev = some r ∧
            o.evidenceId = some r.id ∧ o.summary = some r.summary)) := by
  unfold call at h
  rcases ht : reg.tool? name with _ | t
  · rw [ht] at h
    obtain ⟨rfl, rfl⟩ := Prod.mk.inj (Option.some.inj h)
    refine ⟨rfl, .inl ⟨?_, ⟨_, rfl, List.mem_cons_of_mem _ List.mem_cons_self, rfl⟩, fun fetch => ?_⟩⟩
    · rw [asked, ht]
    · rw [call, ht]
  rw [ht] at h
  simp only at h
  rcases hv : t.validate rawArgs with problems | a
  · rw [hv] at h
    obtain ⟨rfl, rfl⟩ := Prod.mk.inj (Option.some.inj h)
    refine ⟨rfl, .inl ⟨?_, ⟨_, rfl, List.mem_cons_self, rfl⟩, fun fetch => ?_⟩⟩
    · simp only [asked, ht, hv]
    · simp only [call, ht, hv]
  rw [hv] at h
  obtain ⟨x, hx, he⟩ := Option.map_eq_some_iff.mp h
  rcases x with e | ⟨got, r⟩
  · obtain ⟨rfl, rfl⟩ := Prod.mk.inj he
    exact ⟨rfl, .inr ⟨t, a, rfl, hv, rfl, .inl ⟨e, hx, rfl, rfl⟩⟩⟩
  · obtain ⟨rfl, rfl⟩ := Prod.mk.inj he
    exact ⟨rfl, .inr ⟨t, a, rfl, hv, rfl, .inr ⟨got, r, hx, rfl, rfl, rfl, rfl⟩⟩⟩

variable {t : Tool A} {a : A}

/-- The text of a result. -/
def resultText (name : String) : Except ToolError (Fetched × EvidenceRecord) → String
  | .error e => errorText name e
  | .ok (_, r) => answerText name r.id r.summary

theorem call_text (ht : reg.tool? name = some t) (hv : t.validate rawArgs = .ok a) :
    (reg.call repr sha256 live name rawArgs ctx).map (fun o => o.1.forModel) =
      (reg.run sha256 live t a ctx).map (resultText name) := by
  rw [call, ht]
  simp only [hv]
  rw [Option.map_map]
  congr 1
  funext x
  rcases x with e | ⟨got, r⟩
  · rfl
  · rfl

theorem run_error {e : ToolError} (h : live (asks t a ctx) = .error e) :
    reg.run sha256 live t a ctx = some (.error e) := by
  rw [run, h]

theorem run_answer {got : Fetched} (h : live (asks t a ctx) = .ok got) :
    reg.run sha256 live t a ctx = (reg.evidence sha256 t a ctx got).map fun r => r.map fun r => (got, r) := by
  rw [run, h]

theorem evidence_of_run {got : Fetched} {r : EvidenceRecord} (h : reg.run sha256 live t a ctx = some (.ok (got, r))) :
    reg.evidence sha256 t a ctx got = some (.ok r) := by
  rw [run] at h
  rcases hl : live (asks t a ctx) with e | got'
  · rw [hl] at h
    cases h
  · rw [hl] at h
    obtain ⟨x, hx, he⟩ := Option.map_eq_some_iff.mp h
    rcases x with e | r'
    · cases he
    · obtain ⟨rfl, rfl⟩ := Prod.mk.inj (Except.ok.inj he)
      exact hx

/-- The text of an answer is that of its raw value. -/
theorem evidence_text {got got' : Fetched} (h : got.raw = got'.raw) :
    (reg.evidence sha256 t a ctx got).map (fun r => resultText name (r.map fun r => (got, r))) =
      (reg.evidence sha256 t a ctx got').map fun r => resultText name (r.map fun r => (got', r)) := by
  unfold evidence
  rw [h]
  dsimp only
  split_ifs
  · rfl
  · rcases t.summarize (withoutNul got'.raw) a with (_ | _ | _) | s
    · rfl
    · rfl
    · rfl
    · rfl

theorem evidence_error {got : Fetched} {e : ToolError} (h : reg.evidence sha256 t a ctx got = some (.error e)) :
    e.retryable = false ∧ e.code ∉ LOCAL_ERRORS := by
  unfold evidence at h
  dsimp only at h
  split_ifs at h
  · obtain rfl := Except.error.inj (Option.some.inj h)
    exact ⟨rfl, fun hc => absurd hc (show "too_large" ∉ LOCAL_ERRORS by decide)⟩
  · rcases hs : t.summarize (withoutNul got.raw) a with (_ | _ | _) | s <;> rw [hs] at h
    · obtain rfl := Except.error.inj (Option.some.inj h)
      exact ⟨rfl, fun hc => absurd hc (show "backend_error" ∉ LOCAL_ERRORS by decide)⟩
    · obtain rfl := Except.error.inj (Option.some.inj h)
      exact ⟨rfl, fun hc => absurd hc (show "not_found" ∉ LOCAL_ERRORS by decide)⟩
    · cases h
    · cases h

/-- The id is of the answer, and the summary of it. -/
theorem evidence_ok {got : Fetched} {r : EvidenceRecord} :
    reg.evidence sha256 t a ctx got = some (.ok r) → r.result = withoutNul got.raw ∧
      r.result.dumps.utf8ByteSize ≤ t.maxResultBytes ∧
      r.id = evidenceId sha256 ctx.evidenceScope t.name (t.dump a) (sha256 r.result.dumps) ∧
      r.tool = t.name ∧ r.args = t.dump a ∧ ∃ s, t.summarize r.result a = .ok s ∧
        r.summary = (bound s reg.maxSummaryChars).1 := by
  intro h
  unfold evidence at h
  dsimp only at h
  split_ifs at h with hsize
  · cases h
  rcases hs : t.summarize (withoutNul got.raw) a with (_ | _ | _) | s <;> rw [hs] at h
  · cases h
  · cases h
  · cases h
  · obtain rfl := Except.ok.inj (Option.some.inj h)
    exact ⟨rfl, Nat.le_of_not_lt hsize, rfl, rfl, rfl, s, hs, rfl⟩

theorem evidence_of (got : Fetched) {s : Json} (hsize : (withoutNul got.raw).dumps.utf8ByteSize ≤ t.maxResultBytes)
    (hs : t.summarize (withoutNul got.raw) a = .ok s) :
    ∃ r, reg.evidence sha256 t a ctx got = some (.ok r) ∧
      r.id = evidenceId sha256 ctx.evidenceScope t.name (t.dump a) (sha256 (withoutNul got.raw).dumps) ∧
      r.summary = (bound s reg.maxSummaryChars).1 := by
  unfold evidence
  dsimp only
  rw [if_neg (Nat.not_lt.mpr hsize), hs]
  exact ⟨_, rfl, rfl, rfl⟩

/-! What the model reads of the replay. -/

theorem replayText_local {entries : List Entry} (h : reg.Local repr sha256 name rawArgs ctx o) :
    reg.replayText repr sha256 entries name rawArgs ctx = some o.forModel := by
  rw [replayText, h.anyway]
  rfl

theorem replayText_error {entries : List Entry} {e : ToolError} (ht : reg.tool? name = some t)
    (hv : t.validate rawArgs = .ok a) (h : ((ReplaySource.ofEntries entries).fetch repr (asks t a ctx)).1 = .error e) :
    reg.replayText repr sha256 entries name rawArgs ctx = some (errorText name e) := by
  rw [replayText, call_text ht hv, run_error h]
  rfl

theorem replayText_answer {entries : List Entry} {got : Fetched} (ht : reg.tool? name = some t)
    (hv : t.validate rawArgs = .ok a) (h : ((ReplaySource.ofEntries entries).fetch repr (asks t a ctx)).1 = .ok got) :
    reg.replayText repr sha256 entries name rawArgs ctx =
      (reg.evidence sha256 t a ctx got).map fun r => resultText name (r.map fun r => (got, r)) := by
  rw [replayText, call_text ht hv, run_answer h, Option.map_map]
  rfl

theorem fetch_empty (repr : Json → String) (c : Call) :
    ((ReplaySource.ofEntries []).fetch repr c).1 = replayed repr c none := by
  rw [ReplaySource.fetch, ReplaySource.find]
  rcases c.agent with _ | a
  · rfl
  · rfl

theorem fetch_single (repr : Json → String) (e : Entry) (c : Call) :
    ((ReplaySource.ofEntries [e]).fetch repr c).1 =
      replayed repr c (if e.tool = c.tool ∧ e.args.dumps = c.args.dumps then some e else none) := by
  rw [ReplaySource.fetch, find_single]

theorem tool?_name (h : reg.tool? name = some t) : t.name = name := by
  simpa using List.find?_some h

theorem asked_eq (ht : reg.tool? name = some t) (hv : t.validate rawArgs = .ok a) :
    reg.asked name rawArgs ctx = some (asks t a ctx) := by
  simp only [asked, ht, hv]

/-- A recording gives back every outcome but a retryable error: `retryable` is not in the entry. -/
theorem recorded_text_iff (now : Datetime) (h : reg.call repr sha256 live name rawArgs ctx = some (o, ev)) :
    reg.replayText repr sha256 (reg.recording live now name rawArgs ctx) name rawArgs ctx = some o.forModel ↔
      ∀ e, o.error = some e → e.retryable = false := by
  obtain ⟨hname, hlocal | ⟨t, a, ht, hv, -, hres⟩⟩ := call_cases h
  · refine iff_of_true (replayText_local hlocal) fun e he => ?_
    obtain ⟨e', he', -, hr⟩ := hlocal.error
    rwa [Option.some.inj (he.symm.trans he')]
  have htext : some o.forModel = (reg.run sha256 live t a ctx).map (resultText name) := by
    rw [← call_text ht hv, h, Option.map_some]
  have hrec : reg.recording live now name rawArgs ctx = [recorded (asks t a ctx) now (live (asks t a ctx))] := by
    rw [recording, asked_eq ht hv]
    rfl
  rw [hrec]
  rcases hl : live (asks t a ctx) with e | got
  · have hfetch := fetch_single repr (recorded (asks t a ctx) now (.error e)) (asks t a ctx)
    rw [if_pos ⟨rfl, rfl⟩] at hfetch
    rcases hres with ⟨e', hrun, he, -⟩ | ⟨got, r, hrun, -⟩
    · rw [run_error hl] at hrun
      obtain rfl := Except.error.inj (Option.some.inj hrun)
      rw [replayText_error ht hv hfetch, forModel_error he, hname, Option.some.injEq, errorText_inj, he]
      refine ⟨fun hs e he => ?_, fun hs => ⟨rfl, rfl, (hs _ rfl).symm⟩⟩
      rw [← Option.some.inj he]
      exact hs.2.2.symm
    · rw [run_error hl] at hrun
      cases hrun
  · have hfetch := fetch_single repr (recorded (asks t a ctx) now (.ok got)) (asks t a ctx)
    rw [if_pos ⟨rfl, rfl⟩] at hfetch
    have hsame : reg.replayText repr sha256 [recorded (asks t a ctx) now (.ok got)] name rawArgs ctx =
        some o.forModel := by
      rw [replayText_answer ht hv hfetch, htext, run_answer hl, Option.map_map]
      exact evidence_text rfl
    refine iff_of_true hsame fun e he => ?_
    rcases hres with ⟨e', hrun, he', -⟩ | ⟨_, r, -, hnone, -⟩
    · rw [run_answer hl] at hrun
      obtain ⟨x, hx, hmap⟩ := Option.map_eq_some_iff.mp hrun
      rcases x with e'' | r
      · obtain rfl := Except.error.inj hmap
        obtain rfl := Option.some.inj (he.symm.trans he')
        exact (evidence_error hx).1
      · cases hmap
    · rw [hnone] at he
      cases he

/-! The export. -/

/-- The two answers have ids of their own if they differ. -/
def Separates (sha256 : String → String) (ctx : ToolContext) (r : EvidenceRecord) (w : Json) : Prop :=
  evidenceId sha256 ctx.evidenceScope r.tool r.args (sha256 w.dumps) = r.id → w.Alike r.result

/-- The tool makes the same summary of an answer that has been in the column. -/
def SameSummary (reg : ToolRegistry A) (name : String) (rawArgs : Json) (summary w : Json) : Prop :=
  ∃ t a s, reg.tool? name = some t ∧ t.validate rawArgs = .ok a ∧ t.summarize w a = .ok s ∧
    (bound s reg.maxSummaryChars).1.Alike summary

/-- An outcome that the export carries. The registry's own errors come again by themselves; any
other error has to be not retryable and not of their codes, unless it is the replay's own; an answer
has to come through the columns, and so have the arguments of both. -/
def Carried (reg : ToolRegistry A) (repr : Json → String) (name : String) (rawArgs : Json) (ctx : ToolContext)
    (o : ToolOutcome) (ev : Option EvidenceRecord) (row : ToolRow) : Prop :=
  ∀ c, reg.asked name rawArgs ctx = some c →
    (∀ e, o.error = some e → e.retryable = false ∧
      (e.code ∉ LOCAL_ERRORS ∧ c.args.keepsNumbers = true ∨
        e.code = (miss repr c).code ∧ e.message = (miss repr c).message)) ∧
    ∀ r at' w, ev = some r → row.answer = .ok (at', w) →
      c.args.keepsNumbers = true ∧ r.result.keepsNumbers = true ∧ SameSummary reg name rawArgs r.summary w

theorem args_readBack {x : Json} (ha : (t.dump a).ReadBack x) :
    x.dumps = (asks t a ctx).args.dumps ↔ (asks t a ctx).args.keepsNumbers = true := by
  rw [Json.dumps_inj]
  exact Json.ReadBack.alike_iff _ x (t.distinct a) ha

/-- The entry of the export answers the call exactly if the arguments came back. -/
theorem exported_fetch (repr : Json → String) {row : ToolRow} (e : Entry) (ctx : ToolContext)
    (ht : reg.tool? name = some t) (htool : row.tool = name) (hargs : (t.dump a).ReadBack row.args)
    (he : e.tool = row.tool ∧ e.args = row.args) :
    ((ReplaySource.ofEntries [e]).fetch repr (asks t a ctx)).1 =
      replayed repr (asks t a ctx) (if (asks t a ctx).args.keepsNumbers = true then some e else none) := by
  have hname : e.tool = (asks t a ctx).tool := by rw [he.1, htool, asks, tool?_name ht]
  rw [fetch_single, he.2]
  by_cases hk : (asks t a ctx).args.keepsNumbers = true
  · rw [if_pos ⟨hname, (args_readBack hargs).mpr hk⟩, if_pos hk]
  · rw [if_neg (fun h => hk ((args_readBack hargs).mp h.2)), if_neg hk]

theorem replayText_answered {e : Entry} {w : Json} {r : EvidenceRecord} (ht : reg.tool? name = some t)
    (hv : t.validate rawArgs = .ok a)
    (hr : r.id = evidenceId sha256 ctx.evidenceScope t.name (t.dump a) (sha256 r.result.dumps))
    (hsize : r.result.dumps.utf8ByteSize ≤ t.maxResultBytes)
    (hsep : evidenceId sha256 ctx.evidenceScope t.name (t.dump a) (sha256 w.dumps) = r.id → w.Alike r.result)
    (hw : withoutNul w = w)
    (hf : ((ReplaySource.ofEntries [e]).fetch repr (asks t a ctx)).1 =
      .ok { raw := w, fetchedAt := e.fetchedAt, attempts := 1, source := "replay" }) :
    reg.replayText repr sha256 [e] name rawArgs ctx = some (answerText name r.id r.summary) ↔
      w.Alike r.result ∧ SameSummary reg name rawArgs r.summary w := by
  rw [replayText_answer ht hv hf]
  constructor
  · intro h
    obtain ⟨x, hx, htext⟩ := Option.map_eq_some_iff.mp h
    rcases x with e' | r'
    · exact absurd htext (errorText_ne _ _ _ _)
    · obtain ⟨hresult, -, hid, -, -, s, hs, hsum⟩ := evidence_ok hx
      obtain ⟨hi, hal⟩ := answerText_inj.mp htext
      rw [hresult, hw] at hid hs
      exact ⟨hsep (hid.symm.trans hi), t, a, s, ht, hv, hs, hsum ▸ hal⟩
  · rintro ⟨hal, t', a', s, ht', hv', hs, hsum⟩
    obtain rfl := Option.some.inj (ht.symm.trans ht')
    obtain rfl := Except.ok.inj (hv.symm.trans hv')
    have hdumps : w.dumps = r.result.dumps := Json.dumps_inj.mpr hal
    let got : Fetched := { raw := w, fetchedAt := e.fetchedAt, attempts := 1, source := "replay" }
    have hgot : withoutNul got.raw = w := hw
    obtain ⟨r', hr', hid, hsum'⟩ : ∃ r', reg.evidence sha256 t a ctx got = some (.ok r') ∧
        r'.id = evidenceId sha256 ctx.evidenceScope t.name (t.dump a) (sha256 (withoutNul got.raw).dumps) ∧
        r'.summary = (bound s reg.maxSummaryChars).1 :=
      evidence_of got (by rw [hgot, hdumps]; exact hsize) (by rw [hgot]; exact hs)
    rw [hr']
    refine congrArg some (answerText_inj.mpr ⟨?_, ?_⟩)
    · rw [hid, hr, hgot, hdumps]
    · rwa [hsum']

theorem exported_text_iff {row : ToolRow} (h : reg.call repr sha256 live name rawArgs ctx = some (o, ev))
    (hrow : Logged ctx o ev row)
    (hsep : ∀ r at' w, ev = some r → row.answer = .ok (at', w) → Separates sha256 ctx r w) :
    reg.replayText repr sha256 (toolEntry row).toList name rawArgs ctx = some o.forModel ↔
      Carried reg repr name rawArgs ctx o ev row := by
  obtain ⟨hname, hlocal | ⟨t, a, ht, hv, hargs, hres⟩⟩ := call_cases h
  · refine iff_of_true (replayText_local hlocal) fun c hc => ?_
    rw [hlocal.asked] at hc
    cases hc
  have hmiss : ∀ {entries : List Entry}, ((ReplaySource.ofEntries entries).fetch repr (asks t a ctx)).1 =
      replayed repr (asks t a ctx) none → reg.replayText repr sha256 entries name rawArgs ctx =
        some (errorText name (miss repr (asks t a ctx))) := fun hf => replayText_error ht hv hf
  have htool : row.tool = name := hrow.tool.trans hname
  have hback : (t.dump a).ReadBack row.args := hargs ▸ hrow.args
  have hcarried : Carried reg repr name rawArgs ctx o ev row ↔ _ :=
    ⟨fun hc => hc _ (asked_eq ht hv), fun hc c he => Option.some.inj ((asked_eq ht hv).symm.trans he) ▸ hc⟩
  rw [hcarried]
  rcases hres with ⟨e, -, he, rfl⟩ | ⟨got, r, hrun, hnone, rfl, hid, hsum⟩
  · have hans := hrow.failed e he
    rw [forModel_error he, hname]
    simp only [he, Option.some.injEq, forall_eq', reduceCtorEq, false_imp_iff, implies_true, and_true]
    rw [toolEntry, hans]
    simp only
    split_ifs with hloc
    · rw [Option.toList_none, hmiss (fetch_empty repr _), Option.some.injEq, errorText_inj]
      simp only [hloc, not_true_eq_false, false_and, false_or]
      exact ⟨fun ⟨h1, h2, h3⟩ => ⟨h3.symm, h1.symm, h2.symm⟩, fun ⟨h3, h1, h2⟩ => ⟨h1.symm, h2.symm, h3.symm⟩⟩
    · rw [Option.toList_some]
      have hf := exported_fetch repr
        { incident := some row.incident, agent := row.agent.filter (· ≠ ""), tool := row.tool, args := row.args,
          fetchedAt := row.createdAt, answer := .error (e.code, e.message) } ctx ht htool hback ⟨rfl, rfl⟩
      by_cases hk : (asks t a ctx).args.keepsNumbers = true
      · rw [if_pos hk] at hf
        rw [replayText_error ht hv hf, Option.some.injEq, errorText_inj]
        exact ⟨fun h => ⟨h.2.2.symm, .inl ⟨hloc, hk⟩⟩, fun h => ⟨rfl, rfl, h.1.symm⟩⟩
      · rw [if_neg hk] at hf
        rw [hmiss hf, Option.some.injEq, errorText_inj]
        simp only [hk, Bool.false_eq_true, and_false, false_or]
        exact ⟨fun ⟨h1, h2, h3⟩ => ⟨h3.symm, h1.symm, h2.symm⟩, fun ⟨h3, h1, h2⟩ => ⟨h1.symm, h2.symm, h3.symm⟩⟩
  · obtain ⟨at', w, hans, hstored⟩ := hrow.ok r rfl
    rw [forModel_answer hnone hid hsum, hname]
    simp only [hnone, reduceCtorEq, false_imp_iff, implies_true, true_and]
    rw [toolEntry, hans]
    simp only [Option.toList_some]
    have hf := exported_fetch repr
      { incident := some row.incident, agent := row.agent.filter (· ≠ ""), tool := row.tool, args := row.args,
        fetchedAt := at', answer := .ok w } ctx ht htool hback ⟨rfl, rfl⟩
    by_cases hk : (asks t a ctx).args.keepsNumbers = true
    · rw [if_pos hk] at hf
      obtain ⟨-, hsize, hrid, hrtool, hrargs, -⟩ := evidence_ok (evidence_of_run hrun)
      have hsep' := hsep r at' w rfl hans
      rw [Separates, hrtool, hrargs] at hsep'
      rw [replayText_answered ht hv hrid hsize hsep' (withoutNul_stored hstored) hf, alike_stored hstored]
      refine ⟨?_, fun hc => (hc r at' w rfl rfl).2⟩
      intro hc r' at'' w' he hans'
      obtain rfl := Option.some.inj he
      obtain ⟨rfl, rfl⟩ := Prod.mk.inj (Except.ok.inj hans')
      exact ⟨hk, hc⟩
    · rw [if_neg hk] at hf
      rw [hmiss hf, Option.some.injEq]
      refine iff_of_false (errorText_ne _ _ _ _) fun hc => hk (hc r at' w rfl rfl).1

/-- Replayed from the recording the model reads what it read live exactly if that was no retryable
error; replayed from the export, exactly if the outcome is one that the export carries. -/
theorem replayed_text_iff (now : Datetime) (h : reg.call repr sha256 live name rawArgs ctx = some (o, ev)) :
    (reg.replayText repr sha256 (reg.recording live now name rawArgs ctx) name rawArgs ctx = some o.forModel ↔
        ∀ e, o.error = some e → e.retryable = false) ∧
      ∀ row, Logged ctx o ev row → (∀ r at' w, ev = some r → row.answer = .ok (at', w) → Separates sha256 ctx r w) →
        (reg.replayText repr sha256 (toolEntry row).toList name rawArgs ctx = some o.forModel ↔
          Carried reg repr name rawArgs ctx o ev row) :=
  ⟨recorded_text_iff now h, fun _ hrow hsep => exported_text_iff h hrow hsep⟩

/-! One tool, and a context. -/

def promQuery : Tool String where
  name := "prom_query"
  backend := "prometheus"
  validate args :=
    match (args.get? "query").bind Json.asStr? with
    | some query => .ok query
    | none => .error [⟨["query"], "Field required"⟩]
  dump query := .obj [("query", .str query), ("at", .null)]
  summarize raw _ := .ok (.obj [("series", raw)])
  distinct _ := by simp [Json.Distinct, Json.DistinctMembers]

def sampleRegistry : ToolRegistry String := { tools := [promQuery] }

def sampleContext : ToolContext := { tenantId := "acme", incidentId := some "inc-1", agent := some "metrics" }

def sampleArgs : Json := .obj [("query", .str "up")]

def sampleSeries : Json := .arr [.obj [("value", .num 1), ("metric", .str "up")]]

def sampleHash : String := "9402fce5fbb678f5d4a984d21a2352eba3964dadece2e8a93dab87a26f9e94ce"

/-- The answer and the evidence key, with their digests. -/
def sampleSha256 : String → String :=
  Digest.ofKnown [((Json.obj [("status", .str "success"), ("data", sampleSeries)]).dumps, sampleHash),
    (key [.str "acme/inc-1", .str "prom_query", promQuery.dump "up", .str sampleHash],
      "d2ae6cf9018d20bf85b4243879451fc4b600feef3c866b2ad7694f13e1a6c584")]

def sampleFetched : Fetched :=
  { raw := .obj [("status", .str "success"), ("data", sampleSeries)], fetchedAt := sampleTime, attempts := 1,
    source := "live" }

/-- The answer and the arguments as the columns give them back, the shorter names first. -/
def storedAnswer : Json := .obj [("data", sampleSeries), ("status", .str "success")]

def sampleRow (answer : Except (String × String) (Datetime × Json)) : ToolRow :=
  { incident := "inc-1", agent := some "metrics", tool := "prom_query",
    args := .obj [("at", .null), ("query", .str "up")], createdAt := sampleTime, answer }

theorem sample_tool : sampleRegistry.tool? "prom_query" = some promQuery := rfl

theorem sample_valid : promQuery.validate sampleArgs = .ok "up" := rfl

theorem sample_args : (promQuery.dump "up").ReadBack (sampleRow (.ok (sampleTime, storedAnswer))).args :=
  ⟨[("query", .str "up"), ("at", .null)], ⟨rfl, rfl, rfl, rfl, trivial⟩, .swap _ _ _⟩

theorem sample_clean : withoutNul sampleFetched.raw = sampleFetched.raw :=
  withoutNul_of_clean _ (by simp [sampleFetched, sampleSeries, Clean, CleanMembers, CleanAll])

theorem sample_answer : sampleFetched.raw.ReadBack storedAnswer := by
  have hseries : sampleSeries.ReadBack sampleSeries :=
    ⟨Json.readBack_obj ⟨rfl, Json.storedNumber_ofInt 1, rfl, rfl, trivial⟩, trivial⟩
  exact ⟨[("status", .str "success"), ("data", sampleSeries)], ⟨rfl, rfl, rfl, hseries, trivial⟩, .swap _ _ _⟩

theorem sample_evidence :
    ∃ r, sampleRegistry.evidence sampleSha256 promQuery "up" sampleContext sampleFetched = some (.ok r) := by
  obtain ⟨r, hr, -⟩ : ∃ r,
      sampleRegistry.evidence sampleSha256 promQuery "up" sampleContext sampleFetched = some (.ok r) ∧ _ :=
    evidence_of sampleFetched (by decide +kernel) rfl
  exact ⟨r, hr⟩

def sampleOutcome (r : EvidenceRecord) : ToolOutcome :=
  { tool := "prom_query", args := promQuery.dump "up", evidenceId := some r.id, summary := some r.summary,
    fetchedAt := some sampleTime }

/-- The members of the answer and of the arguments are stored in another order. -/
theorem replayed_text_iff_answer :
    sampleRegistry.replayText (fun _ => "\x7b\x7d") sampleSha256
        (toolEntry (sampleRow (.ok (sampleTime, storedAnswer)))).toList "prom_query" sampleArgs sampleContext =
      (sampleRegistry.call (fun _ => "\x7b\x7d") sampleSha256 (fun _ => .ok sampleFetched) "prom_query" sampleArgs
        sampleContext).map fun o => o.1.forModel := by
  obtain ⟨r, hr⟩ := sample_evidence
  obtain ⟨hresult, -, -, -, -, s, hs, hsum⟩ := evidence_ok hr
  have hcall : sampleRegistry.call (fun _ => "\x7b\x7d") sampleSha256 (fun _ => .ok sampleFetched) "prom_query"
      sampleArgs sampleContext = some (sampleOutcome r, some r) := by
    have hrun : sampleRegistry.run sampleSha256 (fun _ => .ok sampleFetched) promQuery "up" sampleContext =
        some (.ok (sampleFetched, r)) := by
      rw [run_answer rfl, hr]
      rfl
    rw [call, sample_tool]
    simp only [sample_valid]
    rw [hrun]
    rfl
  have hstored : Stored r storedAnswer :=
    ⟨sampleFetched.raw, by rw [hresult]; rfl, by rw [sample_clean]; exact sample_answer⟩
  have hrow : Logged sampleContext (sampleOutcome r) (some r) (sampleRow (.ok (sampleTime, storedAnswer))) := {
    agent := rfl
    tool := rfl
    args := sample_args
    failed := fun e he => by cases he
    ok := fun r' h' => ⟨sampleTime, storedAnswer, rfl, Option.some.inj h' ▸ hstored⟩ }
  rw [hcall, Option.map_some]
  refine ((replayed_text_iff sampleTime hcall).2 _ hrow ?_).mpr ?_
  · intro r' at' w h' hans _
    obtain rfl := Option.some.inj h'
    obtain ⟨rfl, rfl⟩ := Prod.mk.inj (Except.ok.inj hans)
    rw [hresult, sample_clean]
    show storedAnswer.canon = sampleFetched.raw.canon
    decide +kernel
  · intro c hc
    obtain rfl := Option.some.inj ((asked_eq sample_tool sample_valid).symm.trans hc)
    refine ⟨fun e he => (by cases he), fun r' at' w h' hans => ?_⟩
    obtain rfl := Option.some.inj h'
    obtain ⟨rfl, rfl⟩ := Prod.mk.inj (Except.ok.inj hans)
    obtain rfl : Json.obj [("series", r.result)] = s := Except.ok.inj hs
    rw [SameSummary, hsum, hresult, sample_clean]
    refine ⟨rfl, rfl, promQuery, "up", _, sample_tool, sample_valid, rfl, ?_⟩
    show Json.canon _ = Json.canon _
    decide +kernel

/-- The tool took longer than its timeout. -/
def timedOut : ToolError :=
  { code := "timeout", message := "prom_query took longer than 10s", retryable := true, attempts := 3 }

/-- Live the model reads that it may try again, and in either replay that it may not. -/
theorem retryable_lost :
    ∃ o, sampleRegistry.call (fun _ => "\x7b\x7d") sampleSha256 (fun _ => .error timedOut) "prom_query" sampleArgs
        sampleContext = some (o, none) ∧
      Logged sampleContext o none (sampleRow (.error ("timeout", "prom_query took longer than 10s"))) ∧
      sampleRegistry.replayText (fun _ => "\x7b\x7d") sampleSha256
          (sampleRegistry.recording (fun _ => .error timedOut) sampleTime "prom_query" sampleArgs sampleContext)
          "prom_query" sampleArgs sampleContext ≠ some o.forModel ∧
      sampleRegistry.replayText (fun _ => "\x7b\x7d") sampleSha256
          (toolEntry (sampleRow (.error ("timeout", "prom_query took longer than 10s")))).toList
          "prom_query" sampleArgs sampleContext ≠ some o.forModel := by
  have hcall : sampleRegistry.call (fun _ => "\x7b\x7d") sampleSha256 (fun _ => .error timedOut) "prom_query" sampleArgs
      sampleContext =
        some ({ tool := "prom_query", args := promQuery.dump "up", error := some timedOut, attempts := 3 }, none) := rfl
  have hrow : Logged sampleContext
      { tool := "prom_query", args := promQuery.dump "up", error := some timedOut, attempts := 3 } none
      (sampleRow (.error ("timeout", "prom_query took longer than 10s"))) := {
    agent := rfl
    tool := rfl
    args := sample_args
    failed := fun e he => by rw [← Option.some.inj he]; rfl
    ok := fun r h' => by cases h' }
  refine ⟨_, hcall, hrow, fun hsame => ?_, fun hsame => ?_⟩
  · cases (recorded_text_iff sampleTime hcall).mp hsame timedOut rfl
  · have hc := (exported_text_iff hcall hrow fun r _ _ h' => by cases h').mp hsame
    cases ((hc _ (asked_eq sample_tool sample_valid)).1 timedOut rfl).1

end ToolRegistry

end Blackboard.Tools

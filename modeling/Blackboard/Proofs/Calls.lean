import Mathlib.Data.List.Forall2
import Mathlib.Tactic.Common
import Blackboard.Spec.Calls

/-! When a call returns. It leaves one row, and evidence exactly if it ends well, where the source and the
summarizer raise nothing but what is caught, the answer can be encoded, and the store takes the rows. In strict
JSON it is the call that the cassettes replay. -/

namespace Blackboard.Tools.Calls

/-! An answer without U+0000. -/

theorem nulFree_replaceNul (s : PyStr) : (replaceNul s).nulFree = true := by
  refine List.all_eq_true.mpr fun c hc => ?_
  obtain ⟨d, -, rfl⟩ := List.mem_map.mp hc
  split_ifs with h
  · decide
  · exact decide_eq_true h

theorem stringsMembers_assign {p : PyStr → Bool} {d : List (PyStr × PyJson)} {m : PyStr × PyJson}
    (hd : PyJson.stringsMembers p d = true) (hm : p m.1 = true ∧ m.2.strings p = true) :
    PyJson.stringsMembers p (assign d m) = true := by
  rw [PyJson.stringsMembers_iff] at hd ⊢
  intro n hn
  unfold assign at hn
  split_ifs at hn
  · obtain ⟨x, hx, rfl⟩ := List.mem_map.mp hn
    split_ifs
    · exact hm
    · exact hd x hx
  · rcases List.mem_append.mp hn with hn | hn
    · exact hd n hn
    · rw [List.mem_singleton.mp hn]
      exact hm

theorem stringsMembers_foldl {p : PyStr → Bool} {ms : List (PyStr × PyJson)} :
    ∀ {d : List (PyStr × PyJson)}, PyJson.stringsMembers p d = true → PyJson.stringsMembers p ms = true →
      PyJson.stringsMembers p (ms.foldl assign d) = true := by
  induction ms with
  | nil => exact fun hd _ => hd
  | cons m ms ih =>
    intro d hd hms
    rw [PyJson.stringsMembers_iff] at hms
    have hrest : PyJson.stringsMembers p ms = true :=
      PyJson.stringsMembers_iff.mpr fun n hn => hms n (List.mem_cons_of_mem m hn)
    exact ih (stringsMembers_assign hd (hms m List.mem_cons_self)) hrest

mutual

theorem nulFree_withoutNul : ∀ v : PyJson, (withoutNul v).strings PyStr.nulFree = true
  | .null | .bool _ | .int _ | .float _ | .nan | .infinite _ => by rw [withoutNul]; rfl
  | .str s => by rw [withoutNul]; exact nulFree_replaceNul s
  | .arr xs => by rw [withoutNul]; exact nulFree_withoutNulAll xs
  | .obj ms => by
    rw [withoutNul]
    exact stringsMembers_foldl rfl (nulFree_nulFreePairs ms)

theorem nulFree_withoutNulAll : ∀ xs : List PyJson, PyJson.stringsAll PyStr.nulFree (withoutNulAll xs) = true
  | [] => rfl
  | x :: xs => by
    rw [withoutNulAll, PyJson.stringsAll, nulFree_withoutNul x, nulFree_withoutNulAll xs]
    rfl

theorem nulFree_nulFreePairs : ∀ ms :
    List (PyStr × PyJson), PyJson.stringsMembers PyStr.nulFree (nulFreePairs ms) = true
  | [] => rfl
  | (k, v) :: ms => by
    rw [nulFreePairs, PyJson.stringsMembers, nulFree_replaceNul k, nulFree_withoutNul v, nulFree_nulFreePairs ms]
    rfl

end

/-- An answer that can be encoded can be stored. -/
theorem storable_result {v : PyJson} {raw : Json} (h : (withoutNul v).plain? = some raw) :
    (PyJson.ofJson raw).storable = true := by
  have hplain := PyJson.isSome_plain? (withoutNul v)
  rw [h, Option.isSome_some] at hplain
  obtain ⟨hfin, henc⟩ := Bool.and_eq_true_iff.mp hplain.symm
  rw [PyJson.ofJson_plain h, PyJson.storable, hfin, Bool.true_and]
  exact PyJson.strings_and (nulFree_withoutNul v) (PyJson.strings_mono (fun s => PyStr.paired_of_encodes) henc)

section

/-! Calls in strict JSON, as the registry of the cassettes has them. -/

theorem replaceNul_ofString (s : String) : replaceNul (PyStr.ofString s) = PyStr.ofString (Tools.replaceNul s) := by
  rw [replaceNul, Tools.replaceNul, PyStr.ofString, PyStr.ofString, String.toList_ofList, List.map_map, List.map_map]
  refine List.map_congr_left fun c _ => ?_
  rw [Function.comp_apply, Function.comp_apply, PyStr.val_code]
  by_cases hc : c = '\x00'
  · rw [hc]
    rfl
  · have hnonzero : c.toNat ≠ 0 := fun h => hc (Char.toNat_inj.mp h)
    rw [if_neg hnonzero, if_neg hc]

theorem assign_ofJsonMembers (d : List (String × Json)) (k : String) (v : Json) :
    assign (PyJson.ofJsonMembers d) (PyStr.ofString k, PyJson.ofJson v) =
      PyJson.ofJsonMembers (Json.assign d k v) := by
  have hany : ((PyJson.ofJsonMembers d).any fun n => n.1 = PyStr.ofString k) = d.any fun m => m.1 = k := by
    rw [PyJson.ofJsonMembers_eq, List.any_map]
    exact congrArg d.any (funext fun m => decide_eq_decide.mpr PyStr.ofString_inj)
  rw [assign, Json.assign, hany]
  split_ifs
  · rw [PyJson.ofJsonMembers_eq, PyJson.ofJsonMembers_eq, List.map_map, List.map_map]
    refine List.map_congr_left fun m _ => ?_
    simp only [Function.comp_apply, PyStr.ofString_inj]
    split_ifs <;> rfl
  · rw [PyJson.ofJsonMembers_eq, PyJson.ofJsonMembers_eq, List.map_append]
    rfl

theorem foldl_assign_ofJsonMembers (ms : List (String × Json)) : ∀ d,
    (PyJson.ofJsonMembers ms).foldl assign (PyJson.ofJsonMembers d) =
      PyJson.ofJsonMembers (ms.foldl (fun d m => Json.assign d m.1 m.2) d) := by
  induction ms with
  | nil => exact fun _ => rfl
  | cons m ms ih =>
    intro d
    rw [PyJson.ofJsonMembers, List.foldl_cons, List.foldl_cons, assign_ofJsonMembers, ih]

mutual

theorem withoutNul_ofJson : ∀ v : Json, withoutNul (PyJson.ofJson v) = PyJson.ofJson (Tools.withoutNul v)
  | .null | .bool _ | .num _ | .float _ => rfl
  | .str s => by rw [PyJson.ofJson, withoutNul, Tools.withoutNul, PyJson.ofJson, replaceNul_ofString]
  | .arr xs => by rw [PyJson.ofJson, withoutNul, Tools.withoutNul, PyJson.ofJson, withoutNulAll_ofJson xs]
  | .obj ms => by
    rw [PyJson.ofJson, withoutNul, Tools.withoutNul, PyJson.ofJson, nulFreePairs_ofJson ms]
    exact congrArg PyJson.obj (foldl_assign_ofJsonMembers _ [])

theorem withoutNulAll_ofJson : ∀ xs : List Json,
    withoutNulAll (PyJson.ofJsonAll xs) = PyJson.ofJsonAll (Tools.withoutNulAll xs)
  | [] => rfl
  | x :: xs => by
    rw [PyJson.ofJsonAll, withoutNulAll, Tools.withoutNulAll, PyJson.ofJsonAll, withoutNul_ofJson x,
      withoutNulAll_ofJson xs]

theorem nulFreePairs_ofJson : ∀ ms : List (String × Json),
    nulFreePairs (PyJson.ofJsonMembers ms) = PyJson.ofJsonMembers (Tools.nulFreePairs ms)
  | [] => rfl
  | (k, v) :: ms => by
    rw [PyJson.ofJsonMembers, nulFreePairs, Tools.nulFreePairs, PyJson.ofJsonMembers, replaceNul_ofString,
      withoutNul_ofJson v, nulFreePairs_ofJson ms]

end

def Failure.ofError (e : ToolError) : Failure :=
  { code := e.code, message := .ofString e.message, retryable := e.retryable, attempts := e.attempts }

def Problem.ofPlain (p : Tools.Problem) : Problem := ⟨p.loc.map PyStr.ofString, .ofString p.msg⟩

def Fetched.ofPlain (got : Tools.Fetched) : Fetched :=
  { raw := .ofJson got.raw, fetchedAt := got.fetchedAt, attempts := got.attempts, source := got.source }

def Outcome.ofPlain (o : ToolOutcome) : Outcome :=
  { tool := .ofString o.tool, args := .ofJson o.args, evidenceId := o.evidenceId, summary := o.summary,
    error := o.error.map .ofError, attempts := o.attempts, fetchedAt := o.fetchedAt }

/-- A source that raises ToolErrors only. -/
def ofSource (fetch : Call → Except ToolError Tools.Fetched) (c : Call) : Except SourceRaises Fetched :=
  match fetch c with
  | .error e => .error (.tool (.ofError e))
  | .ok got => .ok (.ofPlain got)

/-- The same summary or the same raise. -/
inductive Summarized : Except Raised Json → Except SummaryRaises Summary → Prop
  | json (ms : List (String × Json)) : Summarized (.ok (.obj ms)) (.ok (.json ms))
  | shape (repr : String) : Summarized (.error (.shape repr)) (.error (.shape (.ofString repr)))
  | notFound (message : String) :
    Summarized (.error (.notFound message)) (.error (.tool { code := "not_found", message := .ofString message }))
  | other : Summarized (.error .other) (.error .other)

variable {A : Type}

/-- `t` does on strict JSON what `p` does. -/
structure Tool.Extends (t : Tool A) (p : Tools.Tool A) : Prop where
  name : t.name = p.name
  backend : t.backend = p.backend
  validate : ∀ ms, t.validate (PyJson.ofJsonMembers ms) = (p.validate (.obj ms)).mapError (List.map .ofPlain)
  dump : t.dump = p.dump
  summarize : ∀ raw a, Summarized (p.summarize raw a) (t.summarize raw a)
  maxResultBytes : t.maxResultBytes = p.maxResultBytes

structure ToolRegistry.Extends (reg : ToolRegistry A) (plain : Tools.ToolRegistry A) : Prop where
  tools : List.Forall₂ Tool.Extends reg.tools plain.tools
  maxSummaryChars : reg.maxSummaryChars = plain.maxSummaryChars

theorem Problem.text_ofPlain (p : Tools.Problem) : (Problem.ofPlain p).text = PyStr.ofString p.text := by
  have hempty : ∀ s : String, PyStr.ofString s = [] ↔ s = "" := fun s => PyStr.ofString_inj (t := "")
  rw [Problem.text, Tools.Problem.text, Problem.ofPlain, ← PyStr.ofString_intercalate, PyStr.ofString_append,
    PyStr.ofString_append, apply_ite PyStr.ofString]
  simp only [hempty]

variable {reg : ToolRegistry A} {plain : Tools.ToolRegistry A} (repr : Json → String) (sha256 : String → String)

theorem find_ofPlain (name : String) {ts : List (Tool A)} {ps : List (Tools.Tool A)}
    (h : List.Forall₂ Tool.Extends ts ps) :
    Option.Rel Tool.Extends (ts.find? fun t => PyStr.ofString t.name = .ofString name)
      (ps.find? fun p => p.name = name) := by
  induction h with
  | nil => exact .none
  | @cons t p ts ps htp _ ih =>
    have hname : decide (PyStr.ofString t.name = .ofString name) = decide (p.name = name) :=
      decide_eq_decide.mpr (by rw [htp.name, PyStr.ofString_inj])
    rw [List.find?_cons, List.find?_cons, hname]
    cases decide (p.name = name) with
    | true => exact .some htp
    | false => exact ih

theorem names_ofPlain {ts : List (Tool A)} {ps : List (Tools.Tool A)} (h : List.Forall₂ Tool.Extends ts ps) :
    ts.map Tool.name = ps.map Tools.Tool.name := by
  induction h with
  | nil => rfl
  | cons htp _ ih => rw [List.map_cons, List.map_cons, htp.name, ih]

theorem unknownTool_ofPlain (h : reg.Extends plain) (name : String) :
    reg.unknownTool (fun s => repr (.str s.text)) (.ofString name) = .ofError (plain.unknownTool repr name) := by
  rw [ToolRegistry.unknownTool, Tools.ToolRegistry.unknownTool, names_ofPlain h.tools, PyStr.text_ofString]
  rfl

theorem invalidArgs_ofPlain {t : Tool A} {p : Tools.Tool A} (h : t.Extends p) (problems : List Tools.Problem) :
    ToolRegistry.invalidArgs t (problems.map .ofPlain) = .ofError (Tools.ToolRegistry.invalidArgs p problems) := by
  have htexts : ((problems.map Problem.ofPlain).take 5).map Problem.text =
      ((problems.take 5).map Tools.Problem.text).map PyStr.ofString := by
    rw [← List.map_take, List.map_map, List.map_map]
    exact List.map_congr_left fun q _ => Problem.text_ofPlain q
  rw [ToolRegistry.invalidArgs, Tools.ToolRegistry.invalidArgs, htexts, ← PyStr.ofString_intercalate, h.name,
    ← PyStr.ofString_append]
  rfl

theorem unexpectedShape_ofPlain (backend repr : String) :
    ToolRegistry.unexpectedShape backend (.ofString repr) = .ofError (Tools.unexpectedShape backend repr) := by
  rw [ToolRegistry.unexpectedShape, ← PyStr.ofString_append]
  rfl

theorem evidence_ofPlain (h : reg.Extends plain) {t : Tool A} {p : Tools.Tool A} (ht : t.Extends p) (a : A)
    (ctx : ToolContext) (got : Tools.Fetched) :
    reg.evidence sha256 t a ctx (.ofPlain got) =
      (plain.evidence sha256 p a ctx got).map (Except.mapError .ofError) := by
  have hraw : (withoutNul (Fetched.ofPlain got).raw).plain? = some (Tools.withoutNul got.raw) := by
    rw [Fetched.ofPlain, withoutNul_ofJson, PyJson.plain?_ofJson]
  rw [ToolRegistry.evidence, Tools.ToolRegistry.evidence, hraw]
  simp only [ht.maxResultBytes]
  split_ifs with hsize
  · rfl
  · generalize hp : p.summarize (Tools.withoutNul got.raw) a = result
    generalize hs : t.summarize (Tools.withoutNul got.raw) a = summary
    have hsame : Summarized result summary := hp ▸ hs ▸ ht.summarize (Tools.withoutNul got.raw) a
    cases hsame with
    | json ms =>
      simp only [h.maxSummaryChars, ht.name, ht.dump]
      rfl
    | shape repr =>
      rw [ht.backend]
      exact congrArg (fun e => some (Except.error e)) (unexpectedShape_ofPlain p.backend repr)
    | notFound message => rfl
    | other => rfl

/-- On strict JSON, with a source that raises ToolErrors only, a call comes to what the registry of the
cassettes says. -/
theorem outcome_ofPlain (h : reg.Extends plain) (fetch : Call → Except ToolError Tools.Fetched) (name : String)
    (ms : List (String × Json)) (ctx : ToolContext) :
    reg.outcome (fun s => repr (.str s.text)) sha256 (ofSource fetch) (.ofString name) (PyJson.ofJsonMembers ms) ctx =
      (plain.call repr sha256 fetch name (.obj ms) ctx).map fun r => (.ofPlain r.1, r.2) := by
  have hfound := find_ofPlain name (List.rel_reverse h.tools)
  rw [ToolRegistry.outcome, Tools.ToolRegistry.call, ToolRegistry.tool?, Tools.ToolRegistry.tool?]
  generalize reg.tools.reverse.find? _ = found at hfound
  generalize plain.tools.reverse.find? _ = pfound at hfound
  cases hfound with
  | none =>
    rw [unknownTool_ofPlain repr h]
    rfl
  | @some t p ht =>
    simp only [ht.validate]
    cases hv : p.validate (.obj ms) with
    | error problems =>
      simp only [Except.mapError, invalidArgs_ofPlain ht]
      rfl
    | ok a =>
      simp only [Except.mapError, Tools.ToolRegistry.run, Tools.ToolRegistry.asks, ofSource, ht.name, ht.dump]
      cases hf : fetch ⟨ctx.agent, p.name, p.dump a⟩ with
      | error e => rfl
      | ok got =>
        simp only [evidence_ofPlain sha256 h ht]
        cases plain.evidence sha256 p a ctx got with
        | none => rfl
        | some r =>
          cases r with
          | error e => rfl
          | ok r => rfl

end

/-! What a call that returns leaves. -/

/-- One row more, of the call, and evidence under the outcome's id exactly if it is ok. -/
structure Answered (s : Store) (name : PyStr) (o : Outcome) (s' : Store) : Prop where
  logged : ∃ r, s'.calls = s.calls ++ [r] ∧ r.tool = name ∧ r.args = o.args ∧
    r.status = (if o.ok then "ok" else "error") ∧ r.evidenceId = o.evidenceId
  stored : o.ok = true → ∃ r ∈ s'.evidence, o.evidenceId = some r.id
  kept : o.ok = false → s'.evidence = s.evidence

variable {A : Type} (reg : ToolRegistry A) (repr : PyStr → String) (sha256 : String → String) (s : Store)
  (fetch : Call → Except SourceRaises Fetched) (name : PyStr) (rawArgs : List (PyStr × PyJson)) (ctx : ToolContext)

/-- The call returns, and is answered. -/
def Returns : Prop := ∃ o s', reg.call repr sha256 s fetch name rawArgs ctx = some (o, s') ∧ Answered s name o s'

/-- What the trace and the store take: numbers that are finite, and for Postgres no U+0000 and no surrogate in the
name, the arguments and the message. -/
def Loggable (args : PyJson) (e : Option Failure) : Prop :=
  args.finite = true ∧ (s.postgres = true → takesText name = true ∧ args.storable = true ∧
    ∀ f, e = some f → takesText (PyStr.ofString f.code) = true ∧ takesText f.message = true)

/-- What the call meets is what it has a handler for: an error of its own or a ToolError of the source with
a text that can be stored, or an answer that can be encoded, of which the summarizer makes a summary or raises
what is caught. -/
def Answerable : Prop :=
  match reg.tool? name with
  | none => Loggable s name (.obj rawArgs) (some (reg.unknownTool repr name))
  | some t =>
    match t.validate rawArgs with
    | .error problems => Loggable s name (.obj rawArgs) (some (ToolRegistry.invalidArgs t problems))
    | .ok a =>
      match fetch ⟨ctx.agent, t.name, t.dump a⟩ with
      | .error (.tool e) => Loggable s name (.ofJson (t.dump a)) (some e)
      | .error .other => False
      | .ok got =>
        (withoutNul got.raw).finite = true ∧ (withoutNul got.raw).strings PyStr.encodes = true ∧
          ∀ raw, (withoutNul got.raw).plain? = some raw →
            if t.maxResultBytes < raw.dumps.utf8ByteSize then
              Loggable s name (.ofJson (t.dump a))
                (some (ToolRegistry.tooLarge raw.dumps.utf8ByteSize t.maxResultBytes))
            else
              match t.summarize raw a with
              | .error (.shape e) =>
                Loggable s name (.ofJson (t.dump a)) (some (ToolRegistry.unexpectedShape t.backend e))
              | .error (.tool e) => Loggable s name (.ofJson (t.dump a)) (some e)
              | .error .other => False
              | .ok .unserializable => False
              | .ok (.json ms) => Loggable s name (.ofJson (t.dump a)) none ∧ (s.postgres = true →
                  (PyJson.ofJson (bound (.obj ms) reg.maxSummaryChars).1).storable = true ∧
                  takesText (PyStr.ofString got.source) = true)

/-- The outcome and the evidence agree. -/
structure Paired (name : PyStr) (o : Outcome) (ev : Option EvidenceRecord) : Prop where
  tool : o.tool = name
  ok : o.ok = true → ∃ r, ev = some r ∧ o.evidenceId = some r.id
  failed : o.ok = false → ev = none

/-- What the span and the store ask of an outcome. -/
def Fits (o : Outcome) (ev : Option EvidenceRecord) : Prop :=
  o.args.finite = true ∧ (s.postgres = true → takesRow (ToolRegistry.row ctx o) = true ∧ ev.all takesEvidence = true)

variable {reg repr sha256 s fetch name rawArgs ctx}

theorem outcome_paired {o : Outcome} {ev : Option EvidenceRecord}
    (h : reg.outcome repr sha256 fetch name rawArgs ctx = some (o, ev)) : Paired name o ev := by
  have hfail {o : Outcome} {ev : Option EvidenceRecord} {p : Outcome} (hp : some (p, none) = some (o, ev))
    (ht : p.tool = name)
      (he : p.ok = false) : Paired name o ev := by
    obtain ⟨rfl, rfl⟩ := Prod.mk.inj (Option.some.inj hp)
    exact ⟨ht, fun hok => absurd hok (by rw [he]; decide), fun _ => rfl⟩
  unfold ToolRegistry.outcome at h
  split at h
  · exact hfail h rfl rfl
  · split at h
    · exact hfail h rfl rfl
    · split at h
      · exact hfail h rfl rfl
      · cases h
      · split at h
        · cases h
        · exact hfail h rfl rfl
        · obtain ⟨rfl, rfl⟩ := Prod.mk.inj (Option.some.inj h)
          exact ⟨rfl, fun _ => ⟨_, rfl, rfl⟩, fun hok => (by cases hok)⟩

theorem answered_of_save {o : Outcome} {ev : Option EvidenceRecord} {s' : Store} (hp : Paired name o ev)
    (h : s.save ev (ToolRegistry.row ctx o) = some s') : Answered s name o s' := by
  unfold Store.save at h
  split_ifs at h
  obtain rfl := Option.some.inj h
  refine ⟨⟨_, rfl, hp.tool, rfl, rfl, rfl⟩, fun hok => ?_, fun hok => ?_⟩
  · obtain ⟨r, rfl, hid⟩ := hp.ok hok
    by_cases hany : (s.evidence.any fun q => q.id = r.id) = true
    · obtain ⟨q, hq, hqid⟩ := List.any_eq_true.mp hany
      simp only [hany, if_true]
      exact ⟨q, hq, hid.trans (congrArg some (of_decide_eq_true hqid).symm)⟩
    · simp only [hany, if_false, Bool.false_eq_true]
      exact ⟨r, List.mem_append_right _ (List.mem_singleton_self r), hid⟩
  · obtain rfl := hp.failed hok
    rfl

/-- A call that returns is answered, and it returns exactly if its outcome fits the span and the store. -/
theorem returns_iff : Returns reg repr sha256 s fetch name rawArgs ctx ↔
    ∃ o ev, reg.outcome repr sha256 fetch name rawArgs ctx = some (o, ev) ∧ Fits s ctx o ev := by
  constructor
  · rintro ⟨o, s', h, -⟩
    obtain ⟨⟨o', ev⟩, hout, h⟩ := Option.bind_eq_some_iff.mp h
    obtain ⟨s1, hsave, h⟩ := Option.bind_eq_some_iff.mp h
    split_ifs at h with hfin
    refine ⟨o', ev, hout, hfin, fun hpg => ?_⟩
    unfold Store.save at hsave
    split_ifs at hsave with hno
    rw [hpg, Bool.true_and, Bool.not_eq_true', Bool.not_eq_false, Bool.and_eq_true] at hno
    exact hno
  · rintro ⟨o, ev, hout, hfin, hfits⟩
    have hsave : s.save ev (ToolRegistry.row ctx o) ≠ none := by
      unfold Store.save
      split_ifs with hno
      · obtain ⟨hpg, hno⟩ := Bool.and_eq_true_iff.mp hno
        rw [(hfits hpg).1, (hfits hpg).2] at hno
        cases hno
      · exact Option.some_ne_none _
    obtain ⟨s', hs'⟩ := Option.ne_none_iff_exists'.mp hsave
    refine ⟨o, s', ?_, answered_of_save (outcome_paired hout) hs'⟩
    rw [ToolRegistry.call, hout, Option.bind_some]
    simp only [hs', Option.bind_some, if_pos hfin]

theorem fits_error {args : PyJson} {e : Failure} {attempts : ℕ} {at' : Option Datetime} :
    Fits s ctx { tool := name, args, error := some e, attempts, fetchedAt := at' } none ↔
    Loggable s name args (some e) := by
  simp only [Fits, Loggable, takesRow, ToolRegistry.row, Option.map_some, Option.all_some, Option.all_none,
    Bool.and_eq_true, and_true, and_assoc, Option.some.injEq, forall_eq']

theorem fits_ok {t : Tool A} {a : A} {got : Fetched} {r : EvidenceRecord} (ht : PyStr.ofString t.name = name)
    (htool : r.tool = t.name) (hargs : r.args = t.dump a) (hresult : (PyJson.ofJson r.result).storable = true) :
    Fits s ctx { tool := name, args := .ofJson (t.dump a), evidenceId := some r.id, summary := some r.summary,
                 attempts := got.attempts, fetchedAt := some got.fetchedAt } (some r) ↔
      Loggable s name (.ofJson (t.dump a)) none ∧ (s.postgres = true →
        (PyJson.ofJson r.summary).storable = true ∧ takesText (PyStr.ofString r.source) = true) := by
  have hev : takesEvidence r = true ↔ takesText name = true ∧ (PyJson.ofJson (t.dump a)).storable = true ∧
      (PyJson.ofJson r.summary).storable = true ∧ takesText (PyStr.ofString r.source) = true := by
    simp only [takesEvidence, htool, hargs, ht, hresult, Bool.and_true, Bool.and_eq_true, and_assoc]
  simp only [Fits, Loggable, takesRow, ToolRegistry.row, Option.map_none, Option.all_none, Option.all_some,
    Bool.and_true, Bool.and_eq_true, hev, reduceCtorEq, false_imp_iff, implies_true, and_true]
  constructor
  · rintro ⟨hfin, h⟩
    exact ⟨⟨hfin, fun hpg => (h hpg).1⟩, fun hpg => (h hpg).2.2.2⟩
  · rintro ⟨⟨hfin, hlog⟩, h⟩
    exact ⟨hfin, fun hpg => ⟨hlog hpg, (hlog hpg).1, (hlog hpg).2, h hpg⟩⟩

theorem exists_some {B C : Type} {b : B} {c : C} {P : B → C → Prop} :
    (∃ x y, some (b, c) = some (x, y) ∧ P x y) ↔ P b c := by
  constructor
  · rintro ⟨x, y, h, hp⟩
    obtain ⟨rfl, rfl⟩ := Prod.mk.inj (Option.some.inj h)
    exact hp
  · exact fun hp => ⟨b, c, rfl, hp⟩

theorem not_exists_none {B C : Type} {P : B → C → Prop} : ¬ ∃ x y, (none : Option (B × C)) = some (x, y) ∧ P x y := by
  rintro ⟨_, _, h, -⟩
  cases h

/-- The call returns exactly if what it meets is what it has a handler for. -/
theorem call_returns_iff : Returns reg repr sha256 s fetch name rawArgs ctx ↔
    Answerable reg repr s fetch name rawArgs ctx := by
  rw [returns_iff]
  unfold ToolRegistry.outcome Answerable
  cases ht : reg.tool? name with
  | none => exact exists_some.trans fits_error
  | some t =>
    have hfound := List.find?_some
      (show reg.tools.reverse.find? (fun t => PyStr.ofString t.name = name) = some t from ht)
    have hname : PyStr.ofString t.name = name := of_decide_eq_true hfound
    simp only
    cases hv : t.validate rawArgs with
    | error problems => exact exists_some.trans fits_error
    | ok a =>
      simp only
      cases hf : fetch ⟨ctx.agent, t.name, t.dump a⟩ with
      | error e =>
        cases e with
        | tool e => exact exists_some.trans fits_error
        | other => exact iff_of_false not_exists_none id
      | ok got =>
        have hplain := PyJson.isSome_plain? (withoutNul got.raw)
        simp only [ToolRegistry.evidence]
        cases hp : (withoutNul got.raw).plain? with
        | none =>
          rw [hp, Option.isSome_none] at hplain
          refine iff_of_false not_exists_none fun h => ?_
          rw [h.1, h.2.1] at hplain
          cases hplain
        | some raw =>
          rw [hp, Option.isSome_some, eq_comm, Bool.and_eq_true] at hplain
          simp only [hplain, Option.some.injEq, forall_eq', true_and]
          split_ifs
          · exact exists_some.trans fits_error
          · cases hs : t.summarize raw a with
            | error e =>
              cases e with
              | shape e => exact exists_some.trans fits_error
              | tool e => exact exists_some.trans fits_error
              | other => exact iff_of_false not_exists_none id
            | ok summary =>
              cases summary with
              | unserializable => exact iff_of_false not_exists_none id
              | json ms => exact exists_some.trans (fits_ok hname rfl rfl (storable_result hp))

/-! A log line that is half of an emoji. -/

namespace Sample

def logsSearch : Tool Unit where
  name := "logs_search"
  backend := "loki"
  validate := fun _ => .ok ()
  dump := fun _ => .obj [("service", .str "payment")]
  summarize := fun _ _ => .ok (.json [("total_lines", .num 1)])

/-- The line is `\ud83d` in the text of the answer. -/
def cutEmoji : PyJson := .obj [(PyStr.ofString "result", .arr [.obj [(PyStr.ofString "values",
  .arr [.arr [.str (PyStr.ofString "1700000000000000000"), .str [0xD83D]]])]])]

def answer : Fetched where
  raw := cutEmoji
  fetchedAt := ⟨2026, 9, 3, 14, 0, 0, 0, by decide, by decide⟩
  attempts := 1
  source := "live"

end Sample

/-- The answer has no UTF-8, and nothing handles that: no outcome, no row, no evidence. -/
theorem call_raises :
    ¬ ∀ (A : Type) (reg : ToolRegistry A) (repr : PyStr → String) (sha256 : String → String) (s : Store)
    (fetch : Call → Except SourceRaises Fetched) (name : PyStr) (rawArgs : List (PyStr × PyJson)) (ctx : ToolContext),
    Returns reg repr sha256 s fetch name rawArgs ctx := by
  intro h
  have h := h Unit { tools := [Sample.logsSearch] } (fun _ => "") id { postgres := true }
    (fun _ => .ok Sample.answer) (PyStr.ofString "logs_search")
      [(PyStr.ofString "service", .str (PyStr.ofString "payment"))] { tenantId := "demo" }
  obtain ⟨o, s', h, -⟩ := h
  have hnone : ToolRegistry.call { tools := [Sample.logsSearch] } (fun _ => "") id { postgres := true }
      (fun _ => .ok Sample.answer) (PyStr.ofString "logs_search")
        [(PyStr.ofString "service", .str (PyStr.ofString "payment"))] { tenantId := "demo" } =
      none := by rfl
  rw [hnone] at h
  cases h

end Blackboard.Tools.Calls

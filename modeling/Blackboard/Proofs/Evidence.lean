import Blackboard.Proofs.ReadBack
import Blackboard.Proofs.Shown
import Blackboard.Spec.Args

/-! An evidence row checked against its own hash and id, from what the database gives back of the
result and of the arguments. No argument is a float, so the id always verifies once the hash does;
the hash does exactly if every float of the result comes back as one. -/

namespace Blackboard.Tools

namespace EvidenceRecord

/-- The row with the values of its two `jsonb` columns as they are read. -/
def readBack (r : EvidenceRecord) (result args : Json) : EvidenceRecord := { r with result, args }

/-- What is stored with the row is what its content gives. -/
def Verifies (sha256 : String → String) (scope : String) (row : EvidenceRecord) : Prop :=
  sha256 row.result.dumps = row.resultHash ∧ evidenceId sha256 scope row.tool row.args row.resultHash = row.id

end EvidenceRecord

theorem evidenceId_congr {sha256 : String → String} {scope tool hash : String} {args args' : Json}
    (h : args.canon = args'.canon) :
    evidenceId sha256 scope tool args hash = evidenceId sha256 scope tool args' hash := by
  simp only [evidenceId, key, Json.dumps, Json.canon, Json.canonAll, h]

namespace ToolRegistry

variable {A : Type} {reg : ToolRegistry A} {repr : Json → String} {sha256 : String → String}

theorem mem_of_tool? {name : String} {t : Tool A} (h : reg.tool? name = some t) : t ∈ reg.tools :=
  List.mem_reverse.mp (List.mem_of_find?_eq_some h)

theorem evidence_hash {t : Tool A} {a : A} {ctx : ToolContext} {got : Fetched} {r : EvidenceRecord}
    (h : reg.evidence sha256 t a ctx got = some (.ok r)) : r.resultHash = sha256 r.result.dumps := by
  unfold evidence at h
  dsimp only at h
  split_ifs at h
  · cases h
  · rcases hs : t.summarize (withoutNul got.raw) a with (_ | _ | _) | s <;> rw [hs] at h
    · cases h
    · cases h
    · cases h
    · obtain rfl := Except.ok.inj (Option.some.inj h)
      rfl

/-- A row verifies exactly if every float of its result is read back as that float. -/
theorem evidence_verifiable_iff {reg : ToolRegistry ToolArgs} {live : Call → Except ToolError Fetched} {name : String}
    {rawArgs result args : Json} {ctx : ToolContext} {o : ToolOutcome} {r : EvidenceRecord}
    (hsha : Function.Injective sha256) (hdump : ∀ t ∈ reg.tools, t.dump = ToolArgs.dump)
    (hcall : reg.call repr sha256 live name rawArgs ctx = some (o, some r))
    (hresult : r.result.ReadBack result) (hargs : r.args.ReadBack args) :
    (r.readBack result args).Verifies sha256 ctx.evidenceScope ↔ r.result.keepsNumbers = true := by
  obtain ⟨-, hlocal | ⟨t, a, ht, -, -, ⟨e, -, -, hnone⟩ | ⟨got, r', hrun, -, hr, -, -⟩⟩⟩ := call_cases hcall
  · rw [hlocal.anyway live] at hcall
    cases (Prod.mk.inj (Option.some.inj hcall)).2
  · cases hnone
  · obtain rfl := Option.some.inj hr
    have hev := evidence_of_run hrun
    obtain ⟨hres, -, hid, htool, ha, -⟩ := evidence_ok hev
    have hdistinct : r.result.Distinct := hres ▸ (clean_withoutNul got.raw).distinct
    have hback := Json.ReadBack.alike_iff r.result result hdistinct hresult
    -- whatever the tool, its arguments are read back as they are
    have hd : r.args = a.dump := by rw [ha, hdump t (mem_of_tool? ht)]
    have hargsBack : args.canon = r.args.canon :=
      (Json.ReadBack.alike_iff r.args args (hd ▸ a.distinct_dump) hargs).mpr (hd ▸ a.keepsNumbers_dump)
    simp only [EvidenceRecord.Verifies, EvidenceRecord.readBack]
    rw [evidenceId_congr hargsBack, hid, htool, ha, evidence_hash hev, hsha.eq_iff, Json.dumps_inj]
    exact (and_iff_left rfl).trans hback

/-! A flag whose variant is a number. -/

def rampFlag (variant : Json) : Json :=
  .obj [("flags", .obj [("ramp", .obj [("state", .str "ENABLED"), ("defaultVariant", .str "off"),
    ("variants", .obj [("off", variant)])])])]

def flagState : Tool ToolArgs where
  name := "flag_state"
  backend := "flagd"
  validate _ := .ok (.flagState {})
  dump := ToolArgs.dump
  summarize _ _ := .ok (.obj [("flags", .num 1), ("on", .arr []), ("note", .str "every flag is at its default (off)")])
  distinct := ToolArgs.distinct_dump

def flagRegistry : ToolRegistry ToolArgs := { tools := [flagState] }

def flagFetched (x : Double) : Fetched :=
  { raw := rampFlag (.float x), fetchedAt := sampleTime, attempts := 1, source := "live" }

def flagHash : String := "f5e49c716a8a6e17df9ab75d36546b204a8935a09050e58c68f1820f7223eda7"

/-- The flags with 0.5 and the key of that evidence, with their digests. -/
def flagSha : String → String :=
  Digest.ofKnown [((rampFlag (.float AuditLog.half)).dumps, flagHash),
    (key [.str "acme/inc-1", .str "flag_state", .obj [("flag", .null)], .str flagHash],
      "93ca4e8af495b711940060aa79499144167bd7cbbe2464b4dda4932a8dbbdf8d")]

theorem flagSha_injective : Function.Injective flagSha := Digest.Proper.injective ⟨by decide, by decide⟩

theorem withoutNul_rampFlag (x : Double) : withoutNul (rampFlag (.float x)) = rampFlag (.float x) :=
  withoutNul_of_clean _ (by simp [rampFlag, Clean, CleanMembers])

theorem readBack_rampFlag {x : Double} {w : Json} (h : Json.storedNumber (Numeral.ofDouble x) = some w) :
    (rampFlag (.float x)).ReadBack (rampFlag w) := by
  have hvariants : (Json.obj [("off", .float x)]).ReadBack (.obj [("off", w)]) := Json.readBack_obj ⟨rfl, h, trivial⟩
  have hramp : (Json.obj [("state", .str "ENABLED"), ("defaultVariant", .str "off"),
    ("variants", .obj [("off", .float x)])]).ReadBack
      (.obj [("state", .str "ENABLED"), ("defaultVariant", .str "off"), ("variants", .obj [("off", w)])]) :=
    Json.readBack_obj ⟨rfl, rfl, rfl, rfl, rfl, hvariants, trivial⟩
  exact Json.readBack_obj ⟨rfl, Json.readBack_obj ⟨rfl, hramp, trivial⟩, trivial⟩

theorem readBack_flagArgs : (ToolArgs.flagState {}).dump.ReadBack (ToolArgs.flagState {}).dump :=
  @Json.readBack_obj _ (ToolArgs.flagState {}).members ⟨rfl, rfl, trivial⟩

def flagOutcome (r : EvidenceRecord) : ToolOutcome :=
  { tool := "flag_state", args := (ToolArgs.flagState {}).dump, evidenceId := some r.id, summary := some r.summary,
    fetchedAt := some sampleTime }

/-- The call for the flags, and the row it stores. -/
theorem flag_call {x : Double} (hsize : (rampFlag (.float x)).dumps.utf8ByteSize ≤ 4000000) :
    ∃ r, flagRegistry.call (fun _ => "\x7b\x7d") flagSha (fun _ => .ok (flagFetched x)) "flag_state" (.obj [])
          sampleContext = some (flagOutcome r, some r) ∧
        r.result = rampFlag (.float x) ∧ r.args = (ToolArgs.flagState {}).dump ∧
        r.resultHash = flagSha r.result.dumps := by
  have hraw : withoutNul (flagFetched x).raw = rampFlag (.float x) := withoutNul_rampFlag x
  obtain ⟨r, hr⟩ : ∃ r, flagRegistry.evidence flagSha flagState (.flagState {}) sampleContext (flagFetched x) =
      some (.ok r) :=
    Exists.imp (fun _ h => And.left h) (evidence_of (t := flagState) (flagFetched x) (hraw ▸ hsize) rfl)
  obtain ⟨hres, -, -, -, hargs, -⟩ := evidence_ok hr
  have ht : flagRegistry.tool? "flag_state" = some flagState := rfl
  have hv : flagState.validate (.obj []) = .ok (.flagState {}) := rfl
  refine ⟨r, ?_, hres.trans hraw, hargs, evidence_hash hr⟩
  rw [call, ht]
  simp only [hv]
  rw [run_answer rfl, hr]
  rfl

theorem evidence_verifiable_half :
    ∃ o r, flagRegistry.call (fun _ => "\x7b\x7d") flagSha (fun _ => .ok (flagFetched AuditLog.half)) "flag_state"
          (.obj []) sampleContext = some (o, some r) ∧
        (r.readBack (rampFlag (.float AuditLog.half)) r.args).Verifies flagSha sampleContext.evidenceScope := by
  obtain ⟨r, hcall, hresult, hargs, -⟩ := flag_call (x := AuditLog.half) (by decide +kernel)
  have hback : r.result.ReadBack (rampFlag (.float AuditLog.half)) :=
    hresult ▸ readBack_rampFlag AuditLog.storedNumber_half
  have hargsBack : r.args.ReadBack r.args := hargs ▸ readBack_flagArgs
  refine ⟨_, r, hcall, (evidence_verifiable_iff flagSha_injective (fun t ht => ?_) hcall hback hargsBack).mpr ?_⟩
  · rw [List.mem_singleton.mp ht]
    rfl
  · rw [hresult]
    decide +kernel

/-- A variant of 1e16 is read back as an integer, and the row does not verify. -/
theorem evidence_unverifiable :
    Function.Injective flagSha ∧ ∃ o r,
      flagRegistry.call (fun _ => "\x7b\x7d") flagSha (fun _ => .ok (flagFetched AuditLog.tenPow16)) "flag_state"
          (.obj []) sampleContext = some (o, some r) ∧
        r.result.ReadBack (rampFlag (.num (10 ^ 16))) ∧ r.args.ReadBack r.args ∧
        ¬ (r.readBack (rampFlag (.num (10 ^ 16))) r.args).Verifies flagSha sampleContext.evidenceScope := by
  obtain ⟨r, hcall, hresult, hargs, hhash⟩ := flag_call (x := AuditLog.tenPow16) (by decide +kernel)
  have hback : r.result.ReadBack (rampFlag (.num (10 ^ 16))) :=
    hresult ▸ readBack_rampFlag AuditLog.storedNumber_tenPow16
  refine ⟨flagSha_injective, _, r, hcall, hback, hargs ▸ readBack_flagArgs, fun hv => ?_⟩
  have hsame : (rampFlag (.num (10 ^ 16))).Alike (rampFlag (.float AuditLog.tenPow16)) := by
    rw [← Json.dumps_inj, ← hresult]
    exact flagSha_injective (hv.1.trans hhash)
  simp [Json.Alike, rampFlag, Json.canon, Json.canonMembers] at hsame

end ToolRegistry

end Blackboard.Tools

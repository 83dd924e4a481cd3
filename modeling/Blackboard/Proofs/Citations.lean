import Blackboard.Spec.Investigation

/-! The citation check. What it keeps cites evidence that exists, that was shown, and that is not
from the knowledge base alone. -/

namespace Blackboard.Agents

/-- The ids of each item that makes a claim. -/
def Diagnosis.items (d : Diagnosis) : List (List String) :=
  d.rootCauses.map (fun r => r.evidenceIds.1) ++ d.facts.map (fun c => c.evidenceIds.1) ++
    d.inferences.map fun c => c.evidenceIds.1

/-- What an item cites: rows of the incident that may be cited, one at least a live result. -/
structure Supported (incidentId : ℕ) (evidence : List EvidenceRow) (may : String → Prop) (ids : List String) :
    Prop where
  cites : ids ≠ []
  rows : ∀ id ∈ ids, (∃ r ∈ evidence, r.id = id ∧ r.incidentId = some incidentId) ∧ may id
  live : ∃ id ∈ ids, ∃ r ∈ evidence, r.id = id ∧ r.incidentId = some incidentId ∧ r.tool ∉ KNOWLEDGE_TOOLS

theorem Supported.mono {incidentId : ℕ} {evidence evidence' : List EvidenceRow} {may may' : String → Prop}
    {ids : List String} (h : Supported incidentId evidence may ids) (he : ∀ r ∈ evidence, r ∈ evidence')
    (hm : ∀ id, may id → may' id) :
    Supported incidentId evidence' may' ids := by
  refine ⟨h.cites, fun id hid => ?_, ?_⟩
  · obtain ⟨⟨r, hr, hx⟩, hmay⟩ := h.rows id hid
    exact ⟨⟨r, he r hr, hx⟩, hm id hmay⟩
  · obtain ⟨id, hid, r, hr, hx⟩ := h.live
    exact ⟨id, hid, r, he r hr, hx⟩

theorem keepGood_mem {α : Type} {items : List α} {problems : ℕ → α → List String} {x : α}
    (h : x ∈ (keepGood items problems).1) : ∃ i, problems i x = [] := by
  simp only [keepGood, List.mem_map, List.mem_filter, List.isEmpty_iff] at h
  obtain ⟨y, ⟨-, hy⟩, rfl⟩ := h
  exact ⟨y.2, hy⟩

theorem mem_evidenceTools {incidentId : ℕ} {evidence : List EvidenceRow} {ids : List String} {id tool : String}
    (h : (evidenceTools incidentId evidence ids).lookup id = some tool) :
    ∃ r ∈ evidence, r.id = id ∧ r.incidentId = some incidentId ∧ r.tool = tool := by
  have hmem : (id, tool) ∈ evidenceTools incidentId evidence ids := by
    obtain ⟨k₁, k₂, k₃, hk⟩ := List.lookup_eq_some_iff.mp h
    rw [k₃]
    simp
  simp only [evidenceTools, List.mem_map, List.mem_filter, Bool.and_eq_true, decide_eq_true_eq, Prod.mk.injEq] at hmem
  obtain ⟨r, ⟨hr, hi, -⟩, rfl, rfl⟩ := hmem
  exact ⟨r, hr, rfl, hi, rfl⟩

/-- An item without a problem is supported. -/
theorem supported_of_itemProblems {incidentId : ℕ} {evidence : List EvidenceRow} {cited ids shown : List String}
    {name : String} {i : ℕ} (hne : ids ≠ [])
    (h : itemProblems ids name i (evidenceTools incidentId evidence cited) shown true = []) :
    Supported incidentId evidence (· ∈ shown) ids := by
  obtain ⟨hids, hlive⟩ := List.append_eq_nil_iff.mp h
  have hall : ∀ id ∈ ids, (∃ tool, (evidenceTools incidentId evidence cited).lookup id = some tool) ∧ id ∈ shown := by
    intro id hid
    have := List.filterMap_eq_nil_iff.mp hids id hid
    split_ifs at this with h1 h2
    rw [Option.isNone_iff_eq_none, ← ne_eq, Option.ne_none_iff_exists'] at h1
    exact ⟨h1, h2⟩
  refine ⟨hne, fun id hid => ?_, ?_⟩
  · obtain ⟨⟨tool, ht⟩, hs⟩ := hall id hid
    obtain ⟨r, hr, hrid, hinc, -⟩ := mem_evidenceTools ht
    exact ⟨⟨r, hr, hrid, hinc⟩, hs⟩
  · have htools : ∀ {id tool}, id ∈ ids → (evidenceTools incidentId evidence cited).lookup id = some tool →
        tool ∈ toolsOf ids (evidenceTools incidentId evidence cited) := by
      intro id tool hid ht
      exact List.mem_dedup.mpr (List.mem_filterMap.mpr ⟨id, hid, ht⟩)
    obtain ⟨first, hfirst⟩ := List.exists_mem_of_ne_nil ids hne
    obtain ⟨⟨tool, ht⟩, -⟩ := hall first hfirst
    split_ifs at hlive with hkb
    have hnot : ¬ (toolsOf ids (evidenceTools incidentId evidence cited)).all KNOWLEDGE_TOOLS.contains =
        true := fun ha =>
      hkb ⟨rfl, List.ne_nil_of_mem (htools hfirst ht), ha⟩
    rw [List.all_eq_true] at hnot
    push Not at hnot
    obtain ⟨t, hmem, hk⟩ := hnot
    obtain ⟨id, hid, hlook⟩ := List.mem_filterMap.mp (List.mem_dedup.mp hmem)
    obtain ⟨r, hr, hrid, hinc, rfl⟩ := mem_evidenceTools hlook
    exact ⟨id, hid, r, hr, hrid, hinc, by simpa using hk⟩

theorem keep_supported {α : Type} {items : List α} {idsOf : α → List String} {name : String} {incidentId : ℕ}
    {evidence : List EvidenceRow} {cited shown : List String} (hne : ∀ x, idsOf x ≠ []) {ids : List String}
    (h : ids ∈ (keep items idsOf name (evidenceTools incidentId evidence cited) shown true).1.map idsOf) :
    Supported incidentId evidence (· ∈ shown) ids := by
  obtain ⟨x, hx, rfl⟩ := List.mem_map.mp h
  obtain ⟨i, hi⟩ := keepGood_mem hx
  exact supported_of_itemProblems (hne x) hi

theorem EvidenceIds.ne_nil {n : ℕ} (ids : EvidenceIds 1 n) : ids.1 ≠ [] :=
  List.ne_nil_of_length_pos ids.2.1

/-- Whatever the model answered, what is kept of its diagnosis is supported. -/
theorem checkDiagnosis_supported (d : Diagnosis) {incidentId : ℕ} {evidence : List EvidenceRow}
    {cited shown : List String} :
    ∀ ids ∈ (checkDiagnosis d (evidenceTools incidentId evidence cited) shown).value.items,
      Supported incidentId evidence (· ∈ shown) ids := by
  intro ids h
  simp only [Diagnosis.items, checkDiagnosis, List.mem_append] at h
  rcases h with (h | h) | h
  · exact keep_supported (fun r => r.evidenceIds.ne_nil) h
  · exact keep_supported (fun c => c.evidenceIds.ne_nil) h
  · exact keep_supported (fun c => c.evidenceIds.ne_nil) h

/-! The rules, apart from the branches of the code. `known` is from evidence id to tool. -/

section Rules

variable (known : List (String × String)) (shown : List String)

/-- Every cited id is known and was shown. -/
def Cites (ids : List String) : Prop := ∀ id ∈ ids, (known.lookup id).isSome ∧ id ∈ shown

/-- One of them at least is a result of such a tool. -/
def CitesOne (p : String → Prop) (ids : List String) : Prop := ∃ id ∈ ids, ∃ tool ∈ known.lookup id, p tool

instance (ids : List String) : Decidable (Cites known shown ids) :=
  inferInstanceAs (Decidable (∀ id ∈ ids, (known.lookup id).isSome ∧ id ∈ shown))

instance (p : String → Prop) [DecidablePred p] (ids : List String) : Decidable (CitesOne known p ids) :=
  inferInstanceAs (Decidable (∃ id ∈ ids, ∃ tool ∈ known.lookup id, p tool))

/-- Not from the knowledge base. -/
def Live (tool : String) : Prop := tool ∉ KNOWLEDGE_TOOLS

instance : DecidablePred Live := fun tool => inferInstanceAs (Decidable (tool ∉ KNOWLEDGE_TOOLS))

/-- A fact or an inference cites something, and something live; these, and whatever cites something
live, cite a tool of the signal. -/
def Finding.Allowed (f : Finding) : Prop :=
  Cites known shown f.evidenceIds.1 ∧
    (f.kind ≠ .hypothesis → f.evidenceIds.1 ≠ [] ∧ CitesOne known Live f.evidenceIds.1) ∧
    (f.kind ≠ .hypothesis ∨ CitesOne known Live f.evidenceIds.1 →
      CitesOne known (· ∈ SIGNAL_TOOLS f.signal) f.evidenceIds.1)

instance : DecidablePred (Finding.Allowed known shown) := fun f =>
  inferInstanceAs (Decidable (Cites known shown f.evidenceIds.1 ∧
    (f.kind ≠ .hypothesis → f.evidenceIds.1 ≠ [] ∧ CitesOne known Live f.evidenceIds.1) ∧
    (f.kind ≠ .hypothesis ∨ CitesOne known Live f.evidenceIds.1 →
      CitesOne known (· ∈ SIGNAL_TOOLS f.signal) f.evidenceIds.1)))

/-- A root cause, fact or inference of a diagnosis. -/
def ClaimAllowed (ids : List String) : Prop := Cites known shown ids ∧ CitesOne known Live ids

instance : DecidablePred (ClaimAllowed known shown) := fun ids =>
  inferInstanceAs (Decidable (Cites known shown ids ∧ CitesOne known Live ids))

def InvestigatorReport.allowed (r : InvestigatorReport) : InvestigatorReport :=
  { r with findings := r.findings.filter (Finding.Allowed known shown),
           bounded := (List.length_filter_le ..).trans r.bounded }

def Diagnosis.allowed (d : Diagnosis) : Diagnosis :=
  { d with
    rootCauses := d.rootCauses.filter (ClaimAllowed known shown ·.evidenceIds.1)
    facts := d.facts.filter (ClaimAllowed known shown ·.evidenceIds.1)
    inferences := d.inferences.filter (ClaimAllowed known shown ·.evidenceIds.1)
    bounded := ⟨(List.length_filter_le ..).trans d.bounded.1, (List.length_filter_le ..).trans d.bounded.2.1,
      (List.length_filter_le ..).trans d.bounded.2.2.1, d.bounded.2.2.2⟩ }

/-- An action of a plan needs no more than ids that are known and shown. -/
def planAllowed (p : RemediationPlan) : RemediationPlan :=
  { p with actions := p.actions.filter (Cites known shown ·.evidenceIds) }

end Rules

/-- What is kept is what is allowed; a second check finds nothing in it; and nothing is found at
first exactly if everything is kept. -/
structure ExactCheck {α : Type} (check : α → Checked α) (allowed : α → α) (v : α) : Prop where
  kept : (check v).value = allowed v
  again : (check (check v).value).problems = [] ∧ (check (check v).value).dropped = 0 ∧
    (check (check v).value).value = (check v).value
  clean : (check v).problems = [] ↔ (check v).value = v

theorem ExactCheck.of {α : Type} {check : α → Checked α} {allowed : α → α} (hkept : ∀ v, (check v).value = allowed v)
    (htwice : ∀ v, allowed (allowed v) = allowed v) (hclean : ∀ v, (check v).problems = [] ↔ allowed v = v)
    (hdropped : ∀ v, allowed v = v → (check v).dropped = 0) (v : α) : ExactCheck check allowed v where
  kept := hkept v
  again := by
    rw [hkept v]
    exact ⟨(hclean _).mpr (htwice v), hdropped _ (htwice v), (hkept _).trans (htwice v)⟩
  clean := by rw [hclean, hkept]

/-! The branches of the code against the rules. -/

theorem keepGood_zipIdx {α : Type} {problems : ℕ → α → List String} {p : α → Prop} [DecidablePred p]
    (h : ∀ i x, problems i x = [] ↔ p x) (items : List α) (n : ℕ) :
    ((items.zipIdx n).filter fun x => (problems x.2 x.1).isEmpty).map Prod.fst = items.filter p := by
  induction items generalizing n with
  | nil => rfl
  | cons x items ih =>
    rw [List.zipIdx_cons, List.filter_cons, List.filter_cons, ← ih (n + 1)]
    by_cases hx : p x
    · rw [if_pos (List.isEmpty_iff.mpr ((h n x).mpr hx)), if_pos (decide_eq_true hx), List.map_cons]
    · rw [if_neg (fun he => hx ((h n x).mp (List.isEmpty_iff.mp he))), if_neg (by simpa using hx)]

theorem problems_zipIdx {α : Type} {problems : ℕ → α → List String} {p : α → Prop} (h : ∀ i x, problems i x = [] ↔ p x)
    (items : List α) (n : ℕ) : ((items.zipIdx n).flatMap fun x => problems x.2 x.1) = [] ↔ ∀ x ∈ items, p x := by
  induction items generalizing n with
  | nil => simp
  | cons x items ih => rw [List.zipIdx_cons, List.flatMap_cons, List.append_eq_nil_iff, h, ih, List.forall_mem_cons]

theorem keepGood_filter {α : Type} {problems : ℕ → α → List String} {p : α → Prop} [DecidablePred p]
    (h : ∀ i x, problems i x = [] ↔ p x) (items : List α) : (keepGood items problems).1 = items.filter p :=
  keepGood_zipIdx h items 0

theorem keepGood_clean {α : Type} {problems : ℕ → α → List String} {p : α → Prop} [DecidablePred p]
    (h : ∀ i x, problems i x = [] ↔ p x) (items : List α) :
    (keepGood items problems).2 = [] ↔ items.filter p = items := by
  rw [keepGood, problems_zipIdx h, List.filter_eq_self]
  simp only [decide_eq_true_eq]

theorem idProblems_nil {known : List (String × String)} {shown ids : List String} {place : String} :
    idProblems ids known shown place = [] ↔ Cites known shown ids := by
  rw [idProblems, List.filterMap_eq_nil_iff]
  refine forall₂_congr fun ev _ => ?_
  rw [← Option.not_isNone, Bool.not_eq_true', ← Bool.not_eq_true]
  by_cases hk : (known.lookup ev).isNone
  · rw [if_pos hk]
    exact iff_of_false (by simp) fun h => h.1 hk
  · rw [if_neg hk]
    by_cases hs : ev ∈ shown
    · rw [if_neg (not_not_intro hs)]
      exact iff_of_true rfl ⟨hk, hs⟩
    · rw [if_pos hs]
      exact iff_of_false (by simp) fun h => hs h.2

theorem mem_toolsOf {known : List (String × String)} {ids : List String} {tool : String} :
    tool ∈ toolsOf ids known ↔ ∃ id ∈ ids, tool ∈ known.lookup id := by
  simp only [toolsOf, List.mem_dedup, List.mem_filterMap, Option.mem_def]

theorem citesOne_iff {known : List (String × String)} {ids : List String} {p : String → Prop} :
    CitesOne known p ids ↔ ∃ tool ∈ toolsOf ids known, p tool := by
  simp only [CitesOne, mem_toolsOf]
  constructor
  · rintro ⟨id, hid, tool, ht, hp⟩
    exact ⟨tool, ⟨id, hid, ht⟩, hp⟩
  · rintro ⟨tool, ⟨id, hid, ht⟩, hp⟩
    exact ⟨id, hid, tool, ht, hp⟩

theorem toolsOf_ne_nil {known : List (String × String)} {shown ids : List String} (hc : Cites known shown ids)
    (hne : ids ≠ []) : toolsOf ids known ≠ [] := by
  obtain ⟨id, hid⟩ := List.exists_mem_of_ne_nil ids hne
  obtain ⟨tool, ht⟩ := Option.isSome_iff_exists.mp (hc id hid).1
  exact List.ne_nil_of_mem (mem_toolsOf.mpr ⟨id, hid, ht⟩)

theorem itemProblems_plain {known : List (String × String)} {shown ids : List String} {name : String} {i : ℕ} :
    itemProblems ids name i known shown false = [] ↔ Cites known shown ids := by
  simp [itemProblems, idProblems_nil]

theorem itemProblems_live {known : List (String × String)} {shown ids : List String} {name : String} {i : ℕ}
    (hne : ids ≠ []) : itemProblems ids name i known shown true = [] ↔ ClaimAllowed known shown ids := by
  rw [itemProblems, List.append_eq_nil_iff, idProblems_nil, ClaimAllowed]
  refine and_congr_right fun hc => ?_
  have htools := toolsOf_ne_nil hc hne
  rw [ite_eq_right_iff, citesOne_iff]
  simp [htools, Live]

theorem findingProblems_nil {known : List (String × String)} {shown : List String} (f : Finding) {place : String} :
    findingProblems f place known shown = [] ↔ f.Allowed known shown := by
  have hlive : (toolsOf f.evidenceIds.1 known).filter (fun t => !KNOWLEDGE_TOOLS.contains t) = [] ↔
      ¬ CitesOne known Live f.evidenceIds.1 := by
    rw [citesOne_iff, List.filter_eq_nil_iff]
    simp [Live]
  have hsignal : (((toolsOf f.evidenceIds.1 known).filter fun t => !KNOWLEDGE_TOOLS.contains t).any
      (SIGNAL_TOOLS f.signal).contains) = true ↔ CitesOne known (· ∈ SIGNAL_TOOLS f.signal) f.evidenceIds.1 := by
    rw [citesOne_iff, List.any_eq_true]
    constructor
    · rintro ⟨t, ht, hs⟩
      exact ⟨t, List.mem_of_mem_filter ht, List.contains_iff_mem.mp hs⟩
    · rintro ⟨t, ht, hs⟩
      -- no tool of a signal is a knowledge base
      have hkb : t ∉ KNOWLEDGE_TOOLS := by
        intro hk
        obtain rfl := List.mem_singleton.mp hk
        revert hs
        cases f.signal <;> decide
      exact ⟨t, List.mem_filter.mpr ⟨ht, by simpa using hkb⟩, List.contains_iff_mem.mpr hs⟩
  unfold findingProblems
  dsimp only
  rw [List.append_eq_nil_iff, List.append_eq_nil_iff, idProblems_nil, Finding.Allowed, and_assoc]
  refine and_congr_right fun hc => ?_
  have htools : f.evidenceIds.1 ≠ [] → toolsOf f.evidenceIds.1 known ≠ [] := toolsOf_ne_nil hc
  by_cases hk : f.kind = .hypothesis
  · simp only [hk, ne_eq, not_true_eq_false, false_and, if_false, false_implies, false_or, true_and, hlive,
      hsignal, not_not]
    by_cases hl : CitesOne known Live f.evidenceIds.1 <;> simp [hl]
  · by_cases hn : f.evidenceIds.1 = []
    · simp [hk, hn]
    · have ht := htools hn
      by_cases hl : CitesOne known Live f.evidenceIds.1
      · simp only [hk, hn, ht, hl, hlive, hsignal, ne_eq, not_false_eq_true, not_true_eq_false, and_false,
          true_and, if_false]
        simp
      · simp only [hk, hn, ht, hl, hlive, ne_eq, not_false_eq_true, and_self, if_true]
        simp

theorem InvestigatorReport.eq_allowed {known : List (String × String)} {shown : List String} {r : InvestigatorReport} :
    r.allowed known shown = r ↔ r.findings.filter (Finding.Allowed known shown) = r.findings :=
  ⟨fun h => congrArg InvestigatorReport.findings h, fun h => by
    obtain ⟨summary, findings, bounded⟩ := r
    simp only [allowed, mk.injEq, true_and]
    exact h⟩

theorem Diagnosis.eq_allowed {known : List (String × String)} {shown : List String} {d : Diagnosis} :
    d.allowed known shown = d ↔ d.rootCauses.filter (ClaimAllowed known shown ·.evidenceIds.1) = d.rootCauses ∧
      d.facts.filter (ClaimAllowed known shown ·.evidenceIds.1) = d.facts ∧
      d.inferences.filter (ClaimAllowed known shown ·.evidenceIds.1) = d.inferences := by
  obtain ⟨summary, rootCauses, facts, inferences, hypotheses, bounded⟩ := d
  simp only [allowed, mk.injEq, true_and, and_true]

theorem planAllowed_eq {known : List (String × String)} {shown : List String} {p : RemediationPlan} :
    planAllowed known shown p = p ↔ p.actions.filter (Cites known shown ·.evidenceIds) = p.actions := by
  obtain ⟨summary, actions, alternatives, noActionReason⟩ := p
  simp only [planAllowed, RemediationPlan.mk.injEq, true_and, and_true]

theorem filter_filter_self {α : Type} (p : α → Bool) (l : List α) : (l.filter p).filter p = l.filter p :=
  List.filter_eq_self.mpr fun _ h => List.of_mem_filter h

theorem checkReport_exact (known : List (String × String)) (shown : List String) (r : InvestigatorReport) :
    ExactCheck (checkReport · known shown) (InvestigatorReport.allowed known shown) r := by
  have hkept : ∀ r : InvestigatorReport,
      (keepGood r.findings fun i f => findingProblems f (placeOf "findings" i) known shown).1 =
        r.findings.filter (Finding.Allowed known shown) := fun r => keepGood_filter (fun i f => findingProblems_nil f) _
  have hclean : ∀ r : InvestigatorReport,
      (keepGood r.findings fun i f => findingProblems f (placeOf "findings" i) known shown).2 = [] ↔
        r.findings.filter (Finding.Allowed known shown) = r.findings := fun r =>
    keepGood_clean (fun i f => findingProblems_nil f) _
  refine ExactCheck.of (fun r => ?_) (fun r => ?_) (fun r => ?_) (fun r h => ?_) r
  · simp only [checkReport, InvestigatorReport.allowed, hkept r]
  · exact InvestigatorReport.eq_allowed.mpr (filter_filter_self _ _)
  · simp only [checkReport, hclean r, InvestigatorReport.eq_allowed]
  · have h' := InvestigatorReport.eq_allowed.mp h
    simp only [checkReport, hkept r, h', Nat.sub_self]

/-- The three lists of a diagnosis are checked alike. -/
theorem keep_claims {α : Type} (items : List α) (ids : α → List String) (hids : ∀ x, ids x ≠ []) (name : String)
    (known : List (String × String)) (shown : List String) :
    (keep items ids name known shown true).1 = items.filter (ClaimAllowed known shown <| ids ·) ∧
    ((keep items ids name known shown true).2 = [] ↔ items.filter (ClaimAllowed known shown <| ids ·) = items) :=
  ⟨keepGood_filter (p := fun x => ClaimAllowed known shown (ids x)) (fun _ x => itemProblems_live (hids x)) items,
    keepGood_clean (p := fun x => ClaimAllowed known shown (ids x)) (fun _ x => itemProblems_live (hids x)) items⟩

theorem keep_actions {α : Type} (items : List α) (ids : α → List String) (name : String)
    (known : List (String × String)) (shown : List String) :
    (keep items ids name known shown false).1 = items.filter (Cites known shown <| ids ·) ∧
    ((keep items ids name known shown false).2 = [] ↔ items.filter (Cites known shown <| ids ·) = items) := by
  have h : ∀ i x, itemProblems (ids x) name i known shown false = [] ↔ Cites known shown (ids x) := fun _ _ =>
    itemProblems_plain
  exact ⟨keepGood_filter h items, keepGood_clean h items⟩

theorem checkDiagnosis_exact (known : List (String × String)) (shown : List String) (d : Diagnosis) :
    ExactCheck (checkDiagnosis · known shown) (Diagnosis.allowed known shown) d := by
  have hroot := fun d : Diagnosis => keep_claims d.rootCauses (fun r => r.evidenceIds.1) (fun r => r.evidenceIds.ne_nil)
    "root_causes" known shown
  have hfact := fun d : Diagnosis => keep_claims d.facts (fun c => c.evidenceIds.1) (fun c => c.evidenceIds.ne_nil)
    "facts" known shown
  have hinf := fun d : Diagnosis => keep_claims d.inferences (fun c => c.evidenceIds.1) (fun c => c.evidenceIds.ne_nil)
    "inferences" known shown
  refine ExactCheck.of (fun d => ?_) (fun d => ?_) (fun d => ?_) (fun d h => ?_) d
  · simp only [checkDiagnosis, Diagnosis.allowed, (hroot d).1, (hfact d).1, (hinf d).1]
  · exact Diagnosis.eq_allowed.mpr ⟨filter_filter_self _ _, filter_filter_self _ _, filter_filter_self _ _⟩
  · simp only [checkDiagnosis, List.append_eq_nil_iff, (hroot d).2, (hfact d).2, (hinf d).2,
      Diagnosis.eq_allowed, and_assoc]
  · obtain ⟨h1, h2, h3⟩ := Diagnosis.eq_allowed.mp h
    simp only [checkDiagnosis, (hroot d).1, (hfact d).1, (hinf d).1, h1, h2, h3, Nat.sub_self]

theorem checkPlan_exact (known : List (String × String)) (shown : List String) (p : RemediationPlan) :
    ExactCheck (checkPlan · known shown) (planAllowed known shown) p := by
  have hkept := fun p : RemediationPlan => keep_actions p.actions Action.evidenceIds "actions" known shown
  refine ExactCheck.of (fun p => ?_) (fun p => ?_) (fun p => ?_) (fun p h => ?_) p
  · simp only [checkPlan, planAllowed, (hkept p).1]
  · exact planAllowed_eq.mpr (filter_filter_self _ _)
  · simp only [checkPlan, (hkept p).2, planAllowed_eq]
  · have h' := planAllowed_eq.mp h
    simp only [checkPlan, (hkept p).1, h', Nat.sub_self]

/-- The check enforces its rules: it keeps what satisfies them, in order, and drops the rest. -/
theorem citation_check_exact (known : List (String × String)) (shown : List String) :
    (∀ r, ExactCheck (checkReport · known shown) (InvestigatorReport.allowed known shown) r) ∧
    (∀ d, ExactCheck (checkDiagnosis · known shown) (Diagnosis.allowed known shown) d) ∧
    ∀ p, ExactCheck (checkPlan · known shown) (planAllowed known shown) p :=
  ⟨checkReport_exact known shown, checkDiagnosis_exact known shown, checkPlan_exact known shown⟩

end Blackboard.Agents

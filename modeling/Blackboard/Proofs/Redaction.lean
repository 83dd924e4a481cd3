import Blackboard.Proofs.KnowledgeBase
import Blackboard.Proofs.Packing

/-! Secrets in what an ingest stores. Contents are redacted, and a redacted text has no match left; a
title, a heading and a label are stored as they are. -/

namespace Blackboard.Kb

/-- `_SECRET.search(text)` -/
def Leaks (text : List Char) : Prop := Regex.finditer SECRET text ≠ []

instance (text : List Char) : Decidable (Leaks text) := inferInstanceAs (Decidable (_ ≠ _))

/-- What the tables hold of a document's title, headings and body. -/
def strings {V : Type} (e : Values × List (Piece V)) : List String :=
  e.1.title :: e.2.flatMap fun p => p.sections ++ [p.searchHeader, p.content]

/-- No secret in the title, nor in a heading as it is or in the label made of it. -/
def Discreet (doc : Document) : Prop :=
  ¬ Leaks doc.title.toList ∧
    ∀ s ∈ sections doc.body.toList, ¬ Leaks s.1 ∧ ¬ Leaks (slug s.1) ∧ ¬ Leaks doc.id.toList

instance (doc : Document) : Decidable (Discreet doc) := instDecidableAnd

/-! The pattern. -/

def secretChar (c : Char) : Prop := keyChar c = true ∨ c = '.'

theorem plain_secret : Regex.Plain SECRET := by
  simp [SECRET, Regex.Plain, Regex.literal, Regex.atLeast, Regex.times, Regex.plus]

theorem consumes_secret : Regex.Consumes SECRET :=
  Regex.Needs.consumes (p := fun _ => True) ⟨.inl (.inl fun _ _ => trivial), .inl (.inl fun _ _ => trivial),
    .inl (.inl fun _ _ => trivial)⟩

theorem over_secret : Regex.Over secretChar SECRET := by
  have hkey : Regex.Over secretChar (.char keyChar) := fun c hc => .inl hc
  have hupper : Regex.Over secretChar (.char fun c => c.isDigit || c.isUpper) := by
    intro c hc
    refine .inl ?_
    rcases Bool.or_eq_true _ _ ▸ hc with hc | hc <;>
      simp [keyChar, wordChar, Char.isAlphanum, show c.isAlpha = (c.isUpper || c.isLower) from rfl, hc]
  have hplain : ∀ s : String, s.toList.all (fun c => keyChar c || c = '.') = true →
      Regex.Over secretChar (Regex.literal s) := by
    intro s hs
    refine Regex.over_literal fun c hc => ?_
    simpa [secretChar] using List.all_eq_true.mp hs c hc
  exact ⟨⟨hplain _ (by decide), Regex.over_atLeast hkey 8⟩,
    ⟨hplain _ (by decide), Regex.over_atLeast hkey 20, hplain _ (by decide), Regex.over_plus hkey⟩,
    hplain _ (by decide), Regex.over_times hupper 16⟩

theorem leaks_iff (text : List Char) : Leaks text ↔ Regex.Contains SECRET text := by
  rw [Leaks, ne_eq, Regex.finditer_eq_nil_iff consumes_secret, not_not]

/-- A character that no secret has keeps two texts apart. -/
theorem leaks_append_cons {c : Char} (hc : ¬ secretChar c) (x y : List Char) :
    Leaks (x ++ c :: y) ↔ Leaks x ∨ Leaks y := by
  simp only [leaks_iff]
  exact Regex.contains_append_cons plain_secret over_secret hc

theorem leaks_intercalate {c : Char} (hc : ¬ secretChar c) (ls : List (List Char)) :
    Leaks ([c].intercalate ls) ↔ ∃ l ∈ ls, Leaks l := by
  simp only [leaks_iff]
  exact Regex.contains_intercalate plain_secret consumes_secret over_secret hc ls

/-- No secret is left in a redacted text, and none is made. -/
theorem not_leaks_redact (text : List Char) : ¬ Leaks (redact text) := by
  have hmid : ¬ Regex.Contains SECRET "REDACTED".toList := by
    rw [← leaks_iff]
    decide +kernel
  rw [leaks_iff, redact]
  exact Regex.not_contains_sub plain_secret consumes_secret over_secret (x := '[') (y := ']')
    (by unfold secretChar; decide) (by unfold secretChar; decide) hmid text

/-! The rows. -/

theorem exists_group_heading {doc : Document} {params : ChunkParams} {groups : List (List (List Char × ℕ × List Char))}
    (hflat : groups.flatten = pieces doc params) (h : List Char) :
    (∃ g ∈ groups, h ∈ headingsOf g) ↔ ∃ s ∈ sections doc.body.toList, s.1 = h := by
  constructor
  · rintro ⟨g, hg, hin⟩
    obtain ⟨p, hp, rfl⟩ := mem_headingsOf.mp hin
    have hmem : p ∈ pieces doc params := hflat ▸ List.mem_flatten.mpr ⟨g, hg, hp⟩
    obtain ⟨s, hs, hin⟩ := List.mem_flatMap.mp hmem
    obtain ⟨q, -, rfl⟩ := List.mem_map.mp hin
    exact ⟨s, hs, rfl⟩
  · rintro ⟨s, hs, rfl⟩
    obtain ⟨p, ps, hps⟩ := List.exists_cons_of_ne_nil (split_ne_nil s.2 params)
    have hmem : (s.1, 0, p) ∈ pieces doc params := by
      refine List.mem_flatMap.mpr ⟨s, hs, List.mem_map.mpr ⟨(p, 0), ?_, rfl⟩⟩
      rw [hps]
      exact List.mem_cons_self
    rw [← hflat] at hmem
    obtain ⟨g, hg, hin⟩ := List.mem_flatten.mp hmem
    exact ⟨g, hg, mem_headingsOf.mpr ⟨_, hin, rfl⟩⟩

/-- The columns of a chunk's row that come from the text. -/
def columns (doc : Document) (c : Chunk) : List String :=
  c.sections ++ [doc.title ++ " " ++ String.intercalate " " c.headings, c.content]

theorem columns_clean {doc : Document} {c : Chunk} {g : List (List Char × ℕ × List Char)}
    (hheadings : c.headings = (headingsOf g).map String.ofList)
    (hsections : c.sections = (headingsOf g).map fun h => doc.id ++ "#" ++ String.ofList (slug h))
    (hcontent : c.content = String.ofList (redact (packedText g))) :
    (∀ s ∈ columns doc c, ¬ Leaks s.toList) ↔
      (∀ h ∈ headingsOf g, ¬ Leaks doc.id.toList ∧ ¬ Leaks (slug h)) ∧ ¬ Leaks doc.title.toList ∧
        ∀ h ∈ headingsOf g, ¬ Leaks h := by
  have hlabel : ∀ h, Leaks (doc.id ++ "#" ++ String.ofList (slug h)).toList ↔ Leaks doc.id.toList ∨ Leaks (slug h) := by
    intro h
    simp only [String.toList_append, String.toList_ofList, List.append_assoc]
    exact leaks_append_cons (by unfold secretChar; decide) _ _
  have hheader : Leaks (doc.title ++ " " ++ String.intercalate " " c.headings).toList ↔
      Leaks doc.title.toList ∨ ∃ h ∈ headingsOf g, Leaks h := by
    rw [hheadings]
    simp only [String.toList_append, String.toList_intercalate, List.append_assoc, List.map_map]
    rw [show " ".toList = [' '] from rfl, List.singleton_append, leaks_append_cons (by unfold secretChar; decide),
      leaks_intercalate (by unfold secretChar; decide)]
    simp
  have hredacted : ¬ Leaks c.content.toList := by
    rw [hcontent, String.toList_ofList]
    exact not_leaks_redact _
  simp only [columns, List.forall_mem_append, List.forall_mem_cons, hheader, hredacted, hsections,
    List.forall_mem_map, hlabel, not_or, not_exists, not_and]
  simp

theorem mem_zipWith {α β γ : Type} {f : α → β → γ} {as : List α} : ∀ {bs : List β}, as.length = bs.length →
    ∀ {P : γ → Prop} {Q : α → Prop}, (∀ a b, P (f a b) ↔ Q a) →
    ((∀ c ∈ List.zipWith f as bs, P c) ↔ ∀ a ∈ as, Q a) := by
  induction as with
  | nil => simp
  | cons a as ih =>
    intro bs hlen P Q hPQ
    rcases bs with _ | ⟨b, bs⟩
    · cases hlen
    · rw [List.zipWith_cons_cons, List.forall_mem_cons, List.forall_mem_cons, hPQ, ih (Nat.succ.inj hlen) hPQ]

variable {V : Type} {env : Env V} {call : Call V}

/-- What an ingest writes for a document has no secret if and only if the document is discreet. -/
theorem entry_clean {doc : Document} {e : Values × List (Piece V)} (h : call.entry env doc = some e) :
    (∀ s ∈ strings e, ¬ Leaks s.toList) ↔ Discreet doc := by
  obtain ⟨ps, hps, rfl⟩ := Option.map_eq_some_iff.mp h
  rw [Call.pieces] at hps
  split_ifs at hps with hlen
  obtain rfl := Option.some.inj hps
  obtain ⟨groups, hflat, hchunk⟩ := chunk_groups doc call.chunking
  have hcolumns : (∀ p ∈ List.zipWith (piece doc) (chunk doc call.chunking) (call.vectors doc),
      ∀ s ∈ p.sections ++ [p.searchHeader, p.content], ¬ Leaks s.toList) ↔
        ∀ c ∈ chunk doc call.chunking, ∀ s ∈ columns doc c, ¬ Leaks s.toList :=
    mem_zipWith hlen fun _ _ => Iff.rfl
  have hgroups : (∀ c ∈ chunk doc call.chunking, ∀ s ∈ columns doc c, ¬ Leaks s.toList) ↔
      ∀ g ∈ groups, (∀ h ∈ headingsOf g, ¬ Leaks doc.id.toList ∧ ¬ Leaks (slug h)) ∧ ¬ Leaks doc.title.toList ∧
        ∀ h ∈ headingsOf g, ¬ Leaks h := by
    rw [hchunk, List.forall_mem_map]
    have hfst : groups.zipIdx.map Prod.fst = groups := List.zipIdx_map_fst 0 groups
    conv_rhs => rw [← hfst, List.forall_mem_map]
    exact forall₂_congr fun x _ => columns_clean rfl rfl rfl
  have hheading := exists_group_heading hflat
  rw [strings, List.forall_mem_cons, List.forall_mem_flatMap, hcolumns, hgroups, Discreet]
  refine and_congr_right fun htitle => ⟨fun hall s hs => ?_,
    fun hall g hg => ⟨fun h hin => ?_, htitle, fun h hin => ?_⟩⟩
  · obtain ⟨g, hg, hin⟩ := (hheading s.1).mpr ⟨s, hs, rfl⟩
    obtain ⟨hlabels, -, hclean⟩ := hall g hg
    exact ⟨hclean _ hin, (hlabels _ hin).2, (hlabels _ hin).1⟩
  · obtain ⟨s, hs, rfl⟩ := (hheading h).mp ⟨g, hg, hin⟩
    exact ⟨(hall s hs).2.2, (hall s hs).2.1⟩
  · obtain ⟨s, hs, rfl⟩ := (hheading h).mp ⟨g, hg, hin⟩
    exact (hall s hs).1

/-- Whatever ingests came before, the tables hold of each document what one of them wrote, and that has
no secret if and only if the document is discreet. -/
theorem stored_clean_iff {calls : List (Call V)} {tenant docId : String} {e : Values × List (Piece V)}
    (h : (ingests env calls).entry tenant docId = some e) :
    ∃ call ∈ calls, ∃ doc ∈ call.docs, doc.id = docId ∧ call.entry env doc = some e ∧
      ((∀ s ∈ strings e, ¬ Leaks s.toList) ↔ Discreet doc) := by
  have hwf : Wf env calls (ingests env calls) := ingests_wf calls
  obtain ⟨r, hr, -, rfl, rfl⟩ := hwf.entry_eq_some.mp h
  obtain ⟨call, hcall, doc, hdoc, hid, hentry⟩ := hwf.written r hr
  exact ⟨call, hcall, doc, hdoc, hid, hentry, entry_clean hentry⟩

def keysCall (body : String) : Call Unit where
  tenantId := "lab"
  docs := [{ id := "RB-KEYS", kind := "runbook", title := "Keys", services := ["gateway"], version := "1", body }]
  embedder := { name := "hash", documents := fun texts => texts.map fun _ => () }
  distinct := List.nodup_singleton _

/-- The label of "Disk pressure" looks like a key. -/
theorem stored_clean_disk :
    ∃ e, (ingests plainEnv [keysCall "## Disk pressure\nFree some."]).entry "lab" "RB-KEYS" = some e ∧
    ∃ call ∈ [keysCall "## Disk pressure\nFree some."], ∃ doc ∈ call.docs, doc.id = "RB-KEYS" ∧
      call.entry plainEnv doc = some e ∧ ((∀ s ∈ strings e, ¬ Leaks s.toList) ↔ Discreet doc) := by
  have hsome : ((ingests plainEnv [keysCall "## Disk pressure\nFree some."]).entry "lab" "RB-KEYS").isSome = true := by
    decide +kernel
  obtain ⟨e, he⟩ := Option.isSome_iff_exists.mp hsome
  exact ⟨e, he, stored_clean_iff he⟩

/-- A key in a heading, which goes into the header as it is. -/
theorem stored_heading_leaks : ¬ ∀ (calls : List (Call Unit)) (tenant docId : String) (e : Values × List (Piece Unit)),
    (ingests plainEnv calls).entry tenant docId = some e → ∀ s ∈ strings e, ¬ Leaks s.toList := by
  intro h
  have hleaks : ((ingests plainEnv [keysCall "## Rotate sk-abcdefgh1234\nOld key."]).entry "lab" "RB-KEYS").any
      (fun e => (strings e).any fun s => Leaks s.toList) = true := by decide +kernel
  rcases he : (ingests plainEnv [keysCall "## Rotate sk-abcdefgh1234\nOld key."]).entry "lab" "RB-KEYS" with _ | e
  · rw [he] at hleaks
    cases hleaks
  · rw [he] at hleaks
    obtain ⟨s, hs, hleak⟩ := List.any_eq_true.mp hleaks
    exact h _ _ _ e he s hs (of_decide_eq_true hleak)

end Blackboard.Kb

import Blackboard.Lib.Digest
import Blackboard.Spec.KnowledgeBase
import Blackboard.Proofs.Chunking

/-! An ingest against a rebuild. The tables are read as one entry for each document; storing a document
sets its entry and no other, and every entry is what some ingest wrote. What a pruning ingest leaves is
then what a fresh one would, but for the documents it skips. -/

namespace Blackboard.Kb

variable {V : Type} {env : Env V} {calls : List (Call V)} {call : Call V} {t t1 : Tables V}

/-! The tables as a map. -/

def Tables.piecesOf (t : Tables V) (i : ℕ) : List (Piece V) := (t.chunks.filter fun c => c.documentId = i).map (·.piece)

/-- What the tables hold of a document. -/
def Tables.entry (t : Tables V) (tenant docId : String) : Option (Values × List (Piece V)) :=
  (t.find tenant docId).map fun r => (r.values, t.piecesOf r.id)

/-- What an ingest writes of it. -/
def Call.entry (env : Env V) (call : Call V) (doc : Document) : Option (Values × List (Piece V)) :=
  (call.pieces doc).map fun ps => (call.values env doc, ps)

/-- The constraints of the tables, and that every document is as one of the ingests wrote it. -/
structure Wf (env : Env V) (calls : List (Call V)) (t : Tables V) : Prop where
  ids : (t.documents.map (·.id)).Nodup
  bound : ∀ r ∈ t.documents, r.id < t.nextId
  keys : ∀ r ∈ t.documents, ∀ s ∈ t.documents, r.tenantId = s.tenantId → r.docId = s.docId → r = s
  owned : ∀ c ∈ t.chunks, ∃ r ∈ t.documents, r.id = c.documentId ∧ r.tenantId = c.tenantId
  distinct : ∀ tenant, ((t.chunks.filter fun c => c.tenantId = tenant).map (·.piece.chunkId)).Nodup
  written : ∀ r ∈ t.documents, ∃ call ∈ calls, ∃ doc ∈ call.docs, doc.id = r.docId ∧
    call.entry env doc = some (r.values, t.piecesOf r.id)

theorem Wf.empty : Wf env calls ({} : Tables V) where
  ids := List.nodup_nil
  bound := by simp
  keys := by simp
  owned := by simp
  distinct := by simp
  written := by simp

theorem Wf.mono {calls' : List (Call V)} (h : Wf env calls t) (hc : ∀ c ∈ calls, c ∈ calls') : Wf env calls' t :=
  { h with
    written := fun r hr => by
      obtain ⟨c, hmem, hw⟩ := h.written r hr
      exact ⟨c, hc c hmem, hw⟩ }

theorem Wf.eq_of_id (h : Wf env calls t) {r s : DocumentRow} (hr : r ∈ t.documents) (hs : s ∈ t.documents)
    (he : r.id = s.id) : r = s := List.inj_on_of_nodup_map h.ids hr hs he

theorem Wf.find_eq_some (h : Wf env calls t) {tenant docId : String} {r : DocumentRow} :
    t.find tenant docId = some r ↔ r ∈ t.documents ∧ r.tenantId = tenant ∧ r.docId = docId := by
  constructor
  · intro hf
    have hp := List.find?_some hf
    exact ⟨List.mem_of_find?_eq_some hf, of_decide_eq_true hp⟩
  · rintro ⟨hr, ht, hd⟩
    cases hf : t.find tenant docId with
    | none =>
      have hn := List.find?_eq_none.mp hf r hr
      exact absurd (decide_eq_true ⟨ht, hd⟩) hn
    | some s =>
      have hp := List.find?_some hf
      have hp := of_decide_eq_true hp
      exact congrArg some (h.keys s (List.mem_of_find?_eq_some hf) r hr (hp.1.trans ht.symm) (hp.2.trans hd.symm))

theorem Wf.entry_eq_some (h : Wf env calls t) {tenant docId : String} {e : Values × List (Piece V)} :
    t.entry tenant docId = some e ↔
      ∃ r ∈ t.documents, r.tenantId = tenant ∧ r.docId = docId ∧ e = (r.values, t.piecesOf r.id) := by
  constructor
  · intro he
    obtain ⟨r, hr, rfl⟩ := Option.map_eq_some_iff.mp he
    obtain ⟨hm, ht, hd⟩ := h.find_eq_some.mp hr
    exact ⟨r, hm, ht, hd, rfl⟩
  · rintro ⟨r, hm, ht, hd, rfl⟩
    exact Option.map_eq_some_iff.mpr ⟨r, h.find_eq_some.mpr ⟨hm, ht, hd⟩, rfl⟩

/-! Writing the row of a document. -/

/-- The tables with a row in place of the document's own, and its chunks gone. -/
structure Placed (t t1 : Tables V) (row : DocumentRow) : Prop where
  mem : ∀ r, r ∈ t1.documents ↔ r = row ∨ (r ∈ t.documents ∧ ¬ (r.tenantId = row.tenantId ∧ r.docId = row.docId))
  ids : (t1.documents.map (·.id)).Nodup
  bound : ∀ r ∈ t1.documents, r.id < t1.nextId
  same : ∀ r ∈ t.documents, r.tenantId = row.tenantId → r.docId = row.docId → r.id = row.id
  chunks : t1.chunks = t.chunks.filter fun c => c.documentId ≠ row.id

theorem Wf.updateDocument (h : Wf env calls t) {tenant docId : String} {row : DocumentRow}
    (hf : t.find tenant docId = some row) (values : Values) :
    ∃ t1, (t.updateDocument tenant docId values).map (fun x => (x.1, x.2.deleteChunks x.1)) = some (row.id, t1) ∧
      Placed t t1 ⟨row.id, tenant, docId, values⟩ := by
  obtain ⟨hrow, rfl, rfl⟩ := h.find_eq_some.mp hf
  refine ⟨_, by rw [Tables.updateDocument, hf]; rfl, ?_⟩
  have hids : ((t.documents.map fun r => if r.tenantId = row.tenantId ∧
    r.docId = row.docId then { r with values } else r).map
      (·.id)) = t.documents.map (·.id) := by
    rw [List.map_map]
    refine List.map_congr_left fun r _ => ?_
    simp only [Function.comp_apply]
    split_ifs <;> rfl
  constructor
  · intro r
    simp only [Tables.deleteChunks, List.mem_map]
    constructor
    · rintro ⟨s, hs, rfl⟩
      split_ifs with hk
      · obtain rfl := h.keys s hs row hrow hk.1 hk.2
        exact Or.inl rfl
      · exact Or.inr ⟨hs, hk⟩
    · rintro (rfl | ⟨hr, hk⟩)
      · exact ⟨row, hrow, by simp⟩
      · exact ⟨r, hr, by rw [if_neg hk]⟩
  · exact hids ▸ h.ids
  · intro r hr
    obtain ⟨s, hs, rfl⟩ := List.mem_map.mp hr
    split_ifs
    · exact h.bound s hs
    · exact h.bound s hs
  · intro r hr ht hd
    rw [h.keys r hr row hrow ht hd]
  · rfl

theorem Wf.insertDocument (h : Wf env calls t) {tenant docId : String} (hf : t.find tenant docId = none)
    (values : Values) :
    ∃ t1, t.insertDocument tenant docId values = some (t.nextId, t1) ∧
    Placed t t1 ⟨t.nextId, tenant, docId, values⟩ := by
  refine ⟨_, by rw [Tables.insertDocument, hf], ?_⟩
  have hnone : ∀ r ∈ t.documents, ¬ (r.tenantId = tenant ∧ r.docId = docId) := fun r hr hk =>
    List.find?_eq_none.mp hf r hr (decide_eq_true hk)
  constructor
  · intro r
    simp only [List.mem_append, List.mem_singleton]
    constructor
    · rintro (hr | rfl)
      · exact Or.inr ⟨hr, hnone r hr⟩
      · exact Or.inl rfl
    · rintro (rfl | ⟨hr, -⟩)
      · exact Or.inr rfl
      · exact Or.inl hr
  · rw [List.map_append, List.nodup_append]
    refine ⟨h.ids, List.nodup_singleton _, ?_⟩
    intro a ha b hb
    obtain ⟨r, hr, rfl⟩ := List.mem_map.mp ha
    rw [List.map_singleton, List.mem_singleton] at hb
    rw [hb]
    exact Nat.ne_of_lt (h.bound r hr)
  · intro r hr
    rcases List.mem_append.mp hr with hr | hr
    · exact Nat.lt_succ_of_lt (h.bound r hr)
    · rw [List.mem_singleton.mp hr]
      exact Nat.lt_succ_self _
  · intro r hr ht hd
    exact absurd ⟨ht, hd⟩ (hnone r hr)
  · refine (List.filter_eq_self.mpr fun c hc => ?_).symm
    obtain ⟨r, hr, he, -⟩ := h.owned c hc
    refine decide_eq_true fun hc => ?_
    exact Nat.ne_of_lt (h.bound r hr) (he.trans hc)

theorem Wf.place (h : Wf env calls t) (e : Env V) (call : Call V) (doc : Document) :
    ∃ i t1, place e call (t.find call.tenantId doc.id).isSome t doc = some (i, t1) ∧
      Placed t t1 ⟨i, call.tenantId, doc.id, call.values e doc⟩ := by
  cases hf : t.find call.tenantId doc.id with
  | none =>
    obtain ⟨t1, h1, h2⟩ := h.insertDocument hf (call.values e doc)
    exact ⟨_, t1, h1, h2⟩
  | some row =>
    obtain ⟨t1, h1, h2⟩ := h.updateDocument hf (call.values e doc)
    exact ⟨_, t1, h1, h2⟩

/-- An ingest can store the document: it has text, a vector comes for each chunk, and the database takes it. -/
structure Storable (env : Env V) (call : Call V) (doc : Document) : Prop where
  visible : Lines.isBlank doc.body.toList = false
  embedded : (chunk doc call.chunking).length = (call.vectors doc).length
  taken : ∀ ps, call.pieces doc = some ps → env.refuses call.tenantId doc.id (call.values env doc) ps = false

theorem chunkIds_zipWith (doc : Document) {cs : List Chunk} : ∀ {vs : List V}, cs.length = vs.length →
    (List.zipWith (piece doc) cs vs).map (·.chunkId) = cs.map (·.chunkId) := by
  induction cs with
  | nil => intro vs _; rfl
  | cons c cs ih =>
    intro vs h
    cases vs with
    | nil => cases h
    | cons v vs => exact congrArg (c.chunkId :: ·) (ih (Nat.succ.inj h))

theorem pieces_chunkIds {doc : Document} {ps : List (Piece V)} (h : call.pieces doc = some ps) :
    ps.map (·.chunkId) = (chunk doc call.chunking).map (·.chunkId) := by
  unfold Call.pieces at h
  split_ifs at h with hlen
  rw [← Option.some.inj h]
  exact chunkIds_zipWith doc hlen

theorem storable_iff {doc : Document} : Storable env call doc ↔
    ∃ ps, call.pieces doc = some ps ∧ ps ≠ [] ∧ env.refuses call.tenantId doc.id (call.values env doc) ps = false := by
  have hnil : ∀ {ps}, call.pieces doc = some ps → (ps = [] ↔ Lines.isBlank doc.body.toList = true) := by
    intro ps h
    rw [← chunk_eq_nil (p := call.chunking), ← List.map_eq_nil_iff (f := fun p : Piece V => p.chunkId),
      pieces_chunkIds h, List.map_eq_nil_iff]
  constructor
  · rintro ⟨hv, he, ht⟩
    obtain ⟨ps, hps⟩ : ∃ ps, call.pieces doc = some ps := ⟨_, by rw [Call.pieces, if_pos he]⟩
    refine ⟨ps, hps, fun hn => ?_, ht ps hps⟩
    rw [(hnil hps).mp hn] at hv
    cases hv
  · rintro ⟨ps, hps, hne, ht⟩
    refine ⟨?_, ?_, fun qs hqs => ?_⟩
    · rw [← Bool.not_eq_true, ← hnil hps]
      exact hne
    · by_contra hlen
      rw [Call.pieces, if_neg hlen] at hps
      cases hps
    · cases hps.symm.trans hqs
      exact ht

theorem piecesOf_added {i : ℕ} {tenant : String} {ps : List (Piece V)}
    (hc : t1.chunks = t.chunks.filter fun c => c.documentId ≠ i) (j : ℕ) :
    Tables.piecesOf { t1 with chunks := t1.chunks ++ ps.map fun p => ⟨tenant, i, p⟩ } j =
      if j = i then ps else t.piecesOf j := by
  simp only [Tables.piecesOf, List.filter_append, List.map_append, hc, List.filter_filter, List.filter_map,
    List.map_map]
  split_ifs with hj
  · subst hj
    have h1 : (t.chunks.filter fun c => decide (c.documentId = j) && decide (c.documentId ≠ j)) = [] :=
      List.filter_eq_nil_iff.mpr fun c _ => by simp
    rw [h1]
    simp [Function.comp_def]
  · have h1 : (t.chunks.filter fun c => decide (c.documentId = j) && decide (c.documentId ≠ i)) =
        t.chunks.filter fun c => c.documentId = j := by
      refine List.filter_congr fun c _ => ?_
      by_cases hcj : c.documentId = j
      · simp [hcj, hj]
      · simp [hcj]
    rw [h1]
    simp [Function.comp_def, Ne.symm hj]

/-- The owner of a chunk has the chunk's id in front of its own number. -/
theorem Wf.chunkId_of_mem (h : Wf env calls t) {c : ChunkRow V} (hc : c ∈ t.chunks) :
    ∃ r ∈ t.documents, r.id = c.documentId ∧ r.tenantId = c.tenantId ∧ ∃ k :
    Chunk, k.docId = r.docId ∧ k.chunkId = c.piece.chunkId := by
  obtain ⟨r, hr, hid, hten⟩ := h.owned c hc
  obtain ⟨call, -, doc, -, hdoc, hw⟩ := h.written r hr
  obtain ⟨ps, hps, he⟩ := Option.map_eq_some_iff.mp hw
  have hmem : c.piece ∈ ps := by
    rw [(Prod.mk.inj he).2]
    exact List.mem_map_of_mem (List.mem_filter.mpr ⟨hc, decide_eq_true hid.symm⟩)
  have hk := List.mem_map_of_mem (f := fun p : Piece V => p.chunkId) hmem
  rw [pieces_chunkIds hps] at hk
  obtain ⟨k, hk, heq⟩ := List.mem_map.mp hk
  exact ⟨r, hr, hid, hten, k, (docId_of_mem_chunk hk).trans hdoc, heq⟩

theorem Wf.nodup_added (h : Wf env calls t) {row : DocumentRow} (hp : Placed t t1 row) {doc : Document}
    {ps : List (Piece V)} (hdoc : row.docId = doc.id) (hps : call.pieces doc = some ps) :
    ((t1.chunks.filter fun c => c.tenantId = row.tenantId).map (·.piece.chunkId) ++ ps.map (·.chunkId)).Nodup := by
  refine List.nodup_append.mpr ⟨?_, ?_, ?_⟩
  · rw [hp.chunks]
    exact (h.distinct row.tenantId).sublist ((List.filter_sublist.filter _).map _)
  · rw [pieces_chunkIds hps]
    exact nodup_chunkIds doc _
  · rintro a ha b hb rfl
    obtain ⟨c, hc, rfl⟩ := List.mem_map.mp ha
    rw [pieces_chunkIds hps] at hb
    obtain ⟨k, hk, heq⟩ := List.mem_map.mp hb
    obtain ⟨hc, hten⟩ := List.mem_filter.mp hc
    rw [hp.chunks] at hc
    obtain ⟨hc, hne⟩ := List.mem_filter.mp hc
    obtain ⟨r, hr, hid, hrt, k', hk', heq'⟩ := h.chunkId_of_mem hc
    -- the owner would be the document itself, whose chunks are gone
    have hd : r.docId = row.docId := by
      rw [← hk', ← (chunkId_inj (heq.trans heq'.symm)).1, docId_of_mem_chunk hk, hdoc]
    exact of_decide_eq_true hne (hid ▸ hp.same r hr (hrt.trans (of_decide_eq_true hten)) hd)

theorem Wf.added (h : Wf env calls t) (hcall : call ∈ calls) {doc : Document} (hdoc : doc ∈ call.docs) {i : ℕ}
    {ps : List (Piece V)} (hp : Placed t t1 ⟨i, call.tenantId, doc.id, call.values env doc⟩)
    (hps : call.pieces doc = some ps) :
    Wf env calls { t1 with chunks := t1.chunks ++ ps.map fun p => ⟨call.tenantId, i, p⟩ } where
  ids := hp.ids
  bound := hp.bound
  keys := by
    intro r hr s hs ht hd
    rcases (hp.mem r).mp hr with rfl | ⟨hr, hrk⟩ <;> rcases (hp.mem s).mp hs with rfl | ⟨hs, hsk⟩
    · rfl
    · exact absurd ⟨ht.symm, hd.symm⟩ hsk
    · exact absurd ⟨ht, hd⟩ hrk
    · exact h.keys r hr s hs ht hd
  owned := by
    intro c hc
    rcases List.mem_append.mp hc with hc | hc
    · rw [hp.chunks] at hc
      obtain ⟨hc, hne⟩ := List.mem_filter.mp hc
      obtain ⟨r, hr, hid, hten⟩ := h.owned c hc
      refine ⟨r, (hp.mem r).mpr (Or.inr ⟨hr, fun hk => ?_⟩), hid, hten⟩
      exact of_decide_eq_true hne (hid ▸ hp.same r hr hk.1 hk.2)
    · obtain ⟨p, -, rfl⟩ := List.mem_map.mp hc
      exact ⟨_, (hp.mem _).mpr (Or.inl rfl), rfl, rfl⟩
  distinct := by
    intro tenant
    rw [List.filter_append, List.map_append]
    by_cases ht : call.tenantId = tenant
    · subst ht
      have h1 := h.nodup_added hp rfl hps
      simpa [List.filter_map, Function.comp_def] using h1
    · have h1 : ((ps.map fun p => (⟨call.tenantId, i, p⟩ : ChunkRow V)).filter fun c => c.tenantId = tenant) = [] := by
        refine List.filter_eq_nil_iff.mpr fun c hc => ?_
        obtain ⟨p, -, rfl⟩ := List.mem_map.mp hc
        simpa using ht
      rw [h1, List.map_nil, List.append_nil, hp.chunks]
      exact (h.distinct tenant).sublist ((List.filter_sublist.filter _).map _)
  written := by
    intro r hr
    rw [piecesOf_added hp.chunks]
    rcases (hp.mem r).mp hr with rfl | ⟨hr', hk⟩
    · exact ⟨call, hcall, doc, hdoc, rfl, by rw [if_pos rfl, Call.entry, hps]; rfl⟩
    · rw [if_neg fun he => ?_]
      · exact h.written r hr'
      · have := List.inj_on_of_nodup_map hp.ids hr ((hp.mem _).mpr (Or.inl rfl)) he
        exact hk (this ▸ ⟨rfl, rfl⟩)

theorem Wf.isSome_entry (t : Tables V) (tenant docId : String) :
    (t.entry tenant docId).isSome = (t.find tenant docId).isSome := by
  rw [Tables.entry, Option.isSome_map]

/-- The tables after a document is stored. -/
structure Stored (env : Env V) (calls : List (Call V)) (call : Call V) (doc : Document) (t t' : Tables V) : Prop where
  wf : Wf env calls t'
  own : t'.entry call.tenantId doc.id = call.entry env doc
  other : ∀ tenant docId, ¬ (tenant = call.tenantId ∧ docId = doc.id) → t'.entry tenant docId = t.entry tenant docId

theorem Wf.store (h : Wf env calls t) (hcall : call ∈ calls) {doc : Document} (hdoc : doc ∈ call.docs)
    (hs : Storable env call doc) :
    ∃ t', store env call (t.find call.tenantId doc.id).isSome t doc = some t' ∧ Stored env calls call doc t t' := by
  obtain ⟨ps, hps, hne, htaken⟩ := storable_iff.mp hs
  obtain ⟨i, t1, hplace, hp⟩ := h.place env call doc
  have hwf := h.added hcall hdoc hp hps
  refine ⟨_, ?_, hwf, ?_, ?_⟩
  · have hfree := h.nodup_added hp rfl hps
    unfold Kb.store
    rw [hps, Option.bind_eq_bind, Option.bind_some, if_neg (by simp [htaken]), hplace]
    show t1.insertChunks call.tenantId i ps = _
    rw [Tables.insertChunks, if_neg (by simp [hne, hfree])]
  · refine (hwf.entry_eq_some.mpr ⟨_, (hp.mem _).mpr (Or.inl rfl), rfl, rfl, ?_⟩).trans (by rw [Call.entry, hps]; rfl)
    rw [piecesOf_added hp.chunks, if_pos rfl]
  · intro tenant docId hk
    refine Option.ext fun e => ?_
    rw [hwf.entry_eq_some, h.entry_eq_some]
    have hpieces : ∀ r ∈ t1.documents, r.docId = docId → r.tenantId = tenant →
        Tables.piecesOf { t1 with chunks := t1.chunks ++ ps.map fun p => ⟨call.tenantId, i, p⟩ } r.id =
        t.piecesOf r.id := by
      rintro r hr rfl rfl
      rw [piecesOf_added hp.chunks, if_neg fun he => ?_]
      have := List.inj_on_of_nodup_map hp.ids hr ((hp.mem _).mpr (Or.inl rfl)) he
      exact hk (this ▸ ⟨rfl, rfl⟩)
    constructor
    · rintro ⟨r, hr, ht, hd, rfl⟩
      rcases (hp.mem r).mp hr with rfl | ⟨hr', -⟩
      · exact absurd ⟨ht.symm, hd.symm⟩ hk
      · exact ⟨r, hr', ht, hd, by rw [hpieces r hr hd ht]⟩
    · rintro ⟨r, hr, ht, hd, rfl⟩
      have hr' : r ∈ t1.documents := (hp.mem r).mpr (Or.inr ⟨hr, fun hk' => hk ⟨ht ▸ hk'.1, hd ▸ hk'.2⟩⟩)
      exact ⟨r, hr', ht, hd, by rw [hpieces r hr' hd ht]⟩

theorem store_eq_none {known : Bool} {doc : Document} (hs : ¬ Storable env call doc) :
    store env call known t doc = none := by
  rw [storable_iff] at hs
  unfold Kb.store
  cases hps : call.pieces doc with
  | none => rfl
  | some ps =>
    rw [Option.bind_eq_bind, Option.bind_some]
    by_cases htaken : env.refuses call.tenantId doc.id (call.values env doc) ps = true
    · rw [if_pos htaken]
      rfl
    · rw [if_neg htaken]
      have hnil : ps = [] := by
        by_contra hne
        exact hs ⟨ps, hps, hne, by simpa using htaken⟩
      cases place env call known t doc with
      | none => rfl
      | some x =>
        show x.2.insertChunks call.tenantId x.1 ps = none
        rw [Tables.insertChunks, if_pos (Or.inl hnil)]

/-! The loop, and the pruning. -/

structure Looped (env : Env V) (calls : List (Call V)) (call : Call V)
    (stored : String → Option (String × String × String)) (docs : List Document) (t : Tables V)
    (r : Tables V × Option IngestReport) : Prop where
  wf : Wf env calls r.1
  done : r.2.isSome = true ↔ ∀ doc ∈ docs, Skipped env call stored doc ∨ Storable env call doc
  own : r.2.isSome = true → ∀ doc ∈ docs, r.1.entry call.tenantId doc.id =
    if Skipped env call stored doc then t.entry call.tenantId doc.id else call.entry env doc
  other : ∀ tenant docId, ¬ (tenant = call.tenantId ∧ docId ∈ docs.map (·.id)) →
    r.1.entry tenant docId = t.entry tenant docId

theorem Wf.ingestAll (hcall : call ∈ calls) {stored : String → Option (String × String × String)}
    (docs : List Document) :
    ∀ {t} report, Wf env calls t → (∀ doc ∈ docs, doc ∈ call.docs) → (docs.map (·.id)).Nodup →
      (∀ doc ∈ docs, (stored doc.id).isSome = (t.find call.tenantId doc.id).isSome) →
      Looped env calls call stored docs t (ingestAll env call stored t report docs) := by
  induction docs with
  | nil => exact fun _ h _ _ _ => ⟨h, by simp [Kb.ingestAll], by simp, by simp [Kb.ingestAll]⟩
  | cons doc docs ih =>
    intro t report h hsub hnd hst
    have hsub' : ∀ d ∈ docs, d ∈ call.docs := fun d hd => hsub d (List.mem_cons_of_mem doc hd)
    obtain ⟨hnew, hnd⟩ := List.nodup_cons.mp hnd
    have hne : ∀ d ∈ docs, d.id ≠ doc.id := fun d hd he =>
      hnew (List.mem_map.mpr ⟨d, hd, he⟩)
    rw [Kb.ingestAll]
    by_cases hskip : Skipped env call stored doc
    · rw [if_pos hskip]
      have hl := ih { report with unchanged := report.unchanged ++ [doc.id] } h hsub' hnd
        fun d hd => hst d (List.mem_cons_of_mem doc hd)
      refine ⟨hl.wf, ?_, ?_, ?_⟩
      · rw [hl.done, List.forall_mem_cons]
        exact ⟨fun hd => ⟨Or.inl hskip, hd⟩, fun hd => hd.2⟩
      · intro hsome d hd
        rcases List.mem_cons.mp hd with rfl | hd
        · rw [if_pos hskip, hl.other _ _ fun hk => hnew hk.2]
        · exact hl.own hsome d hd
      · exact fun tenant docId hk => hl.other tenant docId fun hk' => hk ⟨hk'.1, List.mem_cons_of_mem _ hk'.2⟩
    · rw [if_neg hskip, hst doc List.mem_cons_self]
      by_cases hs : Storable env call doc
      · obtain ⟨t', hstore, hsto⟩ := h.store hcall (hsub doc List.mem_cons_self) hs
        simp only [hstore]
        have hst' : ∀ d ∈ docs, (stored d.id).isSome = (t'.find call.tenantId d.id).isSome := by
          intro d hd
          rw [hst d (List.mem_cons_of_mem doc hd), ← Wf.isSome_entry, ← Wf.isSome_entry,
            hsto.other _ _ fun hk => hne d hd hk.2]
        have hl := fun report => ih report hsto.wf hsub' hnd hst'
        refine ⟨(hl _).wf, ?_, ?_, ?_⟩
        · rw [(hl _).done, List.forall_mem_cons]
          exact ⟨fun hd => ⟨Or.inr hs, hd⟩, fun hd => hd.2⟩
        · intro hsome d hd
          rcases List.mem_cons.mp hd with rfl | hd
          · rw [if_neg hskip, (hl _).other _ _ fun hk => hnew hk.2, hsto.own]
          · rw [(hl _).own hsome d hd, hsto.other _ _ fun hk => hne d hd hk.2]
        · intro tenant docId hk
          rw [(hl _).other tenant docId fun hk' => hk ⟨hk'.1, List.mem_cons_of_mem _ hk'.2⟩,
            hsto.other tenant docId fun hk' => hk ⟨hk'.1, hk'.2 ▸ List.mem_cons_self⟩]
      · simp only [store_eq_none hs]
        refine ⟨h, ?_, by simp, fun _ _ _ => rfl⟩
        simp only [Option.isSome_none, Bool.false_eq_true, false_iff]
        exact fun hd => (hd doc List.mem_cons_self).elim hskip hs

theorem Wf.deleteDocuments (h : Wf env calls t) (tenant : String) (docIds : List String) :
    Wf env calls (t.deleteDocuments tenant docIds) ∧
    ∀ tenant' docId, (t.deleteDocuments tenant docIds).entry tenant' docId =
      if tenant' = tenant ∧ docId ∈ docIds then none else t.entry tenant' docId := by
  have hmem : ∀ r, r ∈ (t.deleteDocuments tenant docIds).documents ↔ r ∈ t.documents ∧
      ¬ (r.tenantId = tenant ∧ r.docId ∈ docIds) := by
    intro r
    rw [Tables.deleteDocuments, List.mem_filter, decide_eq_true_iff]
  have hchunk : ∀ c ∈ (t.deleteDocuments tenant docIds).chunks, c ∈ t.chunks := fun c hc => (List.mem_filter.mp hc).1
  have hpieces : ∀ r ∈ (t.deleteDocuments tenant docIds).documents,
      (t.deleteDocuments tenant docIds).piecesOf r.id = t.piecesOf r.id := by
    intro r hr
    obtain ⟨hr, hk⟩ := (hmem r).mp hr
    simp only [Tables.piecesOf, Tables.deleteDocuments, List.filter_filter]
    refine congrArg (List.map _) (List.filter_congr fun c _ => ?_)
    by_cases hc : c.documentId = r.id
    · rw [hc, decide_eq_true rfl, Bool.true_and, decide_eq_true]
      intro hgone
      obtain ⟨s, hs, he⟩ := List.mem_map.mp hgone
      obtain ⟨hs, hsk⟩ := List.mem_filter.mp hs
      obtain rfl := h.eq_of_id hs hr he
      exact hk (of_decide_eq_true hsk)
    · rw [decide_eq_false hc, Bool.false_and]
  have hwf : Wf env calls (t.deleteDocuments tenant docIds) := by
    constructor
    · exact h.ids.sublist (List.filter_sublist.map _)
    · exact fun r hr => h.bound r ((hmem r).mp hr).1
    · exact fun r hr s hs => h.keys r ((hmem r).mp hr).1 s ((hmem s).mp hs).1
    · intro c hc
      obtain ⟨r, hr, hid, hten⟩ := h.owned c (hchunk c hc)
      refine ⟨r, (hmem r).mpr ⟨hr, fun hk => ?_⟩, hid, hten⟩
      refine of_decide_eq_true (List.mem_filter.mp hc).2 (List.mem_map.mpr ⟨r, ?_, hid⟩)
      exact List.mem_filter.mpr ⟨hr, decide_eq_true hk⟩
    · exact fun tenant => (h.distinct tenant).sublist ((List.filter_sublist.filter _).map _)
    · intro r hr
      rw [hpieces r hr]
      exact h.written r ((hmem r).mp hr).1
  refine ⟨hwf, fun tenant' docId => Option.ext fun e => ?_⟩
  rw [hwf.entry_eq_some]
  split_ifs with hk
  · simp only [iff_false]
    rintro ⟨r, hr, rfl, rfl, -⟩
    exact ((hmem r).mp hr).2 hk
  · rw [h.entry_eq_some]
    constructor
    · rintro ⟨r, hr, ht, hd, rfl⟩
      exact ⟨r, ((hmem r).mp hr).1, ht, hd, by rw [hpieces r hr]⟩
    · rintro ⟨r, hr, ht, hd, rfl⟩
      have hr' := (hmem r).mpr ⟨hr, ht ▸ hd ▸ hk⟩
      exact ⟨r, hr', ht, hd, by rw [hpieces r hr']⟩

/-! One ingest. -/

theorem skipped_iff {doc : Document} : Skipped env call (storedAs t call.tenantId) doc ↔
    ∃ row, t.find call.tenantId doc.id = some row ∧ row.values.contentHash = doc.contentHash env.sha256 ∧
      row.values.embedder = call.embedder.name ∧ row.values.chunking = call.chunking.name := by
  simp only [Skipped, storedAs, Option.map_eq_some_iff, Prod.mk.injEq]

theorem Wf.looped (h : Wf env calls t) (hcall : call ∈ calls) :
    Looped env calls call (storedAs t call.tenantId) call.docs t
      (Kb.ingestAll env call (storedAs t call.tenantId) t {} call.docs) :=
  Wf.ingestAll hcall call.docs {} h (fun _ hd => hd) call.distinct fun doc _ => by rw [storedAs, Option.isSome_map]

theorem Wf.ingest (h : Wf env calls t) (hcall : call ∈ calls) : Wf env calls (ingest env t call).1 := by
  have hl := h.looped hcall
  unfold Kb.ingest
  generalize Kb.ingestAll env call (storedAs t call.tenantId) t {} call.docs = r at hl
  obtain ⟨t', report⟩ := r
  cases report with
  | none => exact hl.wf
  | some report =>
    by_cases hp : call.prune = true
    · simp only [hp, if_true]
      exact (hl.wf.deleteDocuments _ _).1
    · simp only [hp, if_false, Bool.false_eq_true]
      exact hl.wf

theorem ingests_wf (calls : List (Call V)) : Wf env calls (ingests env calls) := by
  have h : ∀ (rest : List (Call V)) {t}, (∀ c ∈ rest, c ∈ calls) → Wf env calls t →
      Wf env calls (rest.foldl (fun t call => (Kb.ingest env t call).1) t) := by
    intro rest
    induction rest with
    | nil => exact fun _ h => h
    | cons c rest ih =>
      exact fun hc h => ih (fun d hd => hc d (List.mem_cons_of_mem c hd)) (h.ingest (hc c List.mem_cons_self))
  exact h calls (fun c hc => hc) Wf.empty

/-- A pruning ingest that ends leaves the entries of its set and no others. -/
structure Pruned (env : Env V) (call : Call V) (t : Tables V) : Prop where
  done : (ingest env t call).2.isSome = true ↔
    ∀ doc ∈ call.docs, Skipped env call (storedAs t call.tenantId) doc ∨ Storable env call doc
  own : (ingest env t call).2.isSome = true → ∀ doc ∈ call.docs, (ingest env t call).1.entry call.tenantId doc.id =
    if Skipped env call (storedAs t call.tenantId) doc then t.entry call.tenantId doc.id else call.entry env doc
  none : (ingest env t call).2.isSome = true → ∀ docId, docId ∉ call.docs.map (·.id) →
    (ingest env t call).1.entry call.tenantId docId = none

theorem Wf.pruned (h : Wf env calls t) (hcall : call ∈ calls) (hp : call.prune = true) : Pruned env call t := by
  have hl := h.looped hcall
  rcases hr : Kb.ingestAll env call (storedAs t call.tenantId) t {} call.docs with ⟨t', _ | report⟩ <;> rw [hr] at hl
  · have he : Kb.ingest env t call = (t', none) := by simp only [Kb.ingest, hr]
    refine ⟨?_, ?_, ?_⟩ <;> rw [he]
    · exact hl.done
    · exact fun hs => by cases hs
    · exact fun hs => by cases hs
  · have he : Kb.ingest env t call =
        (t'.deleteDocuments call.tenantId (gone t call), some { report with removed := gone t call }) := by
      simp only [Kb.ingest, hr, hp, if_true]
    obtain ⟨-, hdel⟩ := hl.wf.deleteDocuments call.tenantId (gone t call)
    have hgone : ∀ docId, docId ∈ gone t call ↔
        (∃ r ∈ t.documents, r.tenantId = call.tenantId ∧ r.docId = docId) ∧ docId ∉ call.docs.map (·.id) := by
      intro docId
      simp [gone, and_assoc]
    refine ⟨?_, ?_, ?_⟩ <;> rw [he]
    · exact hl.done
    · intro hs doc hd
      rw [hdel, if_neg fun hk => ((hgone doc.id).mp hk.2).2 (List.mem_map_of_mem hd)]
      exact hl.own hs doc hd
    · intro hs docId hd
      rw [hdel]
      split_ifs with hk
      · rfl
      · rw [hl.other _ _ fun hk' => hd hk'.2]
        refine Option.eq_none_iff_forall_not_mem.mpr fun e hmem => hk ⟨rfl, (hgone docId).mpr ⟨?_, hd⟩⟩
        obtain ⟨r, hr, ht, hdoc, -⟩ := h.entry_eq_some.mp hmem
        exact ⟨r, hr, ht, hdoc⟩

/-! The contents. -/

/-- What is compared of an entry. -/
def seen (e : Values × List (Piece V)) : String × String × List String × String × List (Piece V) :=
  (e.1.kind, e.1.title, e.1.services, e.1.version, e.2)

theorem Wf.mem_contents (h : Wf env calls t) {tenant : String}
    {x : String × String × String × List String × String × List (Piece V)} :
    x ∈ t.contents tenant ↔ (t.entry tenant x.1).map seen = some x.2 := by
  obtain ⟨docId, rest⟩ := x
  simp only [Option.map_eq_some_iff, h.entry_eq_some, Tables.contents, List.mem_map, List.mem_filter, decide_eq_true_eq]
  constructor
  · rintro ⟨r, ⟨hr, ht⟩, he⟩
    obtain ⟨rfl, rfl⟩ := Prod.mk.inj he
    exact ⟨_, ⟨r, hr, ht, rfl, rfl⟩, rfl⟩
  · rintro ⟨-, ⟨r, hr, ht, rfl, rfl⟩, rfl⟩
    exact ⟨r, ⟨hr, ht⟩, rfl⟩

theorem Wf.nodup_contents (h : Wf env calls t) (tenant : String) : (t.contents tenant).Nodup := by
  refine List.Nodup.map_on ?_ ((List.Nodup.of_map _ h.ids).filter _)
  intro r hr s hs he
  obtain ⟨hr, hrt⟩ := List.mem_filter.mp hr
  obtain ⟨hs, hst⟩ := List.mem_filter.mp hs
  exact h.keys r hr s hs ((of_decide_eq_true hrt).trans (of_decide_eq_true hst).symm) (Prod.mk.inj he).1

theorem Wf.contents_perm {calls' : List (Call V)} (h : Wf env calls t) (h1 : Wf env calls' t1) (tenant : String) :
    (t.contents tenant).Perm (t1.contents tenant) ↔
      ∀ docId, (t.entry tenant docId).map seen = (t1.entry tenant docId).map seen := by
  rw [List.perm_ext_iff_of_nodup (h.nodup_contents tenant) (h1.nodup_contents tenant)]
  constructor
  · intro hx docId
    refine Option.ext fun e => ?_
    have := hx (docId, e)
    rwa [h.mem_contents, h1.mem_contents] at this
  · intro hx x
    rw [h.mem_contents, h1.mem_contents, hx]

/-! Against a fresh ingest. -/

/-- Embedders and presets are told apart by their names. -/
structure Named (calls : List (Call V)) : Prop where
  embedders : ∀ a ∈ calls, ∀ b ∈ calls, a.embedder.name = b.embedder.name → a.embedder = b.embedder
  presets : ∀ a ∈ calls, ∀ b ∈ calls, a.chunking.name = b.chunking.name → a.chunking = b.chunking

/-- The ingest ends, as one into empty tables does, and the tenant's documents and chunks are the same. -/
structure Rebuilds (env : Env V) (call : Call V) (t : Tables V) : Prop where
  done : (ingest env t call).2.isSome = true
  fresh : (ingest env {} call).2.isSome = true
  same : ((ingest env t call).1.contents call.tenantId).Perm ((ingest env {} call).1.contents call.tenantId)

/-- Where a row has the hash, embedder and chunking of a document of the set, it has its other fields. -/
def Current (env : Env V) (call : Call V) (t : Tables V) : Prop :=
  ∀ doc ∈ call.docs, ∀ row, t.find call.tenantId doc.id = some row →
  row.values.contentHash = doc.contentHash env.sha256 →
    row.values.embedder = call.embedder.name → row.values.chunking = call.chunking.name →
    row.values.kind = doc.kind ∧ row.values.title = doc.title ∧ row.values.services = doc.services ∧
      row.values.version = doc.version

theorem pruned_empty (env : Env V) (hp : call.prune = true) :
    ((ingest env {} call).2.isSome = true ↔ ∀ doc ∈ call.docs, Storable env call doc) ∧
    ((ingest env {} call).2.isSome = true →
      ∀ doc ∈ call.docs, (ingest env {} call).1.entry call.tenantId doc.id = call.entry env doc) := by
  have h := (Wf.empty : Wf env [call] {}).pruned (List.mem_singleton_self _) hp
  have hskip : ∀ doc, ¬ Skipped env call (storedAs ({} : Tables V) call.tenantId) doc := by
    intro doc hs
    obtain ⟨row, hrow, -⟩ := skipped_iff.mp hs
    cases hrow
  refine ⟨h.done.trans (forall₂_congr fun doc _ => or_iff_right (hskip doc)), fun hs doc hd => ?_⟩
  rw [h.own hs doc hd, if_neg (hskip doc)]

theorem chunk_congr {a b : Document} (hid : a.id = b.id) (hbody : a.body = b.body) (params : ChunkParams) :
    chunk a params = chunk b params := by
  simp only [chunk, pieces, hid, hbody]

theorem pieces_congr {c : Call V} {a b : Document} (hid : a.id = b.id) (htitle : a.title = b.title)
    (hbody : a.body = b.body) (he : c.embedder = call.embedder) (hc : c.chunking = call.chunking) :
    c.pieces a = call.pieces b := by
  have hpiece : (piece a : Chunk → V → Piece V) = piece b := by
    funext k v
    simp only [piece, htitle]
  have hchunk : chunk a c.chunking = chunk b call.chunking := by rw [hc, chunk_congr hid hbody]
  have hvectors : c.vectors a = call.vectors b := by rw [Call.vectors, Call.vectors, hchunk, he, htitle]
  rw [Call.pieces, Call.pieces, hchunk, hvectors, hpiece]

/-- A document that is skipped is as a fresh ingest has it exactly if its row has its fields: then the body
is the one that was chunked. -/
theorem seen_skipped (hsha : Function.Injective env.sha256) (hnamed : Named (calls ++ [call])) (h : Wf env calls t)
    {doc : Document} {row : DocumentRow} (hrow : t.find call.tenantId doc.id = some row)
    (hhash : row.values.contentHash = doc.contentHash env.sha256) (hemb : row.values.embedder = call.embedder.name)
    (hchunk : row.values.chunking = call.chunking.name) (hs : Storable env call doc) :
    (t.entry call.tenantId doc.id).map seen = (call.entry env doc).map seen ↔
      row.values.kind = doc.kind ∧ row.values.title = doc.title ∧ row.values.services = doc.services ∧
        row.values.version = doc.version := by
  obtain ⟨ps, hps, -⟩ := storable_iff.mp hs
  obtain ⟨hmem, -, hid⟩ := h.find_eq_some.mp hrow
  obtain ⟨c, hc, old, -, hold, hw⟩ := h.written row hmem
  obtain ⟨qs, hqs, he⟩ := Option.map_eq_some_iff.mp hw
  obtain ⟨hvalues, rfl⟩ := Prod.mk.inj he
  have hentry : t.entry call.tenantId doc.id = some (row.values, t.piecesOf row.id) := by rw [Tables.entry, hrow]; rfl
  rw [hentry, Call.entry, hps, Option.map_some, Option.map_some, Option.map_some, Option.some_inj]
  constructor
  · intro hseen
    obtain ⟨h1, h2⟩ := Prod.mk.inj hseen
    obtain ⟨h2, h3⟩ := Prod.mk.inj h2
    obtain ⟨h3, h4⟩ := Prod.mk.inj h3
    exact ⟨h1, h2, h3, (Prod.mk.inj h4).1⟩
  · rintro ⟨hk, ht, hserv, hv⟩
    rw [← hvalues] at hk ht hserv hv hhash hemb hchunk
    have hbody : old.body = doc.body := body_of_hashed (hsha hhash) hk ht hserv hv
    have hlast : call ∈ calls ++ [call] := List.mem_append_right _ (List.mem_singleton_self _)
    have hpieces : c.pieces old = call.pieces doc := pieces_congr (hold.trans hid) ht hbody
      (hnamed.embedders c (List.mem_append_left _ hc) call hlast hemb)
      (hnamed.presets c (List.mem_append_left _ hc) call hlast hchunk)
    rw [hpieces, hps] at hqs
    rw [← hvalues, ← Option.some.inj hqs]
    simp only [seen, hk, ht, hserv, hv]
    rfl

theorem Wf.rebuilds_iff (h : Wf env calls t) (hsha : Function.Injective env.sha256) (hnamed : Named (calls ++ [call]))
    (hp : call.prune = true) :
    Rebuilds env call t ↔ (∀ doc ∈ call.docs, Storable env call doc) ∧ Current env call t := by
  have hcall : call ∈ calls ++ [call] := List.mem_append_right _ (List.mem_singleton_self _)
  have h1 : Wf env (calls ++ [call]) t := h.mono fun c hc => List.mem_append_left _ hc
  have hpr := h1.pruned hcall hp
  have h0 : Wf env (calls ++ [call]) {} := Wf.empty
  have hempty := h0.pruned hcall hp
  obtain ⟨hfresh, hown⟩ := pruned_empty env hp
  have hperm := (h1.ingest hcall).contents_perm (h0.ingest hcall) call.tenantId
  constructor
  · rintro ⟨hd, hf, hsame⟩
    have hs := hfresh.mp hf
    refine ⟨hs, fun doc hdoc row hrow hhash hemb hchunk => ?_⟩
    have hseen := hperm.mp hsame doc.id
    rw [hpr.own hd doc hdoc, if_pos (skipped_iff.mpr ⟨row, hrow, hhash, hemb, hchunk⟩), hown hf doc hdoc] at hseen
    exact (seen_skipped hsha hnamed h hrow hhash hemb hchunk (hs doc hdoc)).mp hseen
  · rintro ⟨hs, hcur⟩
    have hd := hpr.done.mpr fun doc hdoc => Or.inr (hs doc hdoc)
    have hf := hfresh.mpr hs
    refine ⟨hd, hf, hperm.mpr fun docId => ?_⟩
    by_cases hin : docId ∈ call.docs.map (·.id)
    · obtain ⟨doc, hdoc, rfl⟩ := List.mem_map.mp hin
      rw [hpr.own hd doc hdoc, hown hf doc hdoc]
      split_ifs with hskip
      · obtain ⟨row, hrow, hhash, hemb, hchunk⟩ := skipped_iff.mp hskip
        exact (seen_skipped hsha hnamed h hrow hhash hemb hchunk (hs doc hdoc)).mpr
          (hcur doc hdoc row hrow hhash hemb hchunk)
      · rfl
    · rw [hpr.none hd docId hin, hempty.none hf docId hin]

/-- After any ingests, a pruning one leaves what a fresh ingest of its set would exactly if the set can be
stored and no document of it is skipped for a row with other fields. -/
theorem ingest_rebuilds_iff (hsha : Function.Injective env.sha256) (hnamed : Named (calls ++ [call]))
    (hp : call.prune = true) :
    Rebuilds env call (ingests env calls) ↔
      (∀ doc ∈ call.docs, Storable env call doc) ∧ Current env call (ingests env calls) :=
  (ingests_wf calls).rebuilds_iff hsha hnamed hp

def cartRunbook (services : List String) : Document where
  id := "RB-CART"
  kind := "runbook"
  title := "Cart"
  services := services
  version := "1"
  body := "Restart it."

/-- The hashed texts of the runbook for the cart, and for the cart and the checkout, with their digests. -/
def cartDigests : List (String × String) :=
  [("runbook\nCart\ncart\n1\nRestart it.", "d74df6dc7a88a447bd7ef145fd0042c750d4469dd45912a1a0590faea02c5c14"),
    ("runbook\nCart\ncart,checkout\n1\nRestart it.",
      "b42f450dc41c8bfd312822739898de33a880260e10e5faf9e41377ee540f2d13")]

/-- An environment that takes everything. -/
def plainEnv : Env Unit where
  sha256 := Digest.ofKnown cartDigests
  refuses := fun _ _ _ _ => false

theorem plainEnv_injective : Function.Injective plainEnv.sha256 := Digest.Proper.injective ⟨by decide, by decide⟩

def cartCall (services : List String) : Call Unit where
  tenantId := "lab"
  docs := [cartRunbook services]
  embedder := { name := "hash", documents := fun texts => texts.map fun _ => () }
  prune := true
  distinct := List.nodup_singleton _

theorem cartCall_named (calls : List (List String)) : Named (calls.map cartCall) where
  embedders := by
    intro a ha b hb _
    obtain ⟨_, -, rfl⟩ := List.mem_map.mp ha
    obtain ⟨_, -, rfl⟩ := List.mem_map.mp hb
    rfl
  presets := by
    intro a ha b hb _
    obtain ⟨_, -, rfl⟩ := List.mem_map.mp ha
    obtain ⟨_, -, rfl⟩ := List.mem_map.mp hb
    rfl

theorem ingest_rebuilds_cart :
    Rebuilds plainEnv (cartCall ["cart", "checkout"]) (ingests plainEnv [cartCall ["cart"]]) ↔
    (∀ doc ∈ [cartRunbook ["cart", "checkout"]], Storable plainEnv (cartCall ["cart", "checkout"]) doc) ∧
      Current plainEnv (cartCall ["cart", "checkout"]) (ingests plainEnv [cartCall ["cart"]]) :=
  ingest_rebuilds_iff plainEnv_injective (cartCall_named [["cart"], ["cart", "checkout"]]) rfl

/-- Two services written as one, then apart: the hashed text stays, and so does the row. -/
theorem ingest_not_rebuilt : Function.Injective plainEnv.sha256 ∧
    Named ([cartCall ["cart,checkout"]] ++ [cartCall ["cart", "checkout"]]) ∧
    (ingest plainEnv {} (cartCall ["cart", "checkout"])).2.isSome = true ∧
    ¬ Rebuilds plainEnv (cartCall ["cart", "checkout"]) (ingests plainEnv [cartCall ["cart,checkout"]]) := by
  refine ⟨plainEnv_injective, cartCall_named [["cart,checkout"], ["cart", "checkout"]], by decide +kernel, fun h => ?_⟩
  have hold : ((ingest plainEnv (ingests plainEnv [cartCall ["cart,checkout"]])
    (cartCall ["cart", "checkout"])).1.contents
      "lab").map (·.2.2.2.1) = [["cart,checkout"]] := by decide +kernel
  have hnew : ((ingest plainEnv {} (cartCall ["cart", "checkout"])).1.contents "lab").map (·.2.2.2.1) =
      [["cart", "checkout"]] := by decide +kernel
  have hsame := h.same.map (·.2.2.2.1)
  rw [show (cartCall ["cart", "checkout"]).tenantId = "lab" from rfl, hold, hnew] at hsame
  exact absurd (List.perm_singleton.mp hsame) (by decide)

/-- Where no field of the documents' front matter has a separator in it, every pruning ingest rebuilds. -/
theorem ingest_rebuilds_of_plain (hsha : Function.Injective env.sha256) (hnamed : Named (calls ++ [call]))
    (hp : call.prune = true) (hs : ∀ doc ∈ call.docs, Storable env call doc)
    (hplain : ∀ c ∈ calls ++ [call], ∀ doc ∈ c.docs, Plain doc) : Rebuilds env call (ingests env calls) := by
  have h : Wf env calls (ingests env calls) := ingests_wf calls
  refine (h.rebuilds_iff hsha hnamed hp).mpr ⟨hs, fun doc hdoc row hrow hhash _ _ => ?_⟩
  obtain ⟨hmem, -, -⟩ := h.find_eq_some.mp hrow
  obtain ⟨c, hc, old, hold, -, hw⟩ := h.written row hmem
  obtain ⟨ps, -, he⟩ := Option.map_eq_some_iff.mp hw
  rw [← (Prod.mk.inj he).1] at hhash ⊢
  exact hashed_inj (hplain c (List.mem_append_left _ hc) old hold)
    (hplain call (List.mem_append_right _ (List.mem_singleton_self _)) doc hdoc) (hsha hhash)

end Blackboard.Kb

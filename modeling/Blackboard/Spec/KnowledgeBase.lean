import Blackboard.Spec.Chunking

/-! `app.kb.store.ingest`: documents into the tables `kb_documents` and `kb_chunks`, per tenant. A
document whose content hash, embedder and chunking match what is stored is left alone. `V` is an
embedding. -/

namespace Blackboard.Kb

def EMBED_TOKEN_LIMIT : ℕ := 390

structure Embedder (V : Type) where
  name : String
  documents : List String → List V

/-- The columns that `ingest` gives a document. -/
structure Values where
  kind : String
  title : String
  services : List String
  version : String
  contentHash : String
  sourcePath : String
  embedder : String
  chunking : String
deriving DecidableEq, Repr

/-- A row of `kb_documents`, unique by tenant and document id. -/
structure DocumentRow where
  id : ℕ
  tenantId : String
  docId : String
  values : Values
deriving DecidableEq, Repr

/-- The columns of a chunk but its document's. -/
structure Piece (V : Type) where
  chunkId : String
  ordinal : ℕ
  headings : List String
  sections : List String
  content : String
  tokens : ℕ
  searchHeader : String
  embedding : V
deriving DecidableEq, Repr

/-- A row of `kb_chunks`, unique by tenant and chunk id; it goes with its document. -/
structure ChunkRow (V : Type) where
  tenantId : String
  documentId : ℕ
  piece : Piece V
deriving DecidableEq, Repr

structure Tables (V : Type) where
  documents : List DocumentRow := []
  chunks : List (ChunkRow V) := []
  nextId : ℕ := 0
deriving DecidableEq, Repr

structure IngestReport where
  added : List String := []
  updated : List String := []
  unchanged : List String := []
  removed : List String := []
  chunks : ℕ := 0
  overEmbedLimit : List String := []
deriving DecidableEq, Repr

/-- The arguments of one ingest. The ids of a directory's documents are distinct (`load_dir`). -/
structure Call (V : Type) where
  tenantId : String
  docs : List Document
  embedder : Embedder V
  chunking : ChunkParams := section'
  prune : Bool := false
  distinct : (docs.map (·.id)).Nodup

/-- `sha256` gives the hex digest of a text; `refuses` tells of what the database does not take: text with
a NUL, an unknown kind, a vector of another length. -/
structure Env (V : Type) where
  sha256 : String → String
  refuses : String → String → Values → List (Piece V) → Bool

section

variable {V : Type}

namespace Tables

def find (t : Tables V) (tenant docId : String) : Option DocumentRow :=
  t.documents.find? fun r => r.tenantId = tenant ∧ r.docId = docId

def insertDocument (t : Tables V) (tenant docId : String) (values : Values) : Option (ℕ × Tables V) :=
  match t.find tenant docId with
  | some _ => none
  | none => some (t.nextId,
    { t with documents := t.documents ++ [⟨t.nextId, tenant, docId, values⟩], nextId := t.nextId + 1 })

def updateDocument (t : Tables V) (tenant docId : String) (values : Values) : Option (ℕ × Tables V) :=
  match t.find tenant docId with
  | some row => some (row.id, { t with documents := t.documents.map fun r =>
      if r.tenantId = tenant ∧ r.docId = docId then { r with values } else r })
  | none => none

def deleteChunks (t : Tables V) (documentId : ℕ) : Tables V :=
  { t with chunks := t.chunks.filter fun c => c.documentId ≠ documentId }

/-- No chunk id may be there twice. Without a row the statement has no values, and NOT NULL refuses it. -/
def insertChunks (t : Tables V) (tenant : String) (documentId : ℕ) (pieces : List (Piece V)) : Option (Tables V) :=
  if pieces = [] ∨ ¬ ((t.chunks.filter fun c => c.tenantId = tenant).map (·.piece.chunkId) ++ pieces.map
    (·.chunkId)).Nodup then none
  else some { t with chunks := t.chunks ++ pieces.map fun p => ⟨tenant, documentId, p⟩ }

/-- A deletion, which takes the chunks along. -/
def deleteDocuments (t : Tables V) (tenant : String) (docIds : List String) : Tables V :=
  let gone := t.documents.filter fun r => r.tenantId = tenant ∧ r.docId ∈ docIds
  { t with
    documents := t.documents.filter fun r => ¬ (r.tenantId = tenant ∧ r.docId ∈ docIds)
    chunks := t.chunks.filter fun c => c.documentId ∉ gone.map (·.id) }

end Tables

def Call.values (env : Env V) (call : Call V) (doc : Document) : Values where
  kind := doc.kind
  title := doc.title
  services := doc.services
  version := doc.version
  contentHash := doc.contentHash env.sha256
  sourcePath := doc.path
  embedder := call.embedder.name
  chunking := call.chunking.name

def Call.vectors (call : Call V) (doc : Document) : List V :=
  call.embedder.documents ((chunk doc call.chunking).map (·.textForEmbedding doc.title))

def piece (doc : Document) (c : Chunk) (embedding : V) : Piece V where
  chunkId := c.chunkId
  ordinal := c.ordinal
  headings := c.headings
  sections := c.sections
  content := c.content
  tokens := c.tokens
  searchHeader := doc.title ++ " " ++ String.intercalate " " c.headings
  embedding := embedding

/-- The chunk rows of a document, if the embedder gives a vector for each chunk (`strict=True`). -/
def Call.pieces (call : Call V) (doc : Document) : Option (List (Piece V)) :=
  if (chunk doc call.chunking).length = (call.vectors doc).length then
    some (List.zipWith (piece doc) (chunk doc call.chunking) (call.vectors doc))
  else none

/-- The row of a document written, without chunks. -/
def place (env : Env V) (call : Call V) (known : Bool) (t : Tables V) (doc : Document) : Option (ℕ × Tables V) :=
  if known then (t.updateDocument call.tenantId doc.id (call.values env doc)).map fun (i, t) => (i, t.deleteChunks i)
  else t.insertDocument call.tenantId doc.id (call.values env doc)

/-- The transaction that stores one document; none where a statement raises and all is rolled back. -/
def store (env : Env V) (call : Call V) (known : Bool) (t : Tables V) (doc : Document) : Option (Tables V) := do
  let pieces ← call.pieces doc
  if env.refuses call.tenantId doc.id (call.values env doc) pieces then none
  let (documentId, t) ← place env call known t doc
  t.insertChunks call.tenantId documentId pieces

/-- `stored`: the hash, embedder and chunking of each document, as read at the start. -/
def storedAs (t : Tables V) (tenant docId : String) : Option (String × String × String) :=
  (t.find tenant docId).map fun r => (r.values.contentHash, r.values.embedder, r.values.chunking)

/-- The document is left alone. -/
def Skipped (env : Env V) (call : Call V) (stored : String → Option (String × String × String)) (doc : Document) :
    Prop :=
  stored doc.id = some (doc.contentHash env.sha256, call.embedder.name, call.chunking.name)

instance (env : Env V) (call : Call V) (stored : String → Option (String × String × String)) (doc : Document) :
    Decidable (Skipped env call stored doc) := inferInstanceAs (Decidable (_ = _))

/-- The loop over the documents. A raise leaves what was stored before it. -/
def ingestAll (env : Env V) (call : Call V) (stored : String → Option (String × String × String)) :
    Tables V → IngestReport → List Document → Tables V × Option IngestReport
  | t, report, [] => (t, some report)
  | t, report, doc :: docs =>
    if Skipped env call stored doc then
      ingestAll env call stored t { report with unchanged := report.unchanged ++ [doc.id] } docs
    else
      let chunks := chunk doc call.chunking
      let known := (stored doc.id).isSome
      match store env call known t doc with
      | none => (t, none)
      | some t => ingestAll env call stored t { report with
          overEmbedLimit := report.overEmbedLimit ++
            (chunks.filter fun c => EMBED_TOKEN_LIMIT < c.tokens).map (·.chunkId)
          updated := report.updated ++ (if known then [doc.id] else [])
          added := report.added ++ (if known then [] else [doc.id])
          chunks := report.chunks + chunks.length } docs

/-- `sorted(set(stored) - {d.id for d in docs})` -/
def gone (t : Tables V) (call : Call V) : List String :=
  (((t.documents.filter fun r => r.tenantId = call.tenantId).map (·.docId)).filter
    fun d => d ∉ call.docs.map (·.id)).mergeSort fun a b => a ≤ b

def ingest (env : Env V) (t : Tables V) (call : Call V) : Tables V × Option IngestReport :=
  match ingestAll env call (storedAs t call.tenantId) t {} call.docs with
  | (t', none) => (t', none)
  | (t', some report) =>
    if call.prune then (t'.deleteDocuments call.tenantId (gone t call), some { report with removed := gone t call })
    else (t', some report)

/-- The tables after ingests one after another, each as far as it came. -/
def ingests (env : Env V) (calls : List (Call V)) : Tables V := calls.foldl (fun t call => (ingest env t call).1) {}

/-- A tenant's documents: id, kind, title, services, version and the chunks. -/
def Tables.contents (t : Tables V) (tenant : String) :
    List (String × String × String × List String × String × List (Piece V)) :=
  (t.documents.filter fun r => r.tenantId = tenant).map fun r =>
    (r.docId, r.values.kind, r.values.title, r.values.services, r.values.version,
      (t.chunks.filter fun c => c.documentId = r.id).map (·.piece))

end

end Blackboard.Kb

import Mathlib.Data.List.Basic
import Blackboard.Lib.Lines
import Blackboard.Lib.Regex
import Blackboard.Lib.Strings

/-! `app.kb.chunking`: documents and chunks. A document is split on its headings, a long section further
at its blocks with the tail of one piece carried over to the next, and a short section is merged into the
chunk before it. Front matter is parsed before. -/

namespace Blackboard.Kb

def wordChar (c : Char) : Bool := c.isAlphanum || c = '_'

/-- `[A-Za-z0-9_]+|[^\sA-Za-z0-9_]` -/
def TOKEN : Regex := .alt (.plus (.char wordChar)) (.char fun c => !Lines.isSpace c && !wordChar c)

/-- `^(#{2,3})\s+(.+?)\s*$` -/
def HEADING : Regex :=
  .seq .lineStart (.seq (.group 1 (.seq (.times 2 (.char (· = '#'))) (.opt (.char (· = '#')))))
    (.seq (.plus (.char Lines.isSpace)) (.seq (.group 2 (.seq (.char (· ≠ '\n')) (.star false (.char (· ≠ '\n')))))
      (.seq (.star true (.char Lines.isSpace)) .lineEnd))))

def keyChar (c : Char) : Bool := wordChar c || c = '-'

/-- `sk-[A-Za-z0-9_-]{8,}|eyJ[A-Za-z0-9_-]{20,}\.[A-Za-z0-9_-]+|AKIA[0-9A-Z]{16}` -/
def SECRET : Regex :=
  .alt (.seq (.literal "sk-") (.atLeast 8 (.char keyChar)))
    (.alt (.seq (.literal "eyJ") (.seq (.atLeast 20 (.char keyChar)) (.seq (.literal ".") (.plus (.char keyChar)))))
      (.seq (.literal "AKIA") (.times 16 (.char fun c => c.isDigit || c.isUpper))))

/-- `\s{0,1}([-*]|\d+\.)\s` -/
def ITEM : Regex :=
  .seq (.opt (.char Lines.isSpace)) (.seq (.group 1 (.alt (.char fun c => c = '-' || c = '*')
    (.seq (.plus (.char Strings.isDecimal)) (.literal ".")))) (.char Lines.isSpace))

/-- A model-independent size: words and punctuation. -/
def tokens (text : List Char) : ℕ := (Regex.finditer TOKEN text).length

/-- `str.lower`, as far as it gives ASCII characters: of the others only "İ" and the Kelvin sign do. -/
def lower (c : Char) : List Char :=
  if c = '\u0130' then ['i', '\u0307'] else if c = '\u212a' then ['k'] else [c.toLower]

def slug (heading : List Char) : List Char :=
  Strings.strip (· = '-') (Regex.sub (.plus (.char fun c => !(c.isLower || c.isDigit))) ['-'] (heading.flatMap lower))

/-- Nothing that looks like a key or a token goes into the index. -/
def redact (text : List Char) : List Char := Regex.sub SECRET "[REDACTED]".toList text

structure ChunkParams where
  name : String
  target : ℕ
  min : ℕ
  max : ℕ
  overlap : ℕ
deriving DecidableEq, Repr

def original : ChunkParams := { name := "original", target := 450, min := 200, max := 700, overlap := 80 }
def section' : ChunkParams := { name := "section", target := 450, min := 0, max := 700, overlap := 80 }

structure Document where
  id : String
  kind : String
  title : String
  services : List String
  version : String
  body : String
  path : String := ""
deriving DecidableEq, Repr

/-- What is hashed: `f"{kind}\n{title}\n{','.join(services)}\n{version}\n"` and the body. -/
def Document.hashed (doc : Document) : String :=
  doc.kind ++ "\n" ++ doc.title ++ "\n" ++ String.intercalate "," doc.services ++ "\n" ++ doc.version ++
  "\n" ++ doc.body

def Document.contentHash (sha256 : String → String) (doc : Document) : String := sha256 doc.hashed

structure Chunk where
  docId : String
  ordinal : ℕ
  headings : List String
  content : String
  sections : List String
deriving DecidableEq, Repr

/-- `f"{doc_id}#{ordinal:02d}"` -/
def Chunk.chunkId (c : Chunk) : String :=
  c.docId ++ "#" ++ String.ofList ((Nat.toDigits 10 c.ordinal).leftpad 2 '0')

def Chunk.tokens (c : Chunk) : ℕ := Kb.tokens c.content.toList

/-- The chunk with its document title and headings in front. -/
def Chunk.textForEmbedding (c : Chunk) (title : String) : String :=
  title ++ " > " ++ String.intercalate " / " c.headings ++ "\n" ++ c.content

/-- (heading, text) pairs; text before the first heading is the "overview" section. -/
def sections (body : List Char) : List (List Char × List Char) :=
  let marks := Regex.finditer HEADING body
  let intro := match marks with | [] => body | m :: _ => body.take m.start
  let ends := (marks.drop 1).map (·.start) ++ [body.length]
  (if Strings.strip Lines.isSpace intro ≠ [] then [("Overview".toList, Strings.strip Lines.isSpace intro)] else []) ++
    List.zipWith (fun m stop => (m.group 2, Strings.strip Lines.isSpace ((body.take stop).drop m.start))) marks ends

def joinLines (lines : List (List Char)) : List Char := ['\n'].intercalate lines

def isFence (line : List Char) : Bool := "```".toList.isPrefixOf line

/-- The loop of `_blocks`. -/
def blocksFrom : Bool → List (List Char) → List (List Char) → List (List Char)
  | _, buf, [] => if buf ≠ [] then [joinLines buf] else []
  | fence, buf, line :: lines =>
    let fence := if isFence line then !fence else fence
    let startsItem := !fence && Regex.isMatch ITEM line
    let cut := !fence && (Lines.isBlank line || startsItem) && buf ≠ []
    let rest := if cut then [] else buf
    (if cut then [joinLines buf] else []) ++
      blocksFrom fence (if !Lines.isBlank line || fence then rest ++ [line] else rest) lines

/-- Paragraphs, list items and fenced code blocks: the places a section may be cut. -/
def blocks (text : List Char) : List (List Char) := blocksFrom false [] (Lines.splitlines text)

/-- `str.split` -/
def words (text : List Char) : List (List Char) := (text.splitOnP Lines.isSpace).filter (· ≠ [])

/-- The loop of `_tail`, over the words from the last. -/
def tailFrom (n : ℕ) : List (List Char) → List (List Char) → List (List Char)
  | out, [] => out
  | out, w :: ws => if n ≤ tokens ([' '].intercalate (w :: out)) then w :: out else tailFrom n (w :: out) ws

/-- The last `n` tokens of a text, starting at a word boundary. Fence lines are left out. -/
def tail (text : List Char) (n : ℕ) : List Char :=
  [' '].intercalate
    (tailFrom n [] (words (joinLines ((Lines.splitlines text).filter fun line => !isFence line))).reverse)

/-- The loop of `_split`. -/
def splitFrom (params : ChunkParams) : List Char → List (List Char) → List (List Char)
  | buf, [] => if buf ≠ [] then [buf] else []
  | buf, block :: blocks =>
    if buf ≠ [] ∧ params.target < tokens buf + tokens block then
      buf :: splitFrom params (tail buf params.overlap ++ "\n\n".toList ++ block) blocks
    else splitFrom params (if buf ≠ [] then buf ++ "\n\n".toList ++ block else block) blocks

def split (text : List Char) (params : ChunkParams) : List (List Char) :=
  if tokens text ≤ params.max then [text] else splitFrom params [] (blocks text)

/-- One round of the inner loop of `chunk`: piece `i` of a section. Only the first piece of a section may
be merged into the chunk before it. -/
def addPiece (params : ChunkParams) (merged : List (List (List Char) × List Char))
    (piece : List Char × ℕ × List Char) : List (List (List Char) × List Char) :=
  let (heading, i, text) := piece
  let small := tokens text < params.min
  match merged.getLast? with
  | some (headings, prev) =>
    if i = 0 ∧ small ∧ tokens prev + tokens text ≤ params.max then
      merged.dropLast ++ [(if heading ∈ headings then headings else headings ++ [heading],
        prev ++ "\n\n".toList ++ text)]
    else merged ++ [([heading], text)]
  | none => merged ++ [([heading], text)]

/-- The headings of pieces that are packed together. -/
def headingsOf (g : List (List Char × ℕ × List Char)) : List (List Char) :=
  g.foldl (fun headings p => if p.1 ∈ headings then headings else headings ++ [p.1]) []

/-- The pieces of every section in order, each with its heading and its place in the section. -/
def pieces (doc : Document) (params : ChunkParams) : List (List Char × ℕ × List Char) :=
  (sections doc.body.toList).flatMap fun s => (split s.2 params).zipIdx.map fun p => (s.1, p.2, p.1)

def chunk (doc : Document) (params : ChunkParams) : List Chunk :=
  ((pieces doc params).foldl (addPiece params) []).zipIdx.map fun ((headings, text), n) =>
    { docId := doc.id, ordinal := n + 1, headings := headings.map String.ofList, content := String.ofList (redact text),
      sections := headings.map fun h => doc.id ++ "#" ++ String.ofList (slug h) }

end Blackboard.Kb

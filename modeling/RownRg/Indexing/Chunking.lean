import RownRg.Indexing.Placeholders
import RownRg.Lib.Stretch
import RownRg.Lib.Uuid

/-! A document cut into chunks, its tables left whole. -/

open PyText Regex

namespace RownRg.Indexing

/-- `[^\n]*` -/
def rowBody : Regex Unit := star (noneOf ['\n'])

/-- `[\s:|\-]+` -/
def ruleBody : Regex Unit := plus (cls fun c => isSpace c || ":|-".toList.contains c)

/-- `_TABLE_PATTERN` -/
def tablePattern : Regex Unit :=
  group () (cat [lineStart, chr '|', rowBody, chr '|', star space, chr '\n',
    lineStart, chr '|', ruleBody, chr '|', star space, chr '\n',
    plus (cat [lineStart, chr '|', rowBody, chr '|', star space, opt (chr '\n')])])

inductive ChunkType where
  | text
  | table
  deriving DecidableEq

structure Chunk where
  content : Text
  charCount : Nat
  chunkIndex : Nat
  sourceId : Uuid
  headerPath : List Text
  chunkType : ChunkType
  hasNumbers : Bool
  hasProperNouns : Bool

/-- A part of the document under its headings. -/
structure HeaderDoc where
  h1 : Option Text
  h2 : Option Text
  h3 : Option Text
  pageContent : Text

/-- The parts of a text, cut through no placeholder. -/
def Cuts (t : Text) (parts : List Text) : Prop :=
  parts.flatten = t ∧ ∀ front back, parts = front ++ back → CutsBetween front.flatten back.flatten

/-- The splitters of the library: those for headings and sentences cut the text and leave it as it
is, and the one for length gives stretches of it. -/
structure Splitters where
  header : Text → List HeaderDoc
  semantic : Text → List Text
  hard : Text → List Text
  header_cuts : ∀ t, Cuts t ((header t).map (·.pageContent))
  semantic_cuts : ∀ t, Cuts t (semantic t)
  hard_stretch : ∀ t, ∀ p ∈ hard t, p <:+: t

/-- `isWord` is `\w`. -/
structure ChunkingService where
  splitters : Splitters
  minChars : Nat
  maxChars : Nat
  isWord : Char → Bool

inductive ChunkError where
  /-- `TablePlaceholderSplitError` -/
  | placeholderSplit (fragment : Text)
  /-- `IndexError` -/
  | noTable (idx : Nat)
  /-- `AttributeError` -/
  | noMatch

def hasNumbers (t : Text) : Bool := (digit : Regex Unit).found t

/-- `\b[A-Z]{2,5}\b` -/
def properNounRe (isWord : Char → Bool) : Regex Unit :=
  cat [notBehind isWord, between (cls fun c => 'A' ≤ c && c ≤ 'Z') 2 5, notAhead (cls isWord)]

def hasProperNouns (isWord : Char → Bool) (t : Text) : Bool := (properNounRe isWord).found t

def buildHeaderPath (doc : HeaderDoc) : List Text := [doc.h1, doc.h2, doc.h3].filterMap id

/-- `text.rstrip("\n")` -/
def rstripNewlines (t : Text) : Text := (t.reverse.dropWhile (· == '\n')).reverse

/-- The text with its tables replaced, and the tables; the first one has the given number. -/
def maskPieces : Nat → List (Piece Unit) → Text × List Text
  | _, [] => ([], [])
  | n, .plain c :: ps =>
    let (masked, tables) := maskPieces n ps
    (c :: masked, tables)
  | n, .hit m :: ps =>
    let (masked, tables) := maskPieces (n + 1) ps
    (placeholder n ++ masked, rstripNewlines m.text :: tables)

def extractTables (text : Text) : Text × List Text := maskPieces 0 (tablePattern.pieces text)

/-- The text since the last placeholder, if there is any. -/
def pending (t : Text) : List (Text × Bool) := if t.isEmpty then [] else [(t, false)]

def segmentsFrom : Text → List (Piece Unit) → List (Text × Bool)
  | t, [] => pending t
  | t, .plain c :: ps => segmentsFrom (t ++ [c]) ps
  | t, .hit m :: ps => pending t ++ (m.text, true) :: segmentsFrom [] ps

/-- The segments of a text, and whether they are placeholders. -/
def splitByPlaceholder (text : Text) : List (Text × Bool) :=
  let out := segmentsFrom [] (placeholderRe.pieces text)
  if out.isEmpty then [(text, false)] else out

/-- Every line with something in it is a heading. -/
def isHeaderOnly (text : Text) : Bool :=
  let lines := (text.splitOn '\n').filter fun ln => !(strip ln).isEmpty
  !lines.isEmpty && lines.all fun ln => (lstrip ln).head? == some '#'

def verifyNoSplitPlaceholder (piece : Text) : Except ChunkError Text :=
  let opens := count opening piece
  let closes := count closing piece
  let full := (placeholderRe.finditer piece).length
  if opens ≠ full || closes ≠ full then .error (.placeholderSplit (piece.take 200)) else .ok piece

def enforceMax (svc : ChunkingService) (pieces : List Text) : List Text :=
  pieces.flatMap fun p => if p.length ≤ svc.maxChars then [p] else svc.splitters.hard p

def makeChunk (svc : ChunkingService) (content : Text) (chunkType : ChunkType)
    (headerPath : List Text) (sourceId : Uuid) (chunkIndex : Nat) : Chunk where
  content := content
  charCount := content.length
  chunkIndex := chunkIndex
  sourceId := sourceId
  headerPath := headerPath
  chunkType := chunkType
  hasNumbers := hasNumbers content
  hasProperNouns := hasProperNouns svc.isWord content

/-- `tables[int(...)]` -/
def tableOf (tables : List Text) (segment : Text) : Except ChunkError Text :=
  match placeholderRe.matchStart segment with
  | none => .error .noMatch
  | some m =>
    let idx := natOf ((m.group ()).getD [])
    match tables[idx]? with
    | none => .error (.noTable idx)
    | some table => .ok table

def addText (svc : ChunkingService) (sourceId : Uuid) (path : List Text) (raw : List Chunk)
    (fp : Text) : List Chunk :=
  let fp := strip fp
  if fp.isEmpty then raw else raw ++ [makeChunk svc fp .text path sourceId raw.length]

def addPiece (svc : ChunkingService) (sourceId : Uuid) (path : List Text) (raw : List Chunk)
    (piece : Text) : Except ChunkError (List Chunk) := do
  let expanded ← verifyNoSplitPlaceholder piece
  return (enforceMax svc [expanded]).foldl (addText svc sourceId path) raw

def addSegment (svc : ChunkingService) (sourceId : Uuid) (tables : List Text) (path : List Text)
    (raw : List Chunk) (segment : Text × Bool) : Except ChunkError (List Chunk) :=
  if segment.2 then do
    let table ← tableOf tables segment.1
    return raw ++ [makeChunk svc table .table path sourceId raw.length]
  else
    let stripped := strip segment.1
    if stripped.isEmpty || isHeaderOnly stripped then .ok raw
    else
      let pieces :=
        if stripped.length < svc.minChars then [stripped]
        else svc.splitters.semantic segment.1
      pieces.foldlM (addPiece svc sourceId path) raw

def addDoc (svc : ChunkingService) (sourceId : Uuid) (tables : List Text) (raw : List Chunk)
    (doc : HeaderDoc) : Except ChunkError (List Chunk) :=
  (splitByPlaceholder doc.pageContent).foldlM
    (addSegment svc sourceId tables (buildHeaderPath doc)) raw

/-- `_MERGE_JOIN` -/
def mergeJoin : Text := "\n\n".toList

def canMerge (svc : ChunkingService) (last c : Chunk) : Bool :=
  c.chunkType = .text && last.chunkType = .text && last.headerPath = c.headerPath &&
    last.content.length + mergeJoin.length + c.content.length ≤ svc.maxChars &&
    (c.content.length < svc.minChars || last.content.length < svc.minChars)

def mergeChunks (svc : ChunkingService) (last c : Chunk) : Chunk :=
  let mergedText := last.content ++ (mergeJoin ++ c.content)
  { last with
    content := mergedText
    charCount := mergedText.length
    hasNumbers := last.hasNumbers || hasNumbers c.content
    hasProperNouns := last.hasProperNouns || hasProperNouns svc.isWord c.content }

def mergeStep (svc : ChunkingService) (result : List Chunk) (c : Chunk) : List Chunk :=
  match result.getLast? with
  | none => result ++ [{ c with chunkIndex := result.length }]
  | some last =>
    if canMerge svc last c then result.dropLast ++ [mergeChunks svc last c]
    else result ++ [{ c with chunkIndex := result.length }]

def mergeShort (svc : ChunkingService) (chunks : List Chunk) : List Chunk :=
  chunks.foldl (mergeStep svc) []

def chunkMarkdown (svc : ChunkingService) (markdown : Text) (sourceId : Uuid) :
    Except ChunkError (List Chunk) :=
  if (strip markdown).isEmpty then .ok []
  else
    let (masked, tables) := extractTables markdown
    let headerDocs := svc.splitters.header masked
    if headerDocs.isEmpty then .ok []
    else do
      let raw ← headerDocs.foldlM (addDoc svc sourceId tables) []
      return mergeShort svc raw

end RownRg.Indexing

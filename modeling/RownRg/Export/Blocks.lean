import RownRg.Core.ChartSpec
import RownRg.Core.TableToChart
import RownRg.Export.LeadHeading

/-! The blocks of a section body: headings, paragraphs, tables and charts, line by line. -/

open PyText Regex RownRg.Charts RownRg.Citations

namespace RownRg.Export

structure Table where
  headers : List Text
  rows : List (List Text)
  caption : Text
  unit : Text
  source : Text
  deriving DecidableEq

structure Figure where
  caption : Text
  description : Text
  sourceHints : List Text
  deriving DecidableEq

inductive Block where
  | heading (level : Nat) (text : Text)
  | paragraph (text : Text) (indent : Nat)
  | table (t : Table)
  | chart (spec : ChartSpec) (fallback : Option Table)
  | figure (f : Figure)

variable {γ : Type}

/-! Inline marks. -/

inductive InlineGroup where
  | label | inner
  deriving DecidableEq

/-- `_MD_LINK_RE` -/
def mdLinkRe : Regex InlineGroup :=
  cat [chr '[', group .label (plus (noneOf "]".toList)), chr ']', chr '(', star (noneOf ")".toList),
    chr ')']

/-- `_YEAR_QUOTE_RE` -/
def yearQuoteRe : Regex Unit :=
  seq (oneOf "‘'`´".toList)
    (ahead (cat [digit, digit, alt (chr '년') (oneOf ".~∼".toList)]))

/-- `_INVENTED_MARKER_RE` -/
def inventedMarkerRe : Regex InlineGroup :=
  cat [opt (chr ' '), chr '[', group .inner (between (noneOf "[]\n".toList) 1 40), chr ']',
    notAhead (chr '(')]

/-- `_ALLOWED_BRACKET_RE` -/
def allowedBracketRe : Regex Unit :=
  let numbering : Regex Unit := plus (cls fun c => c == '-' || c == '.' || c == ' ' || isDigit c)
  cat [textStart,
    anyOf [digits, cat [lit "그림".toList, opt space, numbering], cat [lit "표".toList, opt space, numbering]],
    textEnd]

/-- `_strip_invented_markers` -/
def stripInventedMarkers (text : Text) : Text :=
  inventedMarkerRe.sub (fun m =>
    if (allowedBracketRe.matchStart (strip ((m.group .inner).getD []))).isSome then m.text else []) text

/-- `_clean_inline` -/
def cleanInline (text : Text) : Text :=
  let text := replaceAll "**".toList [] text
  let text := mdLinkRe.sub (fun m => (m.group .label).getD []) text
  let text := yearQuoteRe.sub (fun _ => "’".toList) text
  stripInventedMarkers text

/-! The caption of a table, taken from the paragraphs before it. -/

inductive CaptionPart where
  | title | unit
  deriving DecidableEq

def isMarker (c : Char) : Bool := "□ㅇ○◦-*".toList.contains c

/-- What stands before the title of a caption: an outline marker, and a label of the table. -/
def captionLabelRe : Regex CaptionPart :=
  cat [opt (seq (cls isMarker) (plus space)),
    anyOf [cat [chr '[', spaces, chr '표', star (noneOf "]".toList), chr ']'],
      cat [chr '<', spaces, chr '표', star (noneOf ">".toList), chr '>'],
      cat [chr '표', spaces, star (cls fun c => isDigit c || c == '-'), spaces, Tables.colon]],
    spaces]

/-- `_TABLE_CAPTION_RE` -/
def tableCaptionRe : Regex CaptionPart :=
  cat [textStart, captionLabelRe, group .title (plus dot), textEnd]

/-- `[（(]\s*단위\s*[:：][^)）]*[)）]` -/
def unitRe : Regex CaptionPart :=
  cat [Tables.openParen, spaces, lit "단위".toList, spaces, Tables.colon,
    star (noneOf ")）".toList), Tables.closeParen]

/-- `_TABLE_UNIT_RE` -/
def tableUnitRe : Regex CaptionPart := cat [textStart, unitRe, textEnd]

/-- `_CAPTION_TRAILING_UNIT_RE` -/
def captionTrailingUnitRe : Regex CaptionPart := cat [spaces, group .unit unitRe, textEnd]

/-- The unit line that stands last, and the blocks before it. -/
def popUnit (blocks : List Block) : List Block × Text :=
  match blocks.getLast? with
  | some (.paragraph text _) =>
    if (tableUnitRe.matchStart (strip text)).isSome then (blocks.dropLast, strip text) else (blocks, [])
  | _ => (blocks, [])

/-- The title of a caption and the unit behind it, when no unit line was found. -/
def splitCaption (title unit : Text) : Text × Text :=
  match (firstHit (captionTrailingUnitRe.pieces title)) with
  | some (before, m) =>
    if unit.isEmpty then (strip before, (m.group .unit).getD []) else (title, unit)
  | none => (title, unit)

/-- `_pop_table_caption`: the blocks that are left, the title and the unit. -/
def popTableCaption (blocks : List Block) : List Block × Text × Text :=
  let (blocks, unit) := popUnit blocks
  match blocks.getLast? with
  | some (.paragraph text _) =>
    match tableCaptionRe.matchStart (strip text) with
    | some m => (blocks.dropLast, splitCaption (strip ((m.group .title).getD [])) unit)
    | none => (blocks, [], unit)
  | _ => (blocks, [], unit)

/-! Table rows. -/

/-- A last bar with a source mark behind it. -/
def sourceTailRe : Regex Unit :=
  cat [chr '|', spaces, chr '(', Tables.words ["출처", "근거", "자료", "참고"], star (noneOf ")".toList),
    chr ')', spaces]

/-- `_ROW_TAIL_SOURCE_RE` -/
def rowTailSourceRe : Regex Unit := seq sourceTailRe textEnd

def isBar (c : Char) : Bool := c == '|'

/-- `line.strip("|")` -/
def stripBars (line : Text) : Text := ((line.dropWhile isBar).reverse.dropWhile isBar).reverse

/-- `_table_cells` -/
def tableCells (line : Text) : List Text :=
  ((stripBars (rowTailSourceRe.sub (fun _ => ['|']) (strip line))).splitOn '|').map strip

/-- `_TABLE_SEP_CELL_RE` -/
def tableSepCellRe : Regex Unit :=
  cat [textStart, opt (chr ':'), plus (chr '-'), opt (chr ':'), textEnd]

/-- `_is_separator_row` -/
def isSeparatorRow (cells : List Text) : Bool :=
  (cells.all fun c => c.isEmpty || (tableSepCellRe.matchStart c).isSome) &&
    cells.any fun c => !c.isEmpty

/-! Chart fences. -/

inductive TableGroup where
  | table
  deriving DecidableEq

/-- `_CHART_TABLE_RE`, and `_FENCE_TABLE_RE` of the charts -/
def chartTableRe : Regex TableGroup :=
  cat [lineStart, lit "table:".toList, blanks, chr '|', blanks, chr '\n',
    group .table (plus (cat [plus (oneOf " \t".toList), star dot, opt (chr '\n')]))]

def commonPrefix : Text → Text → Text
  | c :: u, d :: v => if c = d then c :: commonPrefix u v else []
  | _, _ => []

def isIndent (c : Char) : Bool := c == ' ' || c == '\t'

/-- The indent that all lines share, blank lines apart. -/
def margin (ls : List Text) : Text :=
  match (ls.filter fun l => !l.isEmpty).map fun l => l.takeWhile isIndent with
  | [] => []
  | l :: ls => ls.foldl commonPrefix l

/-- `textwrap.dedent` -/
def dedent (t : Text) : Text :=
  let ls := (t.splitOn '\n').map fun l => if l.all isIndent then [] else l
  joinLines (ls.map fun l => if (margin ls).isPrefixOf l then l.drop (margin ls).length else l)

/-- The table that a chart fence keeps. -/
def keptTable (body : Text) : Option Text :=
  (chartTableRe.search body).map fun m => dedent ((m.group .table).getD [])

/-- `chart_fences_as_tables` -/
def chartFencesAsTables (md : Text) : Text :=
  chartFenceRe.sub (fun m => strip ((keptTable ((m.group .body).getD [])).getD [])) md

/-- `_CHART_TOKEN` -/
def chartToken (index : Nat) : Text := '\x00' :: ("chart:".toList ++ (ofNat index ++ ['\x00']))

inductive TokenGroup where
  | index
  deriving DecidableEq

/-- `_CHART_TOKEN_RE` -/
def chartTokenRe : Regex TokenGroup :=
  cat [textStart, chr '\x00', lit "chart:".toList, group .index digits, chr '\x00', textEnd]

/-- `_sub` over the fences: a token for each chart that can be read, its table for the others. -/
def extractFrom (specs : List ChartSpec) : List (Piece FenceGroup) → Text × List ChartSpec
  | [] => ([], specs)
  | .plain c :: ps =>
    let (text, specs) := extractFrom specs ps
    (c :: text, specs)
  | .hit m :: ps =>
    let body := (m.group .body).getD []
    match parseChartSpec body with
    | .ok spec =>
      let (text, all) := extractFrom (specs ++ [spec]) ps
      (chartToken specs.length ++ text, all)
    | .error _ =>
      let (text, all) := extractFrom specs ps
      ((keptTable body).getD [] ++ text, all)

/-- `_extract_charts` -/
def extractCharts (md : Text) : Text × List ChartSpec := extractFrom [] (chartFenceRe.pieces md)

/-! The lines. -/

/-- `_HR_RE` -/
def hrRe : Regex Unit :=
  let three : Char → Regex Unit := fun c => cat [chr c, chr c, plus (chr c)]
  cat [textStart, anyOf [three '-', three '*', three '_'], textEnd]

/-- `_OUTLINE_LEVEL_BY_MARKER` -/
def levelByMarker : Char → Option Nat
  | '□' => some 0
  | 'ㅇ' | '○' | '◦' => some 1
  | '-' => some 2
  | '*' => some 3
  | _ => none

/-- `_outline_level` -/
def outlineLevel : Text → Option Nat
  | c :: ' ' :: _ => levelByMarker c
  | _ => none

/-- `_CONTENT_HEADING_LEVEL` -/
def contentHeadingLevel : Nat := 3

/-- The blocks so far, the lines of the open paragraph and the rows of the open table. -/
structure Reader where
  blocks : List Block
  para : List Text
  table : List (List Text)

def Reader.emit (s : Reader) (b : Block) : Reader := { s with blocks := s.blocks ++ [b] }

/-- `flush_para` -/
def Reader.flushPara (s : Reader) : Reader :=
  if s.para.isEmpty then s
  else { s.emit (.paragraph (cleanInline (joinWith [' '] s.para)) 0) with para := [] }

/-- The table of some rows, with what `popTableCaption` found. -/
def tableOf (rows : List (List Text)) (title unit : Text) : Table :=
  let cleaned := rows.map fun row => row.map cleanInline
  ⟨cleaned.headD [], cleaned.tail, title, unit, []⟩

/-- `flush_table` -/
def Reader.flushTable (s : Reader) : Reader :=
  let rows := s.table.filter fun cells => !isSeparatorRow cells
  if rows.isEmpty then { s with table := [] }
  else
    let (blocks, title, unit) := popTableCaption s.blocks
    { s with blocks := blocks ++ [.table (tableOf rows title unit)], table := [] }

/-- The block of a heading with `marks` number signs. -/
def headingOf (marks : Nat) (text : Text) : Block :=
  match outlineLevel text with
  | some level => .paragraph text level
  | none => if marks ≤ 2 then .heading contentHeadingLevel text else .paragraph text 0

def isQuoteMark (c : Char) : Bool := c == '>' || c == ' '

/-- What a line is taken for. -/
inductive Line where
  | blank
  | chart (index : Nat)
  | rule
  | row (cells : List Text)
  | quote (text : Text)
  | heading (marks : Nat) (text : Text)
  | item (level : Nat) (text : Text)
  | words (text : Text)
  deriving DecidableEq

/-- The tests of the loop, in their order. -/
def lineOf (raw : Text) : Line :=
  let line := strip raw
  if line.isEmpty then .blank
  else match chartTokenRe.matchStart line with
    | some m => .chart (natOf ((m.group .index).getD []))
    | none =>
      if (hrRe.matchStart line).isSome then .rule
      else if line.head? = some '|' then .row (tableCells line)
      else if line.head? = some '>' then .quote (strip (line.dropWhile isQuoteMark))
      else match headingRe.matchStart line with
        | some m => .heading ((m.group .marks).getD []).length ((m.group .text).getD [])
        | none => match outlineLevel line with
          | some level => .item level line
          | none => .words line

section Lines

variable (fallback : ChartSpec → Option (Option Table)) (charts : List ChartSpec)

/-- One round of the loop; `none` where the source raises. -/
def readLine (s : Reader) : Line → Option Reader
  | .blank | .rule => some s.flushPara.flushTable
  | .chart index => do
    let spec ← charts[index]?
    return s.flushPara.flushTable.emit (.chart spec (← fallback spec))
  | .row cells =>
    let s := s.flushPara
    some { s with table := s.table ++ [cells] }
  | .quote text =>
    let s := s.flushTable.flushPara
    let quoted := cleanInline text
    some (if quoted.isEmpty then s else s.emit (.paragraph quoted 1))
  | .heading marks text => some (s.flushTable.flushPara.emit (headingOf marks (strip (cleanInline text))))
  | .item level text => some (s.flushTable.flushPara.emit (.paragraph (cleanInline text) level))
  | .words text =>
    let s := s.flushTable
    some { s with para := s.para ++ [text] }

def readLines (s : Reader) : List Line → Option Reader
  | [] => some s.flushPara.flushTable
  | line :: lines => do readLines (← readLine fallback charts s line) lines

end Lines

/-- The lines of a body, its charts behind tokens. -/
def linesOf (md : Text) : List Line := (splitLines (extractCharts md).1).map lineOf

/-- The blocks of a body, where `fallback` gives the table that a chart brings along. -/
def blocksWith (fallback : ChartSpec → Option (Option Table)) (md : Text) : Option (List Block) :=
  (readLines fallback (extractCharts md).2 ⟨[], [], []⟩ (linesOf md)).map Reader.blocks

def firstTable : List Block → Option Table
  | [] => none
  | .table t :: _ => some t
  | _ :: bs => firstTable bs

/-- `_fallback_table`; a table is shorter than the body that its chart stands in. -/
def fallbackTable : Nat → ChartSpec → Option (Option Table)
  | 0, _ => some none
  | n + 1, spec =>
    if spec.table.isEmpty then some none else (blocksWith (fallbackTable n) spec.table).map firstTable

/-- `markdown_to_blocks` -/
def markdownToBlocks (md : Text) : Option (List Block) := blocksWith (fallbackTable md.length) md

variable {bs : List Block}

theorem popUnit_eq (bs : List Block) :
    (popUnit bs).1 = bs ∨ ∃ text indent, bs = (popUnit bs).1 ++ [.paragraph text indent] := by
  unfold popUnit
  split
  · rename_i text indent hlast
    split
    · exact .inr ⟨text, indent, (List.dropLast_append_getLast? _ hlast).symm⟩
    · exact .inl rfl
  · exact .inl rfl

/-- Only paragraphs are taken away for a caption. -/
theorem popTableCaption_eq (bs : List Block) : ∃ ps, bs = (popTableCaption bs).1 ++ ps ∧
    ∀ b ∈ ps, ∃ text indent, b = .paragraph text indent := by
  have hunit : ∃ ps, bs = (popUnit bs).1 ++ ps ∧ ∀ b ∈ ps, ∃ text indent, b = .paragraph text indent := by
    rcases popUnit_eq bs with h | ⟨text, indent, h⟩
    · exact ⟨[], by simp [h], by simp⟩
    · exact ⟨[.paragraph text indent], h, by simp⟩
  obtain ⟨ps, hps, hparagraphs⟩ := hunit
  unfold popTableCaption
  dsimp only
  split
  · rename_i text indent hlast
    split
    · refine ⟨.paragraph text indent :: ps, ?_, ?_⟩
      · have hdrop := List.dropLast_append_getLast? _ hlast
        rw [List.append_cons, hdrop]
        exact hps
      · intro b hb
        rcases List.mem_cons.mp hb with rfl | hb
        · exact ⟨text, indent, rfl⟩
        · exact hparagraphs b hb
    · exact ⟨ps, hps, hparagraphs⟩
  · exact ⟨ps, hps, hparagraphs⟩

theorem table_flushPara (s : Reader) : s.flushPara.table = s.table := by
  unfold Reader.flushPara
  split <;> rfl

theorem table_flushTable (s : Reader) : s.flushTable.table = [] := by
  unfold Reader.flushTable
  dsimp only
  split <;> rfl

end RownRg.Export

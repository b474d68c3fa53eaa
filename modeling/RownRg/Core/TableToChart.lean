import Mathlib.Data.List.Dedup
import RownRg.Core.ChartSpec

/-! Markdown tables as charts: reading a table, choosing how to draw it, building the chart. -/

open PyText Regex RownRg.Charts RownRg.Citations

namespace RownRg.Tables

inductive CaptionGroup where
  | rest
  deriving DecidableEq

variable {γ : Type}

/-- One of some texts. -/
def words (ts : List String) : Regex γ := anyOf (ts.map fun t => lit t.toList)

/-- `[（(]` -/
def openParen : Regex γ := oneOf "（(".toList

/-- `[）)]` -/
def closeParen : Regex γ := oneOf "）)".toList

/-- `[:：]` -/
def colon : Regex γ := oneOf ":：".toList

/-- A caption line; the group is the title behind its label. -/
def captionRe : Regex CaptionGroup :=
  cat [textStart,
    alt (cat [chr '[', spaces, chr '표', star (noneOf "]".toList), chr ']'])
      (cat [chr '표', spaces, star (cls fun c => isDigit c || c == '-'), spaces, colon]),
    spaces, group .rest (plus dot), textEnd]

/-- `\d{1,3}` -/
def number : Regex γ := between digit 1 3

def sourceMarkRe : Regex CaptionGroup :=
  cat [lit "(출처".toList, spaces,
    group .rest (seq number (star (cat [spaces, chr ',', spaces, number]))), spaces, chr ')']

def separatorRe : Regex Unit :=
  cat [textStart, opt (chr '|'), plus (cls fun c => isSpace c || ":|-".toList.contains c),
    opt (chr '|'), textEnd]

/-- The unit in parentheses at the end of a header. -/
def trailingParenRe : Regex CaptionGroup :=
  cat [openParen, spaces, opt (cat [lit "단위".toList, spaces, colon, spaces]),
    group .rest (plus (noneOf "）)".toList)), spaces, closeParen, spaces, textEnd]

def captionUnitRe : Regex CaptionGroup :=
  cat [spaces, openParen, spaces, lit "단위".toList, spaces, colon, spaces,
    group .rest (lazy (noneOf ")）".toList)), spaces, closeParen, spaces, textEnd]

def ambiguousSigns : Text := "▲▼".toList

/-- A sign, a number and up to four characters of a unit. -/
def numericCellRe : Regex Unit :=
  cat [textStart, opt (oneOf "+-−–△▽".toList), spaces, digit,
    star (cls fun c => isDigit c || c == ','), opt (cat [chr '.', plus digit]),
    upTo (cls fun c => !isDigit c && !isSpace c) 4, textEnd]

structure MarkdownTable where
  caption : Text
  captionUnit : Text
  headers : List Text
  rows : List (List Text)
  source : List Nat
  deriving DecidableEq

structure ConvertChoice where
  type : ChartType
  xCol : Nat
  seriesCols : List Nat
  title : Text
  unit : Text
  deriving DecidableEq

def stripMarkers (cell : Text) : Text := strip (markRe.sub (fun _ => [' ']) cell)

def tryNumber (token : Text) : Option ℚ := signedNumber token

def isNumericCell (cell : Text) : Bool :=
  let text := stripMarkers cell
  !text.any ambiguousSigns.contains && (numericCellRe.matchStart text).isSome

def cells (line : Text) : List Text :=
  let stripped := strip line
  let stripped := if stripped.head? = some '|' then stripped.drop 1 else stripped
  let stripped := if stripped.getLast? = some '|' then stripped.dropLast else stripped
  (stripped.splitOn '|').map fun c => strip (replaceAll "**".toList [] c)

/-- Blanks and a bar at the start of a line. -/
def isTableLine (line : Text) : Bool := (lstrip line).head? == some '|'

def isTableCaption (block : Text) : Bool :=
  let text := strip (sourceMarkRe.sub (fun _ => []) block)
  !text.contains '\n' && (captionRe.matchStart text).isSome

/-- The numbers of the source marks of a block. -/
def sourceNumbers (block : Text) : List Nat :=
  ((sourceMarkRe.finditer block).flatMap fun m =>
    (((m.group .rest).getD []).splitOn ',').map fun part => natOf (strip part)).eraseDups

/-- The title of the text before a table, and the unit at its end. -/
def readCaption (before : Text) : Text × Text :=
  let caption :=
    match captionRe.matchStart (strip (sourceMarkRe.sub (fun _ => []) before)) with
    | none => []
    | some m => strip ((m.group .rest).getD [])
  match firstHit (captionUnitRe.pieces caption) with
  | none => (caption, [])
  | some (start, m) => (strip start, (m.group .rest).getD [])

/-- A row as long as the header row. -/
def padded (n : Nat) (row : List Text) : List Text := (List.range n).map fun i => row.getD i []

def findTable (block : Text) : Option MarkdownTable :=
  if contains "```".toList block then none
  else
    let lines := block.splitOn '\n'
    let tableLines := (lines.dropWhile fun l => !isTableLine l).takeWhile isTableLine
    let table :=
      (tableLines.filter fun l => (separatorRe.matchStart (strip l)).isNone).map cells
    match table with
    | headers :: rows =>
      if rows.length < 2 then none
      else
        let before := strip (joinWith [' '] (lines.takeWhile fun l => !isTableLine l))
        let (caption, captionUnit) := readCaption before
        some {
          caption
          captionUnit
          headers
          rows := rows.map (padded headers.length)
          source := sourceNumbers block }
    | [] => none

def cell (row : List Text) (col : Nat) : Text := row.getD col []

def MarkdownTable.header (table : MarkdownTable) (col : Nat) : Text := cell table.headers col

def numericColumns (table : MarkdownTable) : List Nat :=
  (List.range table.headers.length).filter fun col =>
    !table.rows.isEmpty && table.rows.all fun r => isNumericCell (cell r col)

/-- A header without its unit, and the unit. -/
def splitUnit (header : Text) : Text × Text :=
  match firstHit (trailingParenRe.pieces header) with
  | none => (strip header, [])
  | some (start, m) =>
    (if (strip start).isEmpty then strip header else strip start, strip ((m.group .rest).getD []))

/-- `a or b` -/
def orElse (a b : Text) : Text := if a.isEmpty then b else a

def defaultChoice (table : MarkdownTable) : ConvertChoice :=
  let numeric := numericColumns table
  let xCol := ((List.range table.headers.length).find? fun i => !numeric.contains i).getD 0
  let candidates := numeric.filter (· != xCol)
  let headerUnit :=
    match candidates with
    | [] => []
    | c :: _ => (splitUnit (table.header c)).2
  { type := .bar
    xCol
    seriesCols := (candidates.filter fun c =>
      (splitUnit (table.header c)).2 == headerUnit).take maxSeries
    title := table.caption
    unit := orElse headerUnit table.captionUnit }

/-- What the message about an ambiguous cell tells: the row, the cell and the number taken. -/
structure AmbiguousCell where
  label : Text
  cell : Text
  taken : Option ℚ
  deriving DecidableEq

def ambiguousCell (table : MarkdownTable) (xCol : Nat) (seriesCols : List Nat) :
    Option AmbiguousCell :=
  table.rows.findSome? fun row => seriesCols.findSome? fun col =>
    let text := stripMarkers (cell row col)
    if 1 < (numberRe.finditer text).length then some ⟨cell row xCol, text, tryNumber text⟩ else none

/-- `try_number(strip_markers(cell)) or 0.0` -/
def valueOf (c : Text) : ℚ := (tryNumber (stripMarkers c)).getD 0

def buildSpec (table : MarkdownTable) (choice : ConvertChoice) (originalBlock : Text) : ChartSpec :=
  let rows := table.rows.filter fun r => !(strip (cell r choice.xCol)).isEmpty
  { type := choice.type
    title := strip choice.title
    x := rows.map fun r => strip (cell r choice.xCol)
    series := choice.seriesCols.map fun col =>
      { name := orElse (splitUnit (table.header col)).1 ("계열 ".toList ++ ofNat (col + 1))
        values := rows.map fun r => valueOf (cell r col) }
    unit := strip choice.unit
    source := table.source
    table := strip originalBlock }

/-! The verdict. -/

def autoMinPoints : Nat := 3

def autoMaxPoints : Nat := 12

def autoMaxLabelLen : Nat := 20

/-- A letter in either case, with the letters beside it that a match without case takes for it. -/
def letter (c : Char) : Regex γ :=
  cls fun d => d.toLower == c || (c == 's' && d == 'ſ') || (c == 'i' && (d == 'İ' || d == 'ı'))

/-- An English word in either case. -/
def word (t : String) : Regex γ := cat (t.toList.map letter)

/-- `\d{1,2}\s*월` -/
def month : Regex γ := cat [between digit 1 2, spaces, chr '월']

/-- `[1-4]` -/
def quarterDigit : Regex γ := oneOf "1234".toList

def timePointRe : Regex Unit :=
  cat [textStart, anyOf [
    cat [alt (seq (chr '\'') (between digit 2 2)) (between digit 4 4), spaces,
      opt (seq (chr '년') (opt (chr '도'))),
      opt (seq spaces (anyOf [lit "상반기".toList, lit "하반기".toList,
        cat [quarterDigit, spaces, alt (lit "분기".toList) (letter 'q')], month]))],
    cat [quarterDigit, spaces, lit "분기".toList], month, lit "상반기".toList,
    lit "하반기".toList], textEnd]

def shareHeaderRe : Regex Unit :=
  anyOf [lit "비중".toList, lit "점유율".toList, lit "구성비".toList,
    cat [lit "구성".toList, spaces, lit "비율".toList], lit "비율".toList,
    word "share", word "portion", word "mix"]

def totalRowRe : Regex Unit :=
  alt (cat [textStart, anyOf [cat [chr '합', spaces, chr '계'], chr '계',
      cat [chr '총', spaces, chr '계'], cat [chr '소', spaces, chr '계'],
      cat [chr '전', spaces, chr '체'], cat [chr '누', spaces, chr '계'],
      word "total", word "sum", word "subtotal"], textEnd])
    (lit "합산".toList)

/-- Why a table stays a table. -/
inductive SkipReason where
  | noTitle
  | noValueColumn
  | mixedUnits
  | tooManySeries
  | severalNumbers
  | emptyLabel
  | repeatedLabel
  | fewItems
  | manyItems
  | wordyLabel
  | mixedRowUnits
  | indexColumn
  | constant
  | numericAxis
  deriving DecidableEq

def SkipReason.label : SkipReason → String
  | .noTitle => "제목 없음"
  | .noValueColumn => "값 열 없음"
  | .mixedUnits => "단위 혼합"
  | .tooManySeries => "계열 상한 초과"
  | .severalNumbers => "한 칸 다중 숫자"
  | .emptyLabel => "빈 x축 라벨"
  | .repeatedLabel => "x축 라벨 중복"
  | .fewItems => "항목 부족"
  | .manyItems => "항목 과다"
  | .wordyLabel => "x축 라벨 서술형"
  | .mixedRowUnits => "행 단위 혼합"
  | .indexColumn => "순번 열"
  | .constant => "값 변화 없음"
  | .numericAxis => "수치 x축"

/-- A choice, or why there is none. -/
abbrev AutoVerdict := Except SkipReason ConvertChoice

def unitTail (label : Text) : Text :=
  let tail := (splitUnit label).2
  if 0 < tail.length ∧ tail.length ≤ 6 ∧ !tail.any isSpace then tail else []

def rowUnitsMixed (labels : List Text) : Bool :=
  let units := (labels.map unitTail).dedup
  1 < units.length && units.any fun u => !u.isEmpty

def isIndexSeries (table : MarkdownTable) (col : Nat) : Bool :=
  let values := table.rows.map fun r => tryNumber (stripMarkers (cell r col))
  values == (List.range values.length).map fun i => some (i + 1 : ℚ)

def isTimeAxis (labels : List Text) : Bool :=
  labels.all fun label => (timePointRe.matchStart (strip label)).isSome

/-- The choice of a pie: one column that shares out the whole. -/
def pieChoice (table : MarkdownTable) (choice : ConvertChoice) (labels : List Text) :
    Option ConvertChoice :=
  match choice.seriesCols with
  | [col] =>
    let (headerName, headerUnit) := splitUnit (table.header col)
    let unit := orElse headerUnit table.captionUnit
    let colValues := table.rows.map fun r => valueOf (cell r col)
    let hasTotalRow := table.rows.any fun r =>
      (totalRowRe.matchStart (strip (cell r choice.xCol))).isSome
    if shareHeaderRe.found headerName ∧ (strip unit = ['%'] ∨ strip unit = ['％']) ∧
        !hasTotalRow ∧ (∀ v ∈ colValues, 0 ≤ v) ∧ 90 ≤ colValues.sum ∧ colValues.sum ≤ 110 ∧
        labels.length ≤ maxSeries then
      some { choice with type := .pie, unit }
    else none
  | _ => none

def autoChoice (table : MarkdownTable) : AutoVerdict :=
  if (strip table.caption).isEmpty then .error .noTitle
  else
    let choice := defaultChoice table
    let numeric := (numericColumns table).filter (· != choice.xCol)
    let labels := (table.rows.map fun r => strip (cell r choice.xCol)).filter fun l => !l.isEmpty
    let values := choice.seriesCols.flatMap fun c => table.rows.map fun r => valueOf (cell r c)
    if choice.seriesCols.isEmpty then .error .noValueColumn
    else if choice.seriesCols.length < numeric.length then .error .mixedUnits
    else if maxSeries < numeric.length then .error .tooManySeries
    else if (ambiguousCell table choice.xCol choice.seriesCols).isSome then .error .severalNumbers
    else if labels.length ≠ table.rows.length then .error .emptyLabel
    else if ¬ labels.Nodup then .error .repeatedLabel
    else if labels.length < autoMinPoints then .error .fewItems
    else if autoMaxPoints < labels.length then .error .manyItems
    else if labels.any fun l => autoMaxLabelLen < l.length then .error .wordyLabel
    else if rowUnitsMixed labels then .error .mixedRowUnits
    else if choice.seriesCols.any (isIndexSeries table) then .error .indexColumn
    else if values.dedup.length = 1 then .error .constant
    else
      match pieChoice table choice labels with
      | some pie => .ok pie
      | none =>
        if isTimeAxis labels then .ok { choice with type := .line }
        else if labels.all fun l => (tryNumber l).isSome then .error .numericAxis
        else .ok choice

end RownRg.Tables

import RownRg.Core.ChartFences
import RownRg.Core.State
import RownRg.Lib.Decimal

/-! What a chart fence says: reading it as a chart, and writing a chart as a fence. -/

open PyText Regex

namespace RownRg.Charts

inductive ChartType where
  | bar
  | line
  | pie
  deriving DecidableEq

def ChartType.name : ChartType → Text
  | .bar => "bar".toList
  | .line => "line".toList
  | .pie => "pie".toList

/-- `CHART_TYPES`; the letters of the names have no other capitals than those of ASCII. -/
def ChartType.ofName? (t : Text) : Option ChartType :=
  [ChartType.bar, .line, .pie].find? fun ty => ty.name = t.map Char.toLower

structure ChartSeries where
  name : Text
  values : List ℚ
  deriving DecidableEq

structure ChartSpec where
  type : ChartType
  title : Text
  x : List Text
  series : List ChartSeries
  unit : Text
  source : List Nat
  table : Text
  deriving DecidableEq

/-- The number of series colours. -/
def maxSeries : Nat := 5

/-- `ChartSpecError` by what its message tells. -/
inductive ChartSpecError where
  | unsupportedType (type : Text)
  | fewLabels
  | badSeries (raw : Text)
  | badNumber (token : Text)
  | valueCount (name : Text) (values labels : Nat)
  | noSeries
  | tooManySeries (n : Nat)
  | pieSeries
  | tooManySlices (n : Nat)
  deriving DecidableEq

inductive FieldGroup where
  | key
  | value
  deriving DecidableEq

inductive SeriesGroup where
  | name
  | values
  deriving DecidableEq

variable {γ : Type}

/-- `.` -/
def dot : Regex γ := cls (· != '\n')

def isKeyChar (c : Char) : Bool := ('a' ≤ c && c ≤ 'z') || c == '_'

def fieldRe : Regex FieldGroup :=
  cat [textStart, group .key (plus (cls isKeyChar)), blanks, chr ':', blanks,
    group .value (star dot), textEnd]

def seriesRe : Regex SeriesGroup :=
  cat [textStart, group .name (seq dot (lazy dot)), blanks, chr '=', blanks,
    group .values (plus dot), textEnd]

/-- `-?\d[\d,]*(?:\.\d+)?` -/
def numberRe : Regex Unit :=
  cat [opt (chr '-'), digit, star (cls fun c => isDigit c || c == ','),
    opt (cat [chr '.', plus digit])]

def negativeSigns : Text := "△▽−–-".toList

/-- The first number of a token, negative behind a sign; `none` without a number. -/
def signedNumber (token : Text) : Option ℚ :=
  (firstHit (numberRe.pieces token)).map fun x =>
    let value := signedFloatOf (x.2.text.filter (· != ','))
    if (strip x.1).getLast?.any negativeSigns.contains then -|value| else value

def splitList (value : Text) : List Text :=
  ((value.splitOn '|').map strip).filter fun part => !part.isEmpty

def splitNumbers (value : Text) : List Text :=
  ((value.splitOn ',').map strip).filter fun part => !part.isEmpty

def parseNumber (token : Text) : Except ChartSpecError ℚ :=
  match signedNumber token with
  | none => .error (.badNumber token)
  | some value => .ok value

/-- A line of the block behind `key: |`. -/
def isBlockLine (l : Text) : Bool :=
  (strip l).isEmpty || l.head?.any fun c => c == ' ' || c == '\t'

/-- The fields in their order (the last of a key counts) and the series lines. -/
def parseFieldsFrom : Nat → List Text → List (Text × Text) × List Text
  | 0, _ | _ + 1, [] => ([], [])
  | n + 1, line :: lines =>
    match fieldRe.matchStart (strip line) with
    | none => parseFieldsFrom n lines
    | some m =>
      let key := (m.group .key).getD []
      let value := strip ((m.group .value).getD [])
      if value = ['|'] then
        let block := (lines.takeWhile isBlockLine).map strip
        let (fields, series) := parseFieldsFrom n (lines.dropWhile isBlockLine)
        ((key, strip (joinLines block)) :: fields, series)
      else
        let (fields, series) := parseFieldsFrom n lines
        if key = "series".toList then (fields, value :: series) else ((key, value) :: fields, series)

def parseFields (lines : List Text) : List (Text × Text) × List Text :=
  parseFieldsFrom lines.length lines

/-- `fields.get(key, "").strip()` -/
def field (fields : List (Text × Text)) (key : Text) : Text :=
  strip ((lastFor key fields).getD [])

def parseSeries (labels : Nat) (raw : Text) : Except ChartSpecError ChartSeries :=
  match seriesRe.matchStart raw with
  | none => .error (.badSeries raw)
  | some m => do
    let name := strip ((m.group .name).getD [])
    let values ← (splitList ((m.group .values).getD [])).mapM parseNumber
    if values.length ≠ labels then .error (.valueCount name values.length labels)
    else .ok ⟨name, values⟩

def checkSeries (type : ChartType) (x : List Text) (series : List ChartSeries) :
    Except ChartSpecError Unit :=
  if series.isEmpty then .error .noSeries
  else if maxSeries < series.length then .error (.tooManySeries series.length)
  else if type = .pie ∧ series.length ≠ 1 then .error .pieSeries
  else if type = .pie ∧ maxSeries < x.length then .error (.tooManySlices x.length)
  else .ok ()

/-- The numbers of a source field. -/
def sourceField (fields : List (Text × Text)) : List Nat :=
  (splitNumbers ((lastFor "source".toList fields).getD [])).filterMap toNat?

def parseChartSpec (body : Text) : Except ChartSpecError ChartSpec :=
  let (fields, seriesLines) := parseFields (splitLines body)
  match ChartType.ofName? (field fields "type".toList) with
  | none => .error (.unsupportedType (field fields "type".toList))
  | some type =>
    let x := splitList ((lastFor "x".toList fields).getD [])
    if x.length < 2 then .error .fewLabels
    else do
      let series ← seriesLines.mapM (parseSeries x.length)
      checkSeries type x series
      return {
        type
        title := field fields "title".toList
        x
        series
        unit := field fields "unit".toList
        source := sourceField fields
        table := (lastFor "table".toList fields).getD [] }

/-- What a series line says behind its key. -/
def seriesText (s : ChartSeries) : Text :=
  s.name ++ " = ".toList ++ joinWith " | ".toList (s.values.map formatGeneral)

def fenceLines (spec : ChartSpec) : List Text :=
  ["type: ".toList ++ spec.type.name, "title: ".toList ++ spec.title] ++
  (if spec.unit.isEmpty then [] else ["unit: ".toList ++ spec.unit]) ++
  ["x: ".toList ++ joinWith " | ".toList spec.x] ++
  spec.series.map (fun s => "series: ".toList ++ seriesText s) ++
  (if spec.source.isEmpty then []
    else ["source: ".toList ++ joinWith ", ".toList (spec.source.map ofNat)]) ++
  (if spec.table.isEmpty then []
    else "table: |".toList :: (splitLines spec.table).map ("  ".toList ++ ·))

def toFence (spec : ChartSpec) : Text :=
  "```chart\n".toList ++ joinLines (fenceLines spec) ++ "\n```".toList

end RownRg.Charts

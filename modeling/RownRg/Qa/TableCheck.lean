import RownRg.Core.Citations
import RownRg.Lib.Decimal
import RownRg.Lib.Groups
import RownRg.Lib.Lexing
import RownRg.Qa.Numbers

/-! The numbers of tables: shares that should come to a hundred, and rows of totals. -/

open PyText Regex RownRg.Citations RownRg.Gate

namespace RownRg.TableCheck

/-- `_TABLE_LINE_RE` -/
def tableLineRe : Regex Unit :=
  cat [textStart, star space, chr '|', star (cls (· != '\n')), chr '|', star space, textEnd]

def isTableLine (line : Text) : Bool := (tableLineRe.matchStart line).isSome

/-- `_SEP_CELL_RE` -/
def sepCellRe : Regex Unit :=
  cat [textStart, star space, opt (chr ':'), chr '-', plus (chr '-'), opt (chr ':'), star space,
    textEnd]

/-- `_PAREN_RE` -/
def parenRe : Regex Unit := cat [chr '(', star (cls (· != ')')), chr ')']

/-- `_EMPHASIS_RE` -/
def emphasisRe : Regex Unit := oneOf "*_`".toList

structure TableCell where
  rowLabel : Text
  colHeader : Text
  token : Text
  norm : Text
  isPercent : Bool
  deriving DecidableEq

/-- `_cells_of` -/
def cellsOf (line : Text) : List Text :=
  let s := strip line
  let s := if ['|'].isPrefixOf s then s.drop 1 else s
  let s := if ['|'].isSuffixOf s then s.dropLast else s
  (s.splitOn '|').map strip

/-- `_clean_label` -/
def cleanLabel (cell : Text) : Text :=
  strip ((plus space : Regex Unit).sub (fun _ => [' '])
    (emphasisRe.sub (fun _ => []) (parenRe.sub (fun _ => []) cell)))

def isSeparatorRow (cells : List Text) : Bool :=
  cells.all fun c => (sepCellRe.matchStart c).isSome || c.isEmpty

/-- The stretches of table lines behind the open one, each with the number of its first line. -/
def tableRuns : Nat → List Text → List Text → List (Nat × List Text)
  | i, run, [] => if run.isEmpty then [] else [(i - run.length, run)]
  | i, run, line :: lines =>
    if isTableLine line then tableRuns (i + 1) (run ++ [line]) lines
    else (if run.isEmpty then [] else [(i - run.length, run)]) ++ tableRuns (i + 1) [] lines

def runsOf (content : Text) : List (Nat × List Text) := tableRuns 0 [] (content.splitOn '\n')

variable (isAlnum : Char → Bool)

/-- The numbers of one cell. -/
def cellNumbers (label header cell : Text) : List TableCell :=
  (significantNumbers isAlnum (markRe.sub (fun _ => [' ']) cell)).map fun token =>
    ⟨label, header, token, normalizeNumber token, token.getLast? = some '%'⟩

def labelOf (row : List Text) : Text := cleanLabel (row.headD [])

def headerOf (headers : List Text) (col : Nat) : Text := (headers[col]?.map cleanLabel).getD []

def rowNumbers (headers row : List Text) : List TableCell :=
  if isSeparatorRow row then []
  else row.zipIdx.tail.flatMap fun x =>
    cellNumbers isAlnum (labelOf row) (headerOf headers x.2) x.1

/-- The numbers of one table. -/
def runNumbers (run : List Text) : List TableCell :=
  if run.length < 2 then []
  else ((run.map cellsOf).tail).flatMap (rowNumbers isAlnum ((run.map cellsOf).headD []))

/-- `table_numeric_cells` -/
def tableNumericCells (content : Text) : List TableCell :=
  (runsOf content).flatMap fun x => runNumbers isAlnum x.2

/-- `_SHARE_HEADER_RE` -/
def shareHeaderRe : Regex Unit :=
  anyOf [lit "비중".toList, lit "점유율".toList, lit "구성비".toList,
    cat [lit "구성".toList, star space, lit "비율".toList], lit "비율".toList,
    anyCase "share".toList, anyCase "portion".toList, anyCase "mix".toList]

def twoParts (a b : Char) : Regex Unit := cat [chr a, star space, chr b]

/-- `_TOTAL_ROW_RE` -/
def totalRowRe : Regex Unit :=
  alt (cat [textStart, anyOf [twoParts '합' '계', chr '계', twoParts '총' '계', twoParts '소' '계',
      twoParts '전' '체', twoParts '누' '계', anyCase "total".toList, anyCase "sum".toList,
      anyCase "subtotal".toList], textEnd])
    (lit "합산".toList)

/-- `_SHARE_MIN_ITEMS` -/
def shareMinItems : Nat := 4

/-- `_SHARE_TOLERANCE` -/
def shareTolerance : ℚ := 2

/-- `_SHARE_SUM_BAND` -/
def shareSumBand : ℚ × ℚ := (90, 110)

/-- A share that is added up: its column, its row and its value. -/
structure Share where
  header : Text
  label : Text
  value : ℚ
  deriving DecidableEq

def shareOf (cell : TableCell) : Option Share :=
  if !cell.isPercent || !shareHeaderRe.found cell.colHeader then none
  else if totalRowRe.found (strip cell.rowLabel) then none
  else some ⟨cell.colHeader, cell.rowLabel, floatOf cell.norm⟩

def sharesOf (content : Text) : List Share := (tableNumericCells isAlnum content).filterMap shareOf

/-- `by_column` -/
def columns (content : Text) : List (Text × List Share) :=
  FirstSeen.groups Share.header (sharesOf isAlnum content)

def shownShares (items : List Share) : Text :=
  joinWith ", ".toList ((items.take 4).map fun s => s.label ++ ' ' :: formatGeneral s.value ++ ['%'])

def columnMismatch (column : Text × List Share) : List Text :=
  let total := (column.2.map Share.value).sum
  if column.2.length < shareMinItems then []
  else if |total - 100| ≤ shareTolerance then []
  else if ¬ (shareSumBand.1 ≤ total ∧ total ≤ shareSumBand.2) then []
  else ['\'' :: column.1 ++ "' 열의 합이 ".toList ++ formatGeneral total ++ "% (항목 ".toList ++
    ofNat column.2.length ++ "개: ".toList ++ shownShares column.2 ++
    (if 4 < column.2.length then " …".toList else []) ++ [')']]

/-- `table_share_sum_mismatches` -/
def tableShareSumMismatches (content : Text) : List Text :=
  (columns isAlnum content).flatMap columnMismatch

/-- `\d[\d,]*` -/
def amount {γ : Type} : Regex γ := seq digit (star (cls fun c => isDigit c || c == ','))

def amountOf (t : Text) : ℚ := floatOf (t.filter (· ≠ ','))

/-- `_PROSE_TOTAL_RE` -/
def proseTotalRe : Regex Unit :=
  cat [anyOf [lit ['총'], lit "전체".toList, lit "도합".toList, lit "모두".toList, lit "합계".toList],
    star space, upToLazy (cls fun c => ('가' ≤ c && c ≤ '힣') || c == ' ') 12, group () amount,
    star space, anyOf [chr '건', chr '개', chr '명', chr '곳', lit "개사".toList, lit "과제".toList,
      lit "품목".toList, chr '종']]

/-- `\s*\+\s*` -/
def plusRe {γ : Type} : Regex γ := cat [star space, chr '+', star space]

/-- `_ADDITION_RE`; the terms are group 1, the sum is group 2. -/
def additionRe : Regex Nat :=
  cat [group 1 (seq amount (plus (seq plusRe amount))), star space, chr '=', star space,
    group 2 amount]

/-- `_SUM_MIN_ITEMS` -/
def sumMinItems : Nat := 3

/-- `_TOTAL_CLAIM_WINDOW` -/
def totalClaimWindow : Nat := 6

/-- A table of `_table_blocks`: its first and its last line, and its cells. -/
structure TableBlock where
  start : Nat
  stop : Nat
  rows : List (List Text)
  deriving DecidableEq

/-- `_table_blocks` -/
def tableBlocks (content : Text) : List TableBlock :=
  (runsOf content).filterMap fun x =>
    let block := (x.2.map cellsOf).filter fun cells => !isSeparatorRow cells
    if block.length < 2 then none else some ⟨x.1, x.1 + x.2.length - 1, block⟩

/-- `_WHOLE_CELL_NUM_RE` -/
def wholeCellNumRe : Regex Unit :=
  cat [textStart, group () (seq amount (opt (cat [chr '.', plus digit]))), star space,
    opt (anyOf [chr '건', chr '개', chr '명', chr '곳', lit "개사".toList, lit "과제".toList,
      lit "품목".toList, chr '종', chr '회', lit "억원".toList, lit "억 원".toList, chr '억']),
    textEnd]

/-- `_cell_number` -/
def cellNumber (cell : Text) : Option ℚ :=
  (wholeCellNumRe.matchStart (strip (markRe.sub (fun _ => [' ']) cell))).map fun m =>
    amountOf ((m.group ()).getD [])

def numberAt (row : List Text) (col : Nat) : Option ℚ := row[col]?.bind cellNumber

def isTotalRow (row : List Text) : Bool := totalRowRe.found (strip (labelOf row))

namespace TableBlock

def headers (t : TableBlock) : List Text := t.rows.headD []

def dataRows (t : TableBlock) : List (List Text) := t.rows.tail.filter fun row => !isTotalRow row

/-- `total_row`: the last of them. -/
def totalRow (t : TableBlock) : Option (List Text) := (t.rows.tail.filter isTotalRow).getLast?

def columnValues (t : TableBlock) (col : Nat) : List ℚ := t.dataRows.filterMap (numberAt · col)

def width (t : TableBlock) : Nat := (t.dataRows.map List.length).max?.getD 0

/-- `col_sums` -/
def colSums (t : TableBlock) : List (Nat × ℚ) :=
  if t.dataRows.length < sumMinItems then []
  else (List.range' 1 (t.width - 1)).filterMap fun col =>
    if sumMinItems ≤ (t.columnValues col).length then some (col, (t.columnValues col).sum) else none

def columnName (t : TableBlock) (col : Nat) : Text :=
  match t.headers[col]? with
  | some header => cleanLabel header
  | none => ofNat col ++ ['열']

end TableBlock

inductive Finding where
  | totalRow (header : Text) (total shown : ℚ)
  | proseTotal (claim header : Text) (total : ℚ) (line : Text)
  | addition (terms shown : Text) (sum : ℚ)
  deriving DecidableEq

def Finding.text : Finding → Text
  | .totalRow header total shown =>
    '\'' :: header ++ "' 열 합 ".toList ++ formatGeneral total ++ " vs 합계 행 ".toList ++
      formatGeneral shown
  | .proseTotal claim header total line =>
    "본문 총계 주장 ".toList ++ claim ++ " vs '".toList ++ header ++ "' 열 합 ".toList ++
      formatGeneral total ++ " (\"".toList ++ (strip line).take 40 ++ "…\")".toList
  | .addition terms shown sum =>
    "덧셈식 불일치: ".toList ++ terms ++ " = ".toList ++ shown ++ " (실제 ".toList ++
      formatGeneral sum ++ [')']

def Finding.isTotalRow : Finding → Bool
  | .totalRow .. => true
  | _ => false

/-- The sums of the columns against the row of totals. -/
def rowFindings (t : TableBlock) : List Finding :=
  match t.totalRow with
  | none => []
  | some row => t.colSums.filterMap fun x =>
    match numberAt row x.1 with
    | some shown =>
      if 1 / 2 < |shown - x.2| then some (.totalRow (t.columnName x.1) x.2 shown) else none
    | none => none

/-- The totals that the lines around a table name. -/
def proseFindings (lines : List Text) (t : TableBlock) : List Finding :=
  let lo := t.start - totalClaimWindow
  let around := (lines.take t.start).drop lo ++
    (lines.take (t.stop + 1 + totalClaimWindow)).drop (t.stop + 1)
  (around.filter fun line => !isTableLine line).flatMap fun line =>
    (proseTotalRe.finditer line).flatMap fun m =>
      let claim := amountOf ((m.group ()).getD [])
      t.colSums.filterMap fun x =>
        if x.2 ≤ 0 ∨ claim = x.2 then none
        else if max claim x.2 / max (min claim x.2) (1 / 10) < 10 ∧ 1 / 2 < |claim - x.2| then
          some (.proseTotal ((m.group ()).getD []) (t.columnName x.1) x.2 line)
        else none

/-- The additions that the text writes out. -/
def additionFindings (content : Text) : List Finding :=
  (additionRe.finditer content).filterMap fun m =>
    let terms := (plusRe : Regex Unit).split ((m.group 1).getD [])
    let sum := (terms.map amountOf).sum
    if 1 / 2 < |sum - amountOf ((m.group 2).getD [])| then
      some (.addition ((m.group 1).getD []) ((m.group 2).getD []) sum)
    else none

def totalFindings (content : Text) : List Finding :=
  ((tableBlocks content).flatMap fun t =>
    rowFindings t ++ proseFindings (content.splitOn '\n') t) ++ additionFindings content

/-- `table_total_mismatches` -/
def tableTotalMismatches (content : Text) : List Text := (totalFindings content).map Finding.text

variable {i j : Nat} {run lines : List Text} {content : Text} {texts : List Text} {x : Nat × List Text}
  {t : TableBlock} {row : List Text} {col : Nat}

/-! The tables of a text, one by one. -/

/-- `"\n\n".join(texts)` -/
def document (texts : List Text) : Text := joinWith "\n\n".toList texts

/-- The single tables, each as a text of its own. -/
def tableTexts (content : Text) : List Text := (runsOf content).map fun x => joinWith ['\n'] x.2

theorem tableRuns_nil (i : Nat) (run : List Text) :
    tableRuns i run [] = if run.isEmpty then [] else [(i - run.length, run)] := rfl

theorem tableRuns_cons (i : Nat) (run lines : List Text) (line : Text) :
    tableRuns i run (line :: lines) =
      if isTableLine line then tableRuns (i + 1) (run ++ [line]) lines
      else (if run.isEmpty then [] else [(i - run.length, run)]) ++ tableRuns (i + 1) [] lines :=
  rfl

theorem tableRuns_shift (i j : Nat) (run lines : List Text) :
    (tableRuns i run lines).map Prod.snd = (tableRuns j run lines).map Prod.snd := by
  induction lines generalizing i j run with
  | nil => by_cases h : run.isEmpty <;> simp [tableRuns_nil, h]
  | cons line lines ih =>
    rw [tableRuns_cons, tableRuns_cons]
    split
    · exact ih (i + 1) (j + 1) _
    · rw [List.map_append, List.map_append, ih (i + 1) (j + 1)]
      by_cases h : run.isEmpty <;> simp [h]

theorem tableRuns_blank (i : Nat) (run xs ys : List Text) :
    (tableRuns i run (xs ++ [] :: ys)).map Prod.snd =
      (tableRuns i run xs).map Prod.snd ++ (tableRuns 0 [] ys).map Prod.snd := by
  induction xs generalizing i run with
  | nil =>
    have hblank : isTableLine [] = false := by decide
    rw [List.nil_append, tableRuns_cons, tableRuns_nil, if_neg (by simp [hblank]), List.map_append,
      tableRuns_shift (i + 1) 0]
  | cons line xs ih =>
    rw [List.cons_append, tableRuns_cons, tableRuns_cons]
    split
    · exact ih _ _
    · rw [List.map_append, List.map_append, ih, List.append_assoc]

theorem mem_tableRuns {P : Text → Prop} (hx : x ∈ tableRuns i run lines) (hrun : ∀ l ∈ run, P l)
    (hlines : ∀ l ∈ lines, isTableLine l → P l) : x.2 ≠ [] ∧ ∀ l ∈ x.2, P l := by
  induction lines generalizing i run with
  | nil =>
    rw [tableRuns_nil] at hx
    split at hx
    · cases hx
    · rename_i hne
      obtain rfl := List.mem_singleton.mp hx
      exact ⟨by simpa using hne, hrun⟩
  | cons line lines ih =>
    obtain ⟨hline, hrest⟩ := List.forall_mem_cons.mp hlines
    rw [tableRuns_cons] at hx
    split at hx
    · rename_i htable
      refine ih hx (fun l hl => ?_) hrest
      rcases List.mem_append.mp hl with hl | hl
      · exact hrun l hl
      · obtain rfl := List.mem_singleton.mp hl
        exact hline htable
    · rcases List.mem_append.mp hx with hx | hx
      · split at hx
        · cases hx
        · rename_i hne
          obtain rfl := List.mem_singleton.mp hx
          exact ⟨by simpa using hne, hrun⟩
      · exact ih hx (by simp) hrest

theorem tableRuns_table (h : ∀ l ∈ lines, isTableLine l) (hne : run ++ lines ≠ []) :
    (tableRuns i run lines).map Prod.snd = [run ++ lines] := by
  induction lines generalizing i run with
  | nil =>
    rw [List.append_nil] at hne ⊢
    simp [tableRuns_nil, hne]
  | cons line lines ih =>
    obtain ⟨hline, hrest⟩ := List.forall_mem_cons.mp h
    rw [tableRuns_cons, if_pos hline, ih hrest (by simp), List.append_assoc,
      List.singleton_append]

/-- A single table is the only table of its text. -/
theorem runsOf_table (hx : x ∈ runsOf content) :
    (runsOf (joinWith ['\n'] x.2)).map Prod.snd = [x.2] := by
  have hall : x.2 ≠ [] ∧ ∀ l ∈ x.2, isTableLine l ∧ '\n' ∉ l := by
    refine mem_tableRuns hx (by simp) fun l hl htable => ⟨htable, notMem_splitOn content l hl⟩
  have hlines : (joinWith ['\n'] x.2).splitOn '\n' = x.2 :=
    List.splitOn_intercalate '\n' (fun l hl => (hall.2 l hl).2) hall.1
  rw [runsOf, hlines, tableRuns_table (fun l hl => (hall.2 l hl).1) (by simpa using hall.1),
    List.nil_append]

theorem runsOf_document (texts : List Text) :
    (runsOf (document texts)).map Prod.snd = texts.flatMap fun t => (runsOf t).map Prod.snd := by
  induction texts with
  | nil => decide
  | cons t texts ih =>
    cases texts with
    | nil => simp [document, joinWith]
    | cons u texts =>
      have hjoin : document (t :: u :: texts) = t ++ '\n' :: '\n' :: document (u :: texts) := by
        simp [document, joinWith, List.intercalate]
      have hlines : (document (t :: u :: texts)).splitOn '\n' =
          t.splitOn '\n' ++ [] :: (document (u :: texts)).splitOn '\n' := by
        rw [hjoin, List.splitOn_append_cons_self]
        rfl
      rw [runsOf, hlines, tableRuns_blank, List.flatMap_cons, ← ih]
      rfl

theorem tableTexts_eq (content : Text) :
    tableTexts content = ((runsOf content).map Prod.snd).map (joinWith ['\n']) := by
  rw [List.map_map]
  rfl

theorem tableTexts_document (texts : List Text) :
    tableTexts (document texts) = texts.flatMap tableTexts := by
  rw [tableTexts_eq, runsOf_document, List.map_flatMap]
  exact congrArg (texts.flatMap ·) (funext fun t => (tableTexts_eq t).symm)

/-! Shares. -/

def sharesOfRun (run : List Text) : List Share := (runNumbers isAlnum run).filterMap shareOf

theorem sharesOf_eq (content : Text) :
    sharesOf isAlnum content = (((runsOf content).map Prod.snd).map (sharesOfRun isAlnum)).flatten := by
  rw [sharesOf, tableNumericCells, List.filterMap_flatMap, List.map_map, List.flatMap]
  rfl

/-- The shares of a text are those of its tables, one after the other. -/
theorem sharesOf_tables (content : Text) :
    sharesOf isAlnum content = ((tableTexts content).map (sharesOf isAlnum)).flatten := by
  rw [sharesOf_eq, tableTexts, List.map_map, List.map_map]
  refine congrArg List.flatten (List.map_congr_left fun x hx => ?_)
  rw [Function.comp_apply, Function.comp_apply, sharesOf_eq, runsOf_table hx]
  simp

/-- No share column is in two of the tables. -/
def OwnColumns (tables : List Text) : Prop :=
  tables.Pairwise fun s t => FirstSeen.Apart Share.header (sharesOf isAlnum s) (sharesOf isAlnum t)

theorem columns_local_iff (content : Text) :
    (∀ c ∈ columns isAlnum content, ∃ t ∈ tableTexts content, c ∈ columns isAlnum t) ↔
      OwnColumns isAlnum (tableTexts content) := by
  have hlocal : (∀ c ∈ FirstSeen.groups Share.header
      ((tableTexts content).map (sharesOf isAlnum)).flatten,
      ∃ xs ∈ (tableTexts content).map (sharesOf isAlnum), c ∈ FirstSeen.groups Share.header xs) ↔ _ :=
    FirstSeen.groups_local_iff
  rw [← sharesOf_tables, List.pairwise_map] at hlocal
  simp only [List.mem_map, exists_exists_and_eq_and] at hlocal
  exact hlocal

theorem shareSums_local (h : OwnColumns isAlnum (tableTexts content)) :
    tableShareSumMismatches isAlnum content =
      (tableTexts content).flatMap (tableShareSumMismatches isAlnum) := by
  have hgroups := FirstSeen.groups_flatten (List.pairwise_map.mpr h)
  rw [tableShareSumMismatches, columns, sharesOf_tables, hgroups, List.flatMap_map, List.flatMap_assoc]
  rfl

/-! Totals. -/

theorem length_le_width (h : row ∈ t.dataRows) : row.length ≤ t.width := by
  have hmem : row.length ∈ t.dataRows.map List.length := List.mem_map_of_mem h
  unfold TableBlock.width
  cases hmax : (t.dataRows.map List.length).max? with
  | none =>
    rw [List.max?_eq_none_iff.mp hmax] at hmem
    cases hmem
  | some n => exact (List.max?_eq_some_iff.mp hmax).2 _ hmem

/-- A column that is added up. -/
def IsNumeric (t : TableBlock) (col : Nat) : Prop :=
  1 ≤ col ∧ sumMinItems ≤ (t.columnValues col).length

theorem mem_colSums {y : Nat × ℚ} :
    y ∈ t.colSums ↔ IsNumeric t y.1 ∧ y.2 = (t.columnValues y.1).sum := by
  obtain ⟨col, total⟩ := y
  have hrows : (t.columnValues col).length ≤ t.dataRows.length := List.length_filterMap_le _ _
  have hwidth : IsNumeric t col → col < t.width := by
    rintro ⟨-, hlen⟩
    obtain ⟨v, hv⟩ := List.exists_mem_of_length_pos (Nat.lt_of_lt_of_le (by decide) hlen)
    obtain ⟨row, hrow, hnum⟩ := List.mem_filterMap.mp hv
    have hcol : col < row.length := by
      by_contra hge
      rw [numberAt, List.getElem?_eq_none (Nat.le_of_not_lt hge)] at hnum
      cases hnum
    exact Nat.lt_of_lt_of_le hcol (length_le_width hrow)
  unfold TableBlock.colSums
  split
  · rename_i hfew
    simp only [List.not_mem_nil, IsNumeric, false_iff]
    omega
  · simp only [List.mem_filterMap, List.mem_range'_1, IsNumeric] at hwidth ⊢
    constructor
    · rintro ⟨col', hcol', h⟩
      split at h
      · rename_i hlen
        cases h
        exact ⟨⟨hcol'.1, hlen⟩, rfl⟩
      · cases h
    · rintro ⟨hnum, rfl⟩
      have := hwidth hnum
      exact ⟨col, by omega, if_pos hnum.2⟩

/-- Labels of the row of the whole. -/
def grandTotals : List Text :=
  ["합계".toList, "합 계".toList, "총계".toList, "총 계".toList, "계".toList]

/-- A row of the whole that shows the sum of the data rows in each column that is added up. -/
def ShowsSums (t : TableBlock) (row : List Text) : Prop :=
  labelOf row ∈ grandTotals ∧
    ∀ col, IsNumeric t col → numberAt row col = some (t.columnValues col).sum

/-- Where the last of the rows of totals shows a number, it is that of the given row. -/
def LastAgrees (t : TableBlock) (row : List Text) : Prop :=
  ∀ last ∈ t.totalRow, ∀ col, IsNumeric t col →
    ∀ whole ∈ numberAt row col, ∀ shown ∈ numberAt last col, |shown - whole| ≤ 1 / 2

theorem rowFindings_nil_iff (h : ShowsSums t row) : rowFindings t = [] ↔ LastAgrees t row := by
  unfold rowFindings LastAgrees
  cases hlast : t.totalRow with
  | none => simp
  | some last =>
    simp only [List.filterMap_eq_nil_iff, Option.mem_def, Option.some.injEq, forall_eq']
    constructor
    · intro hnone col hcol whole hwhole shown hshown
      have hx := hnone (col, (t.columnValues col).sum) (mem_colSums.2 ⟨hcol, rfl⟩)
      obtain rfl : _ = whole := Option.some.inj ((h.2 col hcol).symm.trans hwhole)
      simpa [hshown] using hx
    · intro hagree y hy
      obtain ⟨hcol, htotal⟩ := mem_colSums.1 hy
      cases hshown : numberAt last y.1 with
      | none => rfl
      | some shown =>
        have hle := hagree y.1 hcol _ (h.2 y.1 hcol) shown hshown
        rw [← htotal] at hle
        exact if_neg (not_lt.mpr hle)

theorem isTotalRow_rowFindings : ∀ f ∈ rowFindings t, f.isTotalRow := by
  intro f hf
  unfold rowFindings at hf
  split at hf
  · cases hf
  · obtain ⟨y, -, hy⟩ := List.mem_filterMap.mp hf
    split at hy
    · split at hy
      · cases hy
        rfl
      · cases hy
    · cases hy

theorem isTotalRow_proseFindings : ∀ f ∈ proseFindings lines t, f.isTotalRow = false := by
  intro f hf
  simp only [proseFindings, List.mem_flatMap, List.mem_filterMap] at hf
  obtain ⟨line, -, m, -, y, -, hy⟩ := hf
  split at hy
  · cases hy
  · split at hy
    · cases hy
      rfl
    · cases hy

theorem isTotalRow_additionFindings : ∀ f ∈ additionFindings content, f.isTotalRow = false := by
  intro f hf
  obtain ⟨m, -, hm⟩ := List.mem_filterMap.mp hf
  dsimp only at hm
  split at hm
  · cases hm
    rfl
  · cases hm

theorem filter_isTotalRow_nil {fs : List Finding} (h : ∀ f ∈ fs, f.isTotalRow = false) :
    fs.filter Finding.isTotalRow = [] := by
  rw [List.filter_eq_nil_iff]
  intro f hf
  rw [h f hf]
  decide

/-- The findings about rows of totals are those of the tables, one after the other. -/
theorem filter_totalFindings (content : Text) :
    (totalFindings content).filter Finding.isTotalRow = (tableBlocks content).flatMap rowFindings := by
  rw [totalFindings, List.filter_append, filter_isTotalRow_nil isTotalRow_additionFindings,
    List.append_nil, List.filter_flatMap]
  refine List.flatMap_congr fun t _ => ?_
  rw [List.filter_append, filter_isTotalRow_nil isTotalRow_proseFindings, List.append_nil]
  exact List.filter_eq_self.mpr isTotalRow_rowFindings

/-- Shares are added up table by table exactly when no share column is in two tables. Where a row
of the whole shows the sums, a table gets no finding about its row of totals exactly when the last
row of totals does not disagree with it. -/
theorem tableChecks_iff (isAlnum : Char → Bool) :
    (∀ texts : List Text,
      ((∀ column ∈ columns isAlnum (document texts),
          ∃ table ∈ texts.flatMap tableTexts, column ∈ columns isAlnum table) ∧
        tableShareSumMismatches isAlnum (document texts) =
          (texts.flatMap tableTexts).flatMap (tableShareSumMismatches isAlnum)) ↔
        OwnColumns isAlnum (texts.flatMap tableTexts)) ∧
    ∀ content : Text,
      (totalFindings content).filter Finding.isTotalRow = (tableBlocks content).flatMap rowFindings ∧
      ∀ t ∈ tableBlocks content, ∀ row ∈ t.rows.tail, ShowsSums t row →
        (rowFindings t = [] ↔ LastAgrees t row) := by
  refine ⟨fun texts => ?_, fun content => ⟨filter_totalFindings content, fun t _ row _ h =>
    rowFindings_nil_iff h⟩⟩
  rw [← tableTexts_document, columns_local_iff]
  exact ⟨And.left, fun h => ⟨h, shareSums_local isAlnum h⟩⟩

def shareTables : List Text :=
  ["| 구분 | 비중 |\n|---|---|\n| A | 60% |\n| B | 40% |".toList,
    "| 구분 | 비중 |\n|---|---|\n| C | 3% |\n| D | 2% |".toList]

def subtotalTable : Text :=
  "| 구분 | 건수 |\n|---|---|\n| A | 10 |\n| B | 20 |\n| C | 30 |\n| 합계 | 60 |\n| 소계 | 30 |".toList

/-- Two tables of two shares each are added up as one, and a row of a subtotal behind the row of
the whole is taken for it. -/
theorem shares_added_across :
    (tableShareSumMismatches Char.isAlphanum (document shareTables)).length = 1 ∧
    (shareTables.flatMap tableTexts).flatMap (tableShareSumMismatches Char.isAlphanum) = [] ∧
    (∃ t ∈ tableBlocks subtotalTable, ∃ row ∈ t.rows.tail, labelOf row = "합계".toList ∧
      (∀ y ∈ t.colSums, numberAt row y.1 = some y.2) ∧
      ((tableTotalMismatches subtotalTable).length = 1 ∧ rowFindings t ≠ [])) := by
  refine ⟨by with_unfolding_all decide, by decide, by with_unfolding_all decide⟩

end RownRg.TableCheck

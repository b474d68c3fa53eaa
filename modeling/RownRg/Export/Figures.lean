import Mathlib.Data.List.InsertIdx
import RownRg.Core.SectionPlan
import RownRg.Export.Blocks
import RownRg.Export.SourceMarks

/-! The figure placeholders of a section: where they go in the report, and what the screen shows. -/

open PyText Regex RownRg.Charts RownRg.Citations

namespace RownRg.Export

/-! The source marks of the blocks. -/

/-- `_TABLE_SOURCE_RE` -/
def tableSourceRe : Regex MarkGroup :=
  let number : Regex MarkGroup := between digit 1 3
  cat [textStart, opt (seq (oneOf "※*-–ㅇ○◦".toList) spaces),
    opt (cat [Tables.words ["출처", "자료", "참고"], spaces, Tables.colon, spaces]),
    Tables.openParen, spaces, lit "출처".toList, spaces,
    group .source (seq number (star (cat [spaces, chr ',', spaces, number]))), spaces,
    Tables.closeParen, textEnd]

/-- `titles.get(n, f"자료 {n}")`, one after the other -/
def sourceLine (titles : Nat → Option Text) (nums : List Nat) : Text :=
  "※ 출처: ".toList ++ joinWith "; ".toList
    (nums.map fun n => (titles n).getD ("자료 ".toList ++ ofNat n))

/-- The numbers of a paragraph that only names the sources of a table. -/
def sourceParagraph (text : Text) : Option (List Nat) :=
  (tableSourceRe.matchStart (strip text)).map fun m =>
    (((m.group .source).getD []).splitOn ',').map fun n => natOf (strip n)

/-- `_attach_table_sources` -/
def attachTableSources (titles : Nat → Option Text) : List Block → List Block
  | .table t :: .paragraph text indent :: bs =>
    match sourceParagraph text with
    | some nums => .table { t with source := sourceLine titles nums } :: attachTableSources titles bs
    | none => .table t :: attachTableSources titles (.paragraph text indent :: bs)
  | b :: bs => b :: attachTableSources titles bs
  | [] => []

/-- `_BARE_SOURCE_LABEL_RE` -/
def bareSourceLabelRe : Regex Unit :=
  cat [textStart, star (cls fun c => isMarker c || c == '※' || isSpace c),
    Tables.words ["출처", "자료", "참고"], spaces, opt Tables.colon, spaces, textEnd]

/-- `_TABLE_SOURCE_NUM_RE` -/
def tableSourceNumRe : Regex MarkGroup :=
  cat [chr '(', Tables.words ["출처", "근거", "자료", "참고"], spaces, group .source numberList, spaces,
    chr ')']

/-- `EMPTY_CELL_VALUES` -/
def emptyCellValues : List Text :=
  ["자료 없음", "자료상 미제시", "상동", "해당 없음", "해당사항 없음", "N/A", "n/a"].map String.toList

/-- `_clean_cell` -/
def cleanCell (value : Text) : Text :=
  let text := strip (CrossSection.stripSourceMarks value)
  if text ∈ emptyCellValues then ['-'] else text

/-- `_SOURCE_MARK_RE` with its group -/
def sourceNumsRe : Regex MarkGroup :=
  cat [star hspace, lit "(출처".toList, spaces, group .source numberList, spaces, chr ')']

/-- `source_numbers` -/
def sourceNumbers (content : Text) : List Nat :=
  ((sourceNumsRe.finditer content).flatMap fun m =>
    (numSplitRe.split ((m.group .source).getD [])).map natOf).eraseDups

/-- The sources that the items above have named, by their level. -/
abbrev ParentSources := List (Nat × List Nat)

/-- `_drop_inherited_source_marks` -/
def dropInheritedSourceMarks (text : Text) (indent : Nat) (parents : ParentSources) :
    Text × ParentSources :=
  match sourceNumbers text with
  | [] => (text, parents)
  | nums =>
    let above := parents.filter fun p => p.1 < indent
    let inherited := above.flatMap (·.2)
    (if nums.all inherited.contains then strip (CrossSection.stripSourceMarks text) else text,
      above ++ [(indent, nums)])

/-- The numbers of the marks inside a table, in order of appearance. -/
def tableSources (t : Table) : List Nat :=
  ((t.caption :: t.headers ++ t.rows.flatten).flatMap fun part =>
    (tableSourceNumRe.finditer part).flatMap fun m =>
      ((((m.group .source).getD []).filter (· != ' ')).splitOn ',').filterMap fun n =>
        if n.all isDigit && !n.isEmpty then some (natOf n) else none).eraseDups

/-- A table without the marks in it; a table without a source line names their sources there. -/
def stripTable (titles : Nat → Option Text) (t : Table) : Table where
  headers := t.headers.map CrossSection.stripSourceMarks
  rows := t.rows.map fun row => row.map cleanCell
  caption := strip (CrossSection.stripSourceMarks t.caption)
  unit := t.unit
  source :=
    if t.source.isEmpty && !(tableSources t).isEmpty then sourceLine titles (tableSources t)
    else t.source

/-- `_strip_citation_blocks` -/
def stripCitationBlocks (titles : Nat → Option Text) (parents : ParentSources) :
    List Block → List Block
  | [] => []
  | .paragraph text indent :: bs =>
    let text := strip (SourceMarks.stripNonnumericSourceMarks text)
    if text.isEmpty || (bareSourceLabelRe.matchStart text).isSome then
      stripCitationBlocks titles parents bs
    else
      let (text, parents) := dropInheritedSourceMarks text indent parents
      .paragraph text indent :: stripCitationBlocks titles parents bs
  | .table t :: bs => .table (stripTable titles t) :: stripCitationBlocks titles parents bs
  | b :: bs => b :: stripCitationBlocks titles parents bs

/-! How many figures a section gets, and under which captions. -/

/-- `_CHARS_PER_VISUAL` -/
def charsPerVisual : Nat := 1200

/-- The visuals that the length of a text asks for. -/
def required (content : Text) : Nat := max 1 (content.length / charsPerVisual)

/-- `_figures_needed` -/
def figuresNeeded (content : Text) (visualCount : Nat) (keyPoints : List Text) : Nat :=
  min (required content - visualCount) (max 1 keyPoints.length)

/-- `_PART_LABEL_RE` -/
def partLabelRe : Regex Unit :=
  cat [textStart, spaces, chr '(', digits, plus (seq (chr '-') digits), chr ')', spaces]

/-- The first line of a key point without its part label, or else the title. -/
def captionFor (title captionSrc : Text) : Text :=
  let caption := strip ((partLabelRe.sub (fun _ => []) captionSrc).takeWhile (· != '\n'))
  if caption.isEmpty then title else caption

def figureDescription : Text := "위 주제의 핵심 수치·구조를 요약한 도표 또는 그래프".toList

/-- `_figure_placeholder` -/
def figurePlaceholder (plan : SectionPlan) (index : Nat) (sourceHints : List Text) : Figure :=
  ⟨captionFor plan.title (plan.keyPoints[index]?.getD plan.title), figureDescription, sourceHints⟩

/-! Where the figures go. -/

/-- `_block_weight` -/
def blockWeight : Block → Nat
  | .paragraph text _ => text.length
  | .heading .. => 40
  | .table t => 60 * (t.rows.length + 1)
  | .chart .. => 800
  | .figure _ => 350

/-- `isinstance(block, Table | Chart)` -/
def isVisual : Block → Bool
  | .table _ | .chart .. => true
  | _ => false

def isFigure : Block → Bool
  | .figure _ => true
  | _ => false

def hangul (c : Char) : Bool := '가' ≤ c && c ≤ '힣'

/-- `_TOPIC_WORD_RE` -/
def topicWordRe : Regex Unit :=
  let letter : Char → Bool := fun c => ('A' ≤ c && c ≤ 'Z') || ('a' ≤ c && c ≤ 'z')
  let alnum : Char → Bool := fun c => letter c || ('0' ≤ c && c ≤ '9')
  alt (seq (cls hangul) (plus (cls hangul))) (cat [cls letter, cls alnum, plus (cls alnum)])

/-- `_topic_words` -/
def topicWords (text : Text) : List Text :=
  ((topicWordRe.finditer text).map fun m => m.text.map Char.toLower).eraseDups

/-- A boundary behind a block: the shared words, its index, and how far the next visual is. -/
structure Slot where
  overlap : Nat
  pos : Nat
  gap : Nat

/-- The slots behind the blocks but the last; `here` is the weight up to a block, `pos` its index. -/
def slotsFrom (topic : List Text) (gapAt : Nat → Nat) (here pos : Nat) : List Block → List Slot
  | [] | [_] => []
  | b :: bs =>
    let here := here + blockWeight b
    let overlap := match b with
      | .paragraph text _ => (topic.filter fun w => (topicWords text).contains w).length
      | _ => 0
    let rest := slotsFrom topic gapAt here (pos + 1) bs
    match b with
    | .heading .. => rest
    | _ => ⟨overlap, pos + 1, gapAt here⟩ :: rest

/-- The weights up to the visuals and figures. -/
def visualsAt (here : Nat) : List Block → List Nat
  | [] => []
  | b :: bs =>
    let here := here + blockWeight b
    if isVisual b || isFigure b then here :: visualsAt here bs else visualsAt here bs

/-- The first of the slots that are farthest from a visual. -/
def farthest : List Slot → Option Slot
  | [] => none
  | s :: ss => some (ss.foldl (fun best s => if best.gap < s.gap then s else best) s)

/-- `_best_figure_slot` -/
def bestFigureSlot (blocks : List Block) (figure : Figure) : Option Nat :=
  let total := (blocks.map blockWeight).sum
  let gapAt := fun here => match visualsAt 0 blocks with
    | [] => min here (total - here)
    | v :: vs => (vs.map fun v => max here v - min here v).foldl min (max here v - min here v)
  let scored := slotsFrom (topicWords figure.caption) gapAt 0 0 blocks
  let bestOverlap := (scored.map (·.overlap)).foldl max 0
  (farthest (scored.filter fun s => s.overlap = bestOverlap)).map (·.pos)

/-- `_distribute_figures` -/
def distributeFigures (blocks : List Block) (figures : List Figure) : List Block :=
  figures.foldl (fun out figure =>
    match bestFigureSlot out figure with
    | none => out ++ [.figure figure]
    | some pos => out.insertIdx pos (.figure figure)) blocks

/-! The report and the screen. -/

/-- The round of `report_blocks` over the sections: the blocks of one section under its title. -/
def sectionBlocks (titles : Nat → Option Text) (hints : List Text) (plan : SectionPlan)
    (body : Text) : Option (List Block) := do
  let content := dropDuplicateLeadHeading body plan.chapterNumber plan.sectionNumber
  let blocks ← markdownToBlocks content
  let blocks := stripCitationBlocks titles [] (attachTableSources titles blocks)
  let visualCount := blocks.countP isVisual
  let measured := chartFencesAsTables content
  return distributeFigures blocks
    ((List.range (figuresNeeded measured visualCount plan.keyPoints)).map fun i =>
      figurePlaceholder plan i hints)

/-- The captions of the placeholders among the blocks. -/
def figureCaptions (blocks : List Block) : List Text :=
  blocks.filterMap fun b => match b with
    | .figure f => some f.caption
    | _ => none

/-- A row of the sections table, as far as its figures depend on it. -/
structure StoredSection where
  chapterNumber : Nat
  sectionNumber : Nat
  title : Text
  content : Option Text

structure SectionCitation where
  number : Option Nat
  title : Text
  url : Option Text

/-- `_TABLE_SEPARATOR_RE` -/
def tableSeparatorRe : Regex Unit :=
  cat [lineStart, spaces, chr '|', plus (cls fun c => isSpace c || ":-|".toList.contains c), chr '|',
    spaces, lineEnd]

/-- The sources with a link come first, each group by its numbers. -/
def citationBefore (c d : SectionCitation) : Bool :=
  if c.url.isNone = d.url.isNone then c.number.getD 0 ≤ d.number.getD 0 else c.url.isSome

/-- The hints for the figures of a row. -/
def citationHints (citations : List SectionCitation) : List Text :=
  (((citations.mergeSort citationBefore).filter fun c => !c.title.isEmpty).map fun c =>
    match c.url.getD [] with
    | [] => c.title
    | url => c.title ++ " (".toList ++ url ++ [')']).take 2

/-- The plan as `_section_figures` builds it: the fields of the row, the rest by default. -/
def planOfRow (sectionId : Uuid) (row : StoredSection) : SectionPlan where
  sectionId := sectionId
  chapterNumber := row.chapterNumber
  sectionNumber := row.sectionNumber
  title := row.title
  chapterTitle := []
  direction := []
  keyPoints := []
  analysts := []
  searchQueries := []
  buildsOn := []
  minChars := none
  maxChars := none

/-- `_section_figures`; `sectionId` is the identifier made up for the plan. -/
def sectionFigures (sectionId : Uuid) (row : StoredSection) (citations : List SectionCitation) :
    List Figure :=
  let content := row.content.getD []
  let tables := (tableSeparatorRe.finditer content).length
  (List.range (figuresNeeded content tables [])).map fun i =>
    figurePlaceholder (planOfRow sectionId row) i (citationHints citations)

/-- The screen shows the placeholders that the report gets for the same plan and body. -/
def FiguresAgree (titles : Nat → Option Text) (hints : List Text) (sectionId : Uuid)
    (citations : List SectionCitation) (plan : SectionPlan) (body : Text) : Prop :=
  ∃ blocks, sectionBlocks titles hints plan body = some blocks ∧
    (figureCaptions blocks).Perm ((sectionFigures sectionId
      ⟨plan.chapterNumber, plan.sectionNumber, plan.title, some body⟩ citations).map (·.caption))

/-! When they agree. -/

def isRow : Line → Bool
  | .row _ => true
  | _ => false

def isDataRow : Line → Bool
  | .row cells => !isSeparatorRow cells
  | _ => false

def isChartLine : Line → Bool
  | .chart _ => true
  | _ => false

/-- The runs of table rows with a row that is no separator. -/
def tablesIn (lines : List Line) : Nat :=
  (lines.splitOnP fun l => !isRow l).countP fun run => run.any isDataRow

def chartsIn (lines : List Line) : Nat := lines.countP isChartLine

/-- The body can be read. Counted by its separator lines and its raw length it wants no figure, and
counted by its tables and charts and the length of the text with the tables for the charts neither;
or it wants one by both, there is one missing or no second key point, and the first key point makes
the same caption as the title. -/
structure SameFigures (plan : SectionPlan) (body : Text) : Prop where
  reads : (markdownToBlocks
    (dropDuplicateLeadHeading body plan.chapterNumber plan.sectionNumber)).isSome
  same :
    let content := dropDuplicateLeadHeading body plan.chapterNumber plan.sectionNumber
    let shown := (tableSeparatorRe.finditer body).length
    let drawn := tablesIn (linesOf content) + chartsIn (linesOf content)
    let wanted := required (chartFencesAsTables content)
    (required body ≤ shown ∧ wanted ≤ drawn) ∨
      (shown < required body ∧ drawn < wanted ∧ (wanted = drawn + 1 ∨ plan.keyPoints.length ≤ 1) ∧
        captionFor plan.title (plan.keyPoints.headD plan.title) = captionFor plan.title plan.title)

variable {bs blocks : List Block} {b : Block} {titles : Nat → Option Text} {lines : List Line}
  {line : Line} {s s' : Reader} {charts : List ChartSpec} {plan : SectionPlan} {body : Text}
  {fallback : ChartSpec → Option (Option Table)} {figs : List Figure}

/-! The blocks of a body. -/

/-- The open table has a row to draw. -/
def Reader.drawn (s : Reader) : Bool := s.table.any fun cells => !isSeparatorRow cells

theorem visuals_pop (bs : List Block) :
    (popTableCaption bs).1.countP isVisual = bs.countP isVisual := by
  obtain ⟨ps, hps, hparagraphs⟩ := popTableCaption_eq bs
  have hnone : ps.countP isVisual = 0 := by
    rw [List.countP_eq_zero]
    intro b hb
    obtain ⟨text, indent, rfl⟩ := hparagraphs b hb
    simp [isVisual]
  nth_rewrite 2 [hps]
  rw [List.countP_append, hnone, Nat.add_zero]

theorem visuals_emit (s : Reader) (b : Block) : (s.emit b).blocks.countP isVisual =
    s.blocks.countP isVisual + (if isVisual b then 1 else 0) := by
  simp [Reader.emit, List.countP_append, List.countP_singleton]

theorem visuals_flushPara (s : Reader) :
    s.flushPara.blocks.countP isVisual = s.blocks.countP isVisual := by
  unfold Reader.flushPara
  split
  · rfl
  · exact (visuals_emit s _).trans (by simp [isVisual])

theorem visuals_flushTable (s : Reader) : s.flushTable.blocks.countP isVisual =
    s.blocks.countP isVisual + (if s.drawn then 1 else 0) := by
  have hrows : (s.table.filter fun cells => !isSeparatorRow cells).isEmpty = !s.drawn := by
    rw [Bool.eq_iff_iff]
    simp [Reader.drawn, List.filter_eq_nil_iff]
  unfold Reader.flushTable
  dsimp only
  rw [hrows]
  cases s.drawn with
  | false => simp
  | true => simp [List.countP_append, visuals_pop, isVisual]

/-- The visuals that the lines add; `drawn` tells that the open table has a row to draw. -/
def visualsFrom (drawn : Bool) : List Line → Nat
  | [] => if drawn then 1 else 0
  | .row cells :: ls => visualsFrom (drawn || !isSeparatorRow cells) ls
  | l :: ls => (if drawn then 1 else 0) + (if isChartLine l then 1 else 0) + visualsFrom false ls

theorem visualsFrom_cons (drawn : Bool) (h : isRow line = false) (ls : List Line) :
    visualsFrom drawn (line :: ls) =
      (if drawn then 1 else 0) + (if isChartLine line then 1 else 0) + visualsFrom false ls := by
  cases line <;> first | rfl | cases h

/-- A line that is no row closes the open table. -/
theorem visuals_readLine (h : readLine fallback charts s line = some s') (hrow : isRow line = false) :
    s'.blocks.countP isVisual = s.blocks.countP isVisual + (if s.drawn then 1 else 0) +
      (if isChartLine line then 1 else 0) ∧ s'.table = [] := by
  have hclosed : s.flushPara.flushTable.blocks.countP isVisual =
      s.blocks.countP isVisual + (if s.drawn then 1 else 0) := by
    rw [visuals_flushTable, visuals_flushPara, Reader.drawn, table_flushPara]
    rfl
  have hopened : s.flushTable.flushPara.blocks.countP isVisual =
      s.blocks.countP isVisual + (if s.drawn then 1 else 0) := by
    rw [visuals_flushPara, visuals_flushTable]
  have htable : s.flushTable.flushPara.table = [] := (table_flushPara _).trans (table_flushTable s)
  cases line with
  | row => cases hrow
  | blank | rule =>
    obtain rfl := Option.some.inj h
    exact ⟨hclosed, table_flushTable _⟩
  | chart index =>
    obtain ⟨spec, -, h⟩ := Option.bind_eq_some_iff.mp h
    obtain ⟨f, -, h⟩ := Option.bind_eq_some_iff.mp h
    obtain rfl := Option.some.inj h
    exact ⟨by rw [visuals_emit, hclosed]; rfl, table_flushTable _⟩
  | quote text =>
    obtain rfl := Option.some.inj h
    split
    · exact ⟨hopened, htable⟩
    · exact ⟨by rw [visuals_emit, hopened]; rfl, htable⟩
  | heading marks text =>
    obtain rfl := Option.some.inj h
    have hno : isVisual (headingOf marks (strip (cleanInline text))) = false := by
      unfold headingOf
      split
      · rfl
      · split <;> rfl
    exact ⟨by rw [visuals_emit, hopened, hno]; rfl, htable⟩
  | item level text =>
    obtain rfl := Option.some.inj h
    exact ⟨by rw [visuals_emit, hopened]; rfl, htable⟩
  | words text =>
    obtain rfl := Option.some.inj h
    exact ⟨visuals_flushTable s, table_flushTable s⟩

theorem visuals_readLines (h : readLines fallback charts s lines = some s') :
    s'.blocks.countP isVisual = s.blocks.countP isVisual + visualsFrom s.drawn lines := by
  induction lines generalizing s with
  | nil =>
    obtain rfl := Option.some.inj h
    rw [visuals_flushTable, visuals_flushPara, Reader.drawn, table_flushPara]
    rfl
  | cons line lines ih =>
    obtain ⟨s₁, hline, h⟩ := Option.bind_eq_some_iff.mp h
    rw [ih h]
    cases hrow : isRow line with
    | true =>
      cases line with
      | row cells =>
        obtain rfl := Option.some.inj hline
        rw [visualsFrom]
        dsimp only
        rw [visuals_flushPara, Reader.drawn, List.any_append, table_flushPara]
        simp [Reader.drawn]
      | _ => cases hrow
    | false =>
      obtain ⟨hcount, htable⟩ := visuals_readLine hline hrow
      have hdrawn : s₁.drawn = false := by rw [Reader.drawn, htable]; rfl
      rw [hcount, hdrawn, visualsFrom_cons _ hrow]
      omega

theorem visualsFrom_runs (drawn : Bool) (lines : List Line) :
    ∃ run runs, (lines.splitOnP fun l => !isRow l) = run :: runs ∧ visualsFrom drawn lines =
      chartsIn lines + (if drawn || run.any isDataRow then 1 else 0) +
        runs.countP fun run => run.any isDataRow := by
  induction lines generalizing drawn with
  | nil => exact ⟨[], [], rfl, by simp [visualsFrom, chartsIn]⟩
  | cons line lines ih =>
    rw [List.splitOnP_cons_eq_if_modifyHead]
    cases hrow : isRow line with
    | true =>
      cases line with
      | row cells =>
        obtain ⟨run, runs, hcut, hcount⟩ := ih (drawn || !isSeparatorRow cells)
        refine ⟨.row cells :: run, runs, ?_, ?_⟩
        · rw [hcut]
          rfl
        · rw [visualsFrom, hcount]
          simp [chartsIn, isChartLine, isDataRow, Bool.or_assoc]
      | _ => cases hrow
    | false =>
      obtain ⟨run, runs, hcut, hcount⟩ := ih false
      refine ⟨[], run :: runs, ?_, ?_⟩
      · rw [hcut]
        rfl
      · rw [visualsFrom_cons drawn hrow, hcount]
        simp only [chartsIn, List.countP_cons, Bool.false_or, List.any_nil, Bool.or_false]
        omega

/-- The tables are counted by the runs of their rows. -/
theorem visualsFrom_eq (lines : List Line) : visualsFrom false lines = tablesIn lines + chartsIn lines := by
  obtain ⟨run, runs, hcut, hcount⟩ := visualsFrom_runs false lines
  rw [hcount, tablesIn, hcut, List.countP_cons]
  simp only [Bool.false_or]
  omega

theorem visuals_markdownToBlocks {md : Text} (h : markdownToBlocks md = some blocks) :
    blocks.countP isVisual = tablesIn (linesOf md) + chartsIn (linesOf md) := by
  obtain ⟨s, hs, rfl⟩ := Option.map_eq_some_iff.mp h
  rw [visuals_readLines hs, ← visualsFrom_eq]
  simp [Reader.drawn]

/-! What is done to the blocks of the body. -/

theorem visuals_attach (titles : Nat → Option Text) (bs : List Block) :
    (attachTableSources titles bs).countP isVisual = bs.countP isVisual := by
  fun_induction attachTableSources titles bs with
  | case1 t text indent bs nums h ih =>
    rw [List.countP_cons, List.countP_cons, List.countP_cons, ih]
    rfl
  | case2 t text indent bs h ih => rw [List.countP_cons, List.countP_cons, ih]
  | case3 b bs hno ih => rw [List.countP_cons, List.countP_cons, ih]
  | case4 => rfl

theorem visuals_strip (titles : Nat → Option Text) (parents : ParentSources) (bs : List Block) :
    (stripCitationBlocks titles parents bs).countP isVisual = bs.countP isVisual := by
  fun_induction stripCitationBlocks titles parents bs with
  | case1 => rfl
  | case2 parents text indent bs text' h ih => exact ih
  | case3 parents text indent bs text' h text'' parents' hx ih =>
    rw [List.countP_cons, List.countP_cons, ih]
    rfl
  | case4 parents t bs ih =>
    rw [List.countP_cons, List.countP_cons, ih]
    rfl
  | case5 parents b bs hparagraph htable ih => rw [List.countP_cons, List.countP_cons, ih]

theorem figureCaptions_cons (b : Block) (bs : List Block) :
    figureCaptions (b :: bs) = figureCaptions [b] ++ figureCaptions bs :=
  List.filterMap_append (l := [b])

theorem figureCaptions_append (bs cs : List Block) :
    figureCaptions (bs ++ cs) = figureCaptions bs ++ figureCaptions cs := List.filterMap_append

theorem figureCaptions_attach (titles : Nat → Option Text) (bs : List Block) :
    figureCaptions (attachTableSources titles bs) = figureCaptions bs := by
  fun_induction attachTableSources titles bs with
  | case1 t text indent bs nums h ih => exact ih
  | case2 t text indent bs h ih => exact ih
  | case3 b bs hno ih => rw [figureCaptions_cons, figureCaptions_cons b bs, ih]
  | case4 => rfl

theorem figureCaptions_strip (titles : Nat → Option Text) (parents : ParentSources) (bs : List Block) :
    figureCaptions (stripCitationBlocks titles parents bs) = figureCaptions bs := by
  fun_induction stripCitationBlocks titles parents bs with
  | case1 => rfl
  | case2 parents text indent bs text' h ih => exact ih
  | case3 parents text indent bs text' h text'' parents' hx ih => exact ih
  | case4 parents t bs ih => exact ih
  | case5 parents b bs hparagraph htable ih => rw [figureCaptions_cons, figureCaptions_cons b bs, ih]

theorem pos_slotsFrom {topic : List Text} {gapAt : Nat → Nat} {here pos : Nat} {slot : Slot}
    (h : slot ∈ slotsFrom topic gapAt here pos bs) : slot.pos ≤ pos + bs.length := by
  induction bs generalizing here pos with
  | nil => cases h
  | cons b bs ih =>
    cases bs with
    | nil => cases h
    | cons b' bs =>
      rw [List.length_cons]
      have hrest : slot ∈ slotsFrom topic gapAt (here + blockWeight b) (pos + 1) (b' :: bs) →
          slot.pos ≤ pos + ((b' :: bs).length + 1) := by
        intro hslot
        have hle := ih hslot
        omega
      unfold slotsFrom at h
      cases b with
      | heading => exact hrest h
      | _ =>
        rcases List.mem_cons.mp h with rfl | h
        · dsimp only
          omega
        · exact hrest h

theorem mem_farthest {slots : List Slot} {slot : Slot} (h : farthest slots = some slot) :
    slot ∈ slots := by
  cases slots with
  | nil => cases h
  | cons s ss =>
    obtain rfl := Option.some.inj h
    clear h
    have hfold : ∀ best, ss.foldl (fun best s => if best.gap < s.gap then s else best) best = best ∨
        ss.foldl (fun best s => if best.gap < s.gap then s else best) best ∈ ss := by
      induction ss with
      | nil => exact fun best => .inl rfl
      | cons s ss ih =>
        intro best
        rw [List.foldl_cons]
        split
        · rcases ih s with h | h
          · exact .inr (by rw [h]; exact List.mem_cons_self)
          · exact .inr (List.mem_cons_of_mem _ h)
        · rcases ih best with h | h
          · exact .inl h
          · exact .inr (List.mem_cons_of_mem _ h)
    exact List.mem_cons.mpr (hfold s)

theorem pos_bestFigureSlot {f : Figure} {pos : Nat} (h : bestFigureSlot bs f = some pos) :
    pos ≤ bs.length := by
  obtain ⟨slot, hslot, rfl⟩ := Option.map_eq_some_iff.mp h
  have hle := pos_slotsFrom (List.mem_of_mem_filter (mem_farthest hslot))
  omega

/-- Every figure is put in once. -/
theorem figureCaptions_distribute (bs : List Block) (figs : List Figure) :
    (figureCaptions (distributeFigures bs figs)).Perm (figureCaptions bs ++ figs.map (·.caption)) := by
  induction figs generalizing bs with
  | nil => simp [distributeFigures]
  | cons f figs ih =>
    have hstep : ∃ out, distributeFigures bs (f :: figs) = distributeFigures out figs ∧
        (figureCaptions out).Perm (figureCaptions bs ++ [f.caption]) := by
      cases hslot : bestFigureSlot bs f with
      | none => exact ⟨bs ++ [.figure f], by simp [distributeFigures, hslot], by simp [figureCaptions]⟩
      | some pos =>
        refine ⟨bs.insertIdx pos (.figure f), by simp [distributeFigures, hslot], ?_⟩
        have hinsert := List.perm_insertIdx (Block.figure f) bs (pos_bestFigureSlot hslot)
        have hcaptions := (hinsert.trans (List.perm_append_singleton _ bs).symm).filterMap
          fun b => match b with
            | .figure f => some f.caption
            | _ => none
        rw [List.filterMap_append] at hcaptions
        exact hcaptions
    obtain ⟨out, hout, hperm⟩ := hstep
    rw [hout, List.map_cons, List.append_cons]
    exact (ih out).trans (hperm.append_right _)

/-! The parser makes no figures. -/

theorem figures_flushPara (h : figureCaptions s.blocks = []) : figureCaptions s.flushPara.blocks = [] := by
  unfold Reader.flushPara
  split
  · exact h
  · exact (figureCaptions_append _ _).trans (by rw [h]; rfl)

theorem figures_flushTable (h : figureCaptions s.blocks = []) :
    figureCaptions s.flushTable.blocks = [] := by
  unfold Reader.flushTable
  dsimp only
  split
  · exact h
  · obtain ⟨ps, hps, -⟩ := popTableCaption_eq s.blocks
    rw [hps, figureCaptions_append] at h
    rw [figureCaptions_append, (List.append_eq_nil_iff.mp h).1]
    rfl

theorem figures_emit (h : figureCaptions s.blocks = []) (hb : figureCaptions [b] = []) :
    figureCaptions (s.emit b).blocks = [] := by
  rw [Reader.emit, figureCaptions_append, h, hb]
  rfl

theorem figures_readLine (h : readLine fallback charts s line = some s')
    (hs : figureCaptions s.blocks = []) : figureCaptions s'.blocks = [] := by
  have hopened := figures_flushPara (figures_flushTable hs)
  cases line with
  | blank | rule =>
    obtain rfl := Option.some.inj h
    exact figures_flushTable (figures_flushPara hs)
  | chart index =>
    obtain ⟨spec, -, h⟩ := Option.bind_eq_some_iff.mp h
    obtain ⟨f, -, h⟩ := Option.bind_eq_some_iff.mp h
    obtain rfl := Option.some.inj h
    exact figures_emit (figures_flushTable (figures_flushPara hs)) rfl
  | row cells =>
    obtain rfl := Option.some.inj h
    exact figures_flushPara hs
  | quote text =>
    obtain rfl := Option.some.inj h
    split
    · exact hopened
    · exact figures_emit hopened rfl
  | heading marks text =>
    obtain rfl := Option.some.inj h
    refine figures_emit hopened ?_
    unfold headingOf
    split
    · rfl
    · split <;> rfl
  | item level text =>
    obtain rfl := Option.some.inj h
    exact figures_emit hopened rfl
  | words text =>
    obtain rfl := Option.some.inj h
    exact figures_flushTable hs

theorem figures_readLines (h : readLines fallback charts s lines = some s')
    (hs : figureCaptions s.blocks = []) : figureCaptions s'.blocks = [] := by
  induction lines generalizing s with
  | nil =>
    obtain rfl := Option.some.inj h
    exact figures_flushTable (figures_flushPara hs)
  | cons line lines ih =>
    obtain ⟨s₁, hline, h⟩ := Option.bind_eq_some_iff.mp h
    exact ih h (figures_readLine hline hs)

theorem figures_markdownToBlocks {md : Text} (h : markdownToBlocks md = some blocks) :
    figureCaptions blocks = [] := by
  obtain ⟨s, hs, rfl⟩ := Option.map_eq_some_iff.mp h
  exact figures_readLines hs rfl

/-! The placeholders of both sides. -/

theorem perm_range_one {n : Nat} {f : Nat → Text} {x : Text} {k : Nat} (hk : k ≤ 1) :
    ((List.range n).map f).Perm ((List.range k).map fun _ => x) ↔
      (n = 0 ∧ k = 0) ∨ (n = 1 ∧ k = 1 ∧ f 0 = x) := by
  constructor
  · intro h
    have hlen := h.length_eq
    simp only [List.length_map, List.length_range] at hlen
    subst hlen
    obtain rfl | rfl : n = 0 ∨ n = 1 := by omega
    · exact .inl ⟨rfl, rfl⟩
    · refine .inr ⟨rfl, rfl, ?_⟩
      exact List.singleton_perm_singleton.mp h
  · rintro (⟨rfl, rfl⟩ | ⟨rfl, rfl, rfl⟩)
    · exact .refl _
    · exact .refl _

/-- The captions that the report puts in. -/
theorem placed_sectionBlocks {hints : List Text} {content : Text}
    (hcontent : content = dropDuplicateLeadHeading body plan.chapterNumber plan.sectionNumber)
    (h : sectionBlocks titles hints plan body = some blocks) :
    (figureCaptions blocks).Perm ((List.range (figuresNeeded (chartFencesAsTables content)
      (tablesIn (linesOf content) + chartsIn (linesOf content)) plan.keyPoints)).map
        fun i => captionFor plan.title (plan.keyPoints[i]?.getD plan.title)) := by
  subst hcontent
  obtain ⟨parsed, hparsed, h⟩ := Option.bind_eq_some_iff.mp h
  obtain rfl := Option.some.inj h
  refine (figureCaptions_distribute _ _).trans ?_
  rw [figureCaptions_strip, figureCaptions_attach, figures_markdownToBlocks hparsed, visuals_strip,
    visuals_attach, visuals_markdownToBlocks hparsed, List.map_map]
  exact .refl _

theorem exists_sectionBlocks (titles : Nat → Option Text) (hints : List Text) (plan : SectionPlan)
    (body : Text) : (∃ blocks, sectionBlocks titles hints plan body = some blocks) ↔
      (markdownToBlocks (dropDuplicateLeadHeading body plan.chapterNumber plan.sectionNumber)).isSome := by
  rw [← Option.isSome_iff_exists]
  unfold sectionBlocks
  dsimp only
  cases markdownToBlocks (dropDuplicateLeadHeading body plan.chapterNumber plan.sectionNumber) <;> rfl

/-- The captions that the screen shows. -/
theorem shown_sectionFigures (sectionId : Uuid) (citations : List SectionCitation)
    (plan : SectionPlan) (body : Text) :
    (sectionFigures sectionId ⟨plan.chapterNumber, plan.sectionNumber, plan.title, some body⟩
      citations).map (·.caption) =
      (List.range (min (required body - (tableSeparatorRe.finditer body).length) 1)).map
        fun _ => captionFor plan.title plan.title := by
  simp [sectionFigures, figuresNeeded, figurePlaceholder, planOfRow]

theorem figuresNeeded_eq_zero (content : Text) (drawn : Nat) (keyPoints : List Text) :
    figuresNeeded content drawn keyPoints = 0 ↔ required content ≤ drawn := by
  unfold figuresNeeded
  omega

theorem figuresNeeded_eq_one (content : Text) (drawn : Nat) (keyPoints : List Text) :
    figuresNeeded content drawn keyPoints = 1 ↔
      drawn < required content ∧ (required content = drawn + 1 ∨ keyPoints.length ≤ 1) := by
  unfold figuresNeeded
  omega

theorem figuresAgree_iff (titles : Nat → Option Text) (hints : List Text) (sectionId : Uuid)
    (citations : List SectionCitation) (plan : SectionPlan) (body : Text) :
    FiguresAgree titles hints sectionId citations plan body ↔ SameFigures plan body := by
  obtain ⟨content, hcontent⟩ : ∃ content,
    content = dropDuplicateLeadHeading body plan.chapterNumber plan.sectionNumber := ⟨_, rfl⟩
  have hfirst : captionFor plan.title (plan.keyPoints[0]?.getD plan.title) =
      captionFor plan.title (plan.keyPoints.headD plan.title) := by
    cases plan.keyPoints <;> rfl
  have hperm : ∀ blocks, sectionBlocks titles hints plan body = some blocks →
      ((figureCaptions blocks).Perm ((sectionFigures sectionId
        ⟨plan.chapterNumber, plan.sectionNumber, plan.title, some body⟩ citations).map (·.caption)) ↔
        (required body ≤ (tableSeparatorRe.finditer body).length ∧
          required (chartFencesAsTables content) ≤ tablesIn (linesOf content) + chartsIn (linesOf content)) ∨
        ((tableSeparatorRe.finditer body).length < required body ∧
          tablesIn (linesOf content) + chartsIn (linesOf content) < required (chartFencesAsTables content) ∧
          (required (chartFencesAsTables content) =
            tablesIn (linesOf content) + chartsIn (linesOf content) + 1 ∨ plan.keyPoints.length ≤ 1) ∧
          captionFor plan.title (plan.keyPoints.headD plan.title) =
            captionFor plan.title plan.title)) := by
    intro blocks h
    have hplaced := placed_sectionBlocks hcontent h
    rw [shown_sectionFigures, ← hfirst, hplaced.congr_left, perm_range_one (Nat.min_le_right _ 1),
      figuresNeeded_eq_zero, figuresNeeded_eq_one]
    constructor
    · rintro (⟨hnone, hzero⟩ | ⟨⟨hlt, hmany⟩, hshow, hcaption⟩)
      · exact .inl ⟨by omega, hnone⟩
      · exact .inr ⟨by omega, hlt, hmany, hcaption⟩
    · rintro (⟨hzero, hnone⟩ | ⟨hshow, hlt, hmany, hcaption⟩)
      · exact .inl ⟨hnone, by omega⟩
      · exact .inr ⟨⟨hlt, hmany⟩, by omega, hcaption⟩
  have hreads := exists_sectionBlocks titles hints plan body
  subst hcontent
  constructor
  · rintro ⟨blocks, hblocks, h⟩
    exact ⟨hreads.mp ⟨blocks, hblocks⟩, (hperm blocks hblocks).mp h⟩
  · rintro ⟨hread, hsame⟩
    obtain ⟨blocks, hblocks⟩ := hreads.mpr hread
    exact ⟨blocks, hblocks, (hperm blocks hblocks).mpr hsame⟩

/-- A section with one key point, written as one chart. -/
def chartPlan : SectionPlan where
  sectionId := ⟨List.replicate 32 '0', by decide, by decide⟩
  chapterNumber := 1
  sectionNumber := 1
  title := "수출".toList
  chapterTitle := []
  direction := []
  keyPoints := []
  analysts := []
  searchQueries := []
  buildsOn := []
  minChars := none
  maxChars := none

def chartBody : Text := "```chart\ntype: bar\ntitle: 수출\nx: 23 | 24\nseries: 액 = 1 | 3\n```".toList

/-- A chart counts as a visual in the report and not on the screen. -/
theorem chart_shown_only : ¬ ∀ (titles : Nat → Option Text) (hints : List Text) (sectionId : Uuid)
    (citations : List SectionCitation) (plan : SectionPlan) (body : Text),
    FiguresAgree titles hints sectionId citations plan body := by
  intro h
  obtain ⟨blocks, hblocks, hperm⟩ := h (fun _ => none) [] chartPlan.sectionId [] chartPlan chartBody
  have hplaced : (sectionBlocks (fun _ => none) [] chartPlan chartBody).map
      (fun blocks => (figureCaptions blocks).length) = some 0 := by
    decide
  have hshown : (sectionFigures chartPlan.sectionId ⟨chartPlan.chapterNumber, chartPlan.sectionNumber,
      chartPlan.title, some chartBody⟩ []).length = 1 := by
    decide
  have hlen := hperm.length_eq
  rw [hblocks] at hplaced
  have hnone : (figureCaptions blocks).length = 0 := Option.some.inj hplaced
  rw [hnone, List.length_map, hshown] at hlen
  cases hlen

end RownRg.Export

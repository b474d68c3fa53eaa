import Mathlib.Data.List.SplitBy
import RownRg.Export.Blocks
import RownRg.Lib.Lexing

/-! What of a body is found again in its blocks. -/

open PyText Regex RownRg.Charts RownRg.Citations

namespace RownRg.Export

/-- Two lines that go on in one paragraph or one table. -/
def sameRun (a b : Text) : Bool :=
  match lineOf a, lineOf b with
  | .words _, .words _ | .row _, .row _ => true
  | _, _ => false

/-- The runs of lines of a body. -/
def runs (md : Text) : List (List Text) := (splitLines md).splitBy sameRun

/-- A table of rows, without caption. -/
def plainTable (rows : List (List Text)) : Table := ⟨rows.headD [], rows.tail, [], [], []⟩

/-- The rows of a run that are no separators. -/
def rowsOf (cellsOf : Text → List Text) (run : List Text) : List (List Text) :=
  (run.map fun l => cellsOf (strip l)).filter fun cells => !isSeparatorRow cells

/-- What a run of lines says, where `cellsOf` reads a row: the lines of a paragraph with blanks
between, the rows of a table, the text behind the marks of a heading or a quotation. -/
def runBlocks (cellsOf : Text → List Text) : List Text → List Block
  | [] => []
  | l :: ls =>
    match lineOf l with
    | .words _ => [.paragraph (joinWith [' '] ((l :: ls).map strip)) 0]
    | .row _ =>
      if (rowsOf cellsOf (l :: ls)).isEmpty then [] else [.table (plainTable (rowsOf cellsOf (l :: ls)))]
    | .quote text => if text.isEmpty then [] else [.paragraph text 1]
    | .heading marks text => [headingOf marks (strip text)]
    | .item level text => [.paragraph text level]
    | .blank | .rule | .chart _ => []

/-- The texts of a run that are looked through for inline marks. -/
def runTexts (cellsOf : Text → List Text) : List Text → List Text
  | [] => []
  | l :: ls =>
    match lineOf l with
    | .words _ => [joinWith [' '] ((l :: ls).map strip)]
    | .row _ => (rowsOf cellsOf (l :: ls)).flatten
    | .quote text | .heading _ text | .item _ text => [text]
    | .blank | .rule | .chart _ => []

/-- No chart, no inline marks, no invented brackets, no year apostrophe to set right. -/
structure Bare (cellsOf : Text → List Text) (md : Text) : Prop where
  fence : hasChartFence md = false
  token : ∀ l ∈ splitLines md, ∀ index, lineOf l ≠ .chart index
  inline : ∀ run ∈ runs md, ∀ text ∈ runTexts cellsOf run, cleanInline text = text

/-- The paragraphs before a table whose texts are its title and its unit, a label apart. -/
inductive Moved : List Block → Text → Text → Prop
  | nothing : Moved [] [] []
  | unit {text : Text} {indent : Nat} : Moved [.paragraph text indent] [] (strip text)
  | title {text label rest : Text} {indent : Nat} (hlabel : captionLabelRe.Accepts label)
      (h : strip text = label ++ rest) : Moved [.paragraph text indent] (strip rest) []
  | titleUnit {text label rest unit tail : Text} {indent : Nat}
      (hlabel : captionLabelRe.Accepts label) (htail : ∀ c ∈ tail, isSpace c)
      (h : strip text = label ++ (rest ++ (unit ++ tail))) :
      Moved [.paragraph text indent] (strip rest) unit
  | both {text label rest unit : Text} {indent indent' : Nat} (hlabel : captionLabelRe.Accepts label)
      (h : strip text = label ++ rest) :
      Moved [.paragraph text indent, .paragraph unit indent'] (strip rest) (strip unit)

/-- The second list is the first one, with the captions and units moved into their tables. -/
inductive Captioned : List Block → List Block → Prop
  | nil : Captioned [] []
  | keep {bs cs : List Block} (h : Captioned bs cs) (b : Block) : Captioned (bs ++ [b]) (cs ++ [b])
  | moved {bs cs ps : List Block} {t : Table} {title unit : Text} (h : Captioned bs cs)
      (hps : Moved ps title unit) :
      Captioned (bs ++ ps ++ [.table t]) (cs ++ [.table { t with caption := title, unit := unit }])

/-- `| c1 | ... | ck |` -/
def writtenRow (cells : List Text) : Text :=
  "| ".toList ++ (joinWith " | ".toList cells ++ " |".toList)

/-- Every body gives the blocks of its runs of lines, in their order, and every row the cells that
were written, each in its column. -/
structure Recovers (cellsOf : Text → List Text) : Prop where
  lines : ∀ md, Bare cellsOf md → ∃ blocks, markdownToBlocks md = some blocks ∧
    Captioned ((runs md).flatMap (runBlocks cellsOf)) blocks
  cells : ∀ cells, cells ≠ [] → (∀ c ∈ cells, '|' ∉ c ∧ strip c = c) →
    tableCells (writtenRow cells) = cells

variable {bs cs : List Block} {b : Block} {s s' : Reader} {charts : List ChartSpec} {l l' : Text}
  {fallback : ChartSpec → Option (Option Table)} {cellsOf : Text → List Text} {run : List Text}
  {t u v w x md : Text} {line : Line} {lines lines' : List Line} {cells : List Text}

/-! The caption of a table. -/

theorem Captioned.inv (h : Captioned bs (cs ++ [.paragraph t n])) :
    ∃ bs', bs = bs' ++ [.paragraph t n] ∧ Captioned bs' cs := by
  generalize hds : cs ++ [.paragraph t n] = ds at h
  cases h with
  | nil => simp at hds
  | @keep bs' cs' h b =>
    obtain ⟨rfl, hb⟩ := List.append_inj' hds rfl
    obtain rfl := List.cons.inj hb |>.1
    exact ⟨bs', rfl, h⟩
  | moved h hps =>
    have hb := List.append_inj_right' hds rfl
    cases (List.cons.inj hb).1

theorem plain_captionLabelRe : captionLabelRe.Plain := by
  simp [captionLabelRe, Tables.colon, spaces, opt, anyOf, cat, chr, Regex.space, plus, oneOf, noneOf,
    Plain]

/-- A caption line is a label and the title behind it. -/
theorem matchStart_caption {m : Match CaptionPart} (h : tableCaptionRe.matchStart t = some m) :
    ∃ label rest, captionLabelRe.Accepts label ∧ (∃ v, t = label ++ (rest ++ v) ∧ ∀ c ∈ v, isSpace c) ∧
      m.group .title = some rest := by
  obtain ⟨q, hq, u, rfl⟩ := mem_of_matchStart h
  simp only [tableCaptionRe, cat] at hq
  rw [mem_run_seq, textStart_run] at hq
  simp only [List.mem_singleton, exists_eq_left] at hq
  obtain ⟨label, v, hlabel, rfl, htail⟩ := (mem_run_seq_plain plain_captionLabelRe).mp hq
  have hdot : (plus dot : Regex CaptionPart).Plain := ⟨trivial, trivial⟩
  obtain ⟨rest, v', hrest, rfl, hlast⟩ := (mem_run_seq_group hdot).mp htail
  obtain ⟨rfl, hend⟩ := mem_textEnd hlast
  exact ⟨label, rest, hlabel, ⟨v', rfl, hend⟩, rfl⟩

/-- The unit at the end of a title. -/
theorem firstHit_trailingUnit {x : Text × Match CaptionPart}
    (h : firstHit (captionTrailingUnitRe.pieces t) = some x) :
    ∃ gap unit v, t = x.1 ++ (gap ++ (unit ++ v)) ∧ (∀ c ∈ gap, isSpace c) ∧ (∀ c ∈ v, isSpace c) ∧
      x.2.group .unit = some unit := by
  obtain ⟨rest, hx, hfirst⟩ := exists_firstHit h
  obtain ⟨q, hq, hm⟩ := Option.map_eq_some_iff.mp hfirst
  have hcaps : q.caps = x.2.caps := congrArg Match.caps (Prod.mk.inj hm).1
  have hspaces : (spaces : Regex CaptionPart).Plain := trivial
  have hunit : unitRe.Plain := by
    simp [unitRe, Tables.openParen, Tables.closeParen, Tables.colon, spaces, cat, Regex.space, oneOf,
      noneOf, plain_lit, Plain]
  have hmem := List.mem_of_head? hq
  simp only [captionTrailingUnitRe, cat] at hmem
  obtain ⟨gap, v, hgap, hv, hunit'⟩ := (mem_run_seq_plain hspaces).mp hmem
  obtain ⟨unit, v', -, rfl, hlast⟩ := (mem_run_seq_group hunit).mp hunit'
  obtain ⟨rfl, hend⟩ := mem_textEnd hlast
  refine ⟨gap, unit, v', ?_, accepts_star_cls.1 hgap, hend, ?_⟩
  · rw [hx, hv]
  · rw [Match.group, ← hcaps]
    rfl

/-- What `splitCaption` makes of the text behind the label. -/
theorem splitCaption_moved {label rest v : Text} {n : Nat} (hlabel : captionLabelRe.Accepts label)
    (h : strip t = label ++ (rest ++ v)) (hv : ∀ c ∈ v, isSpace c) :
    Moved [.paragraph t n] (splitCaption (strip rest) []).1 (splitCaption (strip rest) []).2 := by
  obtain ⟨a, z, ha, hz, hrest⟩ := exists_strip rest
  have hwhole : Moved [.paragraph t n] (strip rest) [] := by
    have hmoved : Moved [.paragraph t n] (strip (rest ++ v)) [] := .title hlabel h
    rwa [strip_append_right hv] at hmoved
  unfold splitCaption
  cases hhit : firstHit (captionTrailingUnitRe.pieces (strip rest)) with
  | none => exact hwhole
  | some x =>
    obtain ⟨before, m⟩ := x
    obtain ⟨gap, unit, w, hx, hgap, hw, hgroup⟩ := firstHit_trailingUnit hhit
    dsimp only at hx hgroup ⊢
    have htail : ∀ c ∈ w ++ (z ++ v), isSpace c := by
      intro c hc
      simp only [List.mem_append] at hc
      rcases hc with hc | hc | hc
      · exact hw c hc
      · exact hz c hc
      · exact hv c hc
    have hmoved : Moved [.paragraph t n] (strip (a ++ (before ++ gap))) unit := by
      refine .titleUnit hlabel htail ?_
      rw [h, hrest, hx]
      simp
    rw [strip_append_left ha, strip_append_right hgap] at hmoved
    simpa [hgroup] using hmoved

theorem splitCaption_unit {unit : Text} (hunit : unit ≠ []) (title : Text) :
    splitCaption title unit = (title, unit) := by
  unfold splitCaption
  split
  · rw [if_neg (by simpa using hunit)]
  · rfl

theorem popUnit_cases (cs : List Block) : popUnit cs = (cs, []) ∨
    ∃ cs' text indent, cs = cs' ++ [.paragraph text indent] ∧ popUnit cs = (cs', strip text) ∧
      strip text ≠ [] := by
  unfold popUnit
  split
  · rename_i text indent hlast
    split
    · rename_i hunit
      refine .inr ⟨cs.dropLast, text, indent, (List.dropLast_append_getLast? _ hlast).symm, rfl, ?_⟩
      intro hnil
      rw [hnil] at hunit
      exact absurd hunit (by decide)
    · exact .inl rfl
  · exact .inl rfl

/-- The caption that is taken goes into the table. -/
theorem captioned_pop (h : Captioned bs cs) (t : Table) :
    Captioned (bs ++ [.table t]) ((popTableCaption cs).1 ++ [.table { t with
      caption := (popTableCaption cs).2.1, unit := (popTableCaption cs).2.2 }]) := by
  obtain ⟨bs₁, ps, unit, hbs, hcap, hunit, hpop⟩ : ∃ bs₁ ps unit, bs = bs₁ ++ ps ∧
      Captioned bs₁ (popUnit cs).1 ∧ (popUnit cs).2 = unit ∧
      (ps = [] ∧ unit = [] ∨ ∃ text indent, ps = [.paragraph text indent] ∧ unit = strip text ∧
        unit ≠ []) := by
    rcases popUnit_cases cs with hpop | ⟨cs', text, indent, rfl, hpop, hne⟩
    · exact ⟨bs, [], [], by simp, by rw [hpop]; exact h, by rw [hpop], .inl ⟨rfl, rfl⟩⟩
    · obtain ⟨bs', rfl, hinit⟩ := h.inv
      exact ⟨bs', [.paragraph text indent], strip text, rfl, by rw [hpop]; exact hinit, by rw [hpop],
        .inr ⟨text, indent, rfl, rfl, hne⟩⟩
  have huntitled : Moved ps [] unit := by
    rcases hpop with ⟨rfl, rfl⟩ | ⟨text, indent, rfl, rfl, -⟩
    · exact .nothing
    · exact .unit
  unfold popTableCaption
  dsimp only
  rw [hunit, hbs]
  split
  · rename_i text indent hlast
    cases hmatch : tableCaptionRe.matchStart (strip text) with
    | none => exact .moved hcap huntitled
    | some m =>
      obtain ⟨label, rest, hlabel, ⟨v, htext, hv⟩, hgroup⟩ := matchStart_caption hmatch
      have hdrop := List.dropLast_append_getLast? _ hlast
      rw [← hdrop] at hcap
      obtain ⟨bs₂, rfl, hinit⟩ := hcap.inv
      dsimp only
      rw [hgroup, Option.getD_some]
      rcases hpop with ⟨rfl, rfl⟩ | ⟨text', indent', rfl, hunit', hne⟩
      · rw [List.append_nil]
        exact .moved hinit (splitCaption_moved hlabel htext hv)
      · rw [splitCaption_unit hne, hunit', List.append_assoc bs₂]
        have hmoved : Moved [.paragraph _ indent, .paragraph text' indent'] (strip (rest ++ v))
            (strip text') := .both hlabel htext
        rw [strip_append_right hv] at hmoved
        exact .moved hinit hmoved
  · exact .moved hcap huntitled

/-! The loop, run by run. -/

/-- What the end of the body does to the open paragraph and the open table. -/
def Reader.close (s : Reader) : Reader := s.flushPara.flushTable

theorem readLines_eq (fallback : ChartSpec → Option (Option Table)) (charts : List ChartSpec)
    (s : Reader) (lines : List Line) : readLines fallback charts s lines =
      (lines.foldlM (readLine fallback charts) s).map Reader.close := by
  induction lines generalizing s with
  | nil => rfl
  | cons line lines ih =>
    rw [readLines, List.foldlM_cons, Option.bind_eq_bind, Option.map_bind]
    exact congrArg _ (funext fun s' => ih s')

theorem flushPara_empty (h : s.para = []) : s.flushPara = s := by simp [Reader.flushPara, h]

theorem flushTable_empty (h : s.table = []) : s.flushTable = s := by
  obtain ⟨blocks, para, table⟩ := s
  obtain rfl : table = [] := h
  rfl

theorem para_flushTable (s : Reader) : s.flushTable.para = s.para := by
  unfold Reader.flushTable
  dsimp only
  split <;> rfl

theorem para_flushPara (s : Reader) : s.flushPara.para = [] := by
  unfold Reader.flushPara
  split
  · rename_i h
    exact List.isEmpty_iff.mp h
  · rfl

/-- Lines of words go to the paragraph. -/
theorem read_words (ts : List Text) (hne : ts ≠ []) (s : Reader) :
    (ts.map Line.words).foldlM (readLine fallback charts) s =
      some { s.flushTable with para := s.para ++ ts } := by
  have hopen : ∀ ts : List Text, ∀ s : Reader, s.table = [] →
      (ts.map Line.words).foldlM (readLine fallback charts) s = some { s with para := s.para ++ ts } := by
    intro ts
    induction ts with
    | nil =>
      intro s _
      simp
    | cons t ts ih =>
      intro s hs
      rw [List.map_cons, List.foldlM_cons, readLine, flushTable_empty hs]
      exact (ih { s with para := s.para ++ [t] } hs).trans (by simp)
  obtain ⟨t, ts, rfl⟩ := List.exists_cons_of_ne_nil hne
  rw [List.map_cons, List.foldlM_cons, readLine]
  refine (hopen ts { s.flushTable with para := s.flushTable.para ++ [t] } (table_flushTable s)).trans ?_
  simp [para_flushTable]

theorem read_rows (rows : List (List Text)) (hne : rows ≠ []) (s : Reader) :
    (rows.map Line.row).foldlM (readLine fallback charts) s =
      some { s.flushPara with table := s.table ++ rows } := by
  have hopen : ∀ rows : List (List Text), ∀ s : Reader, s.para = [] →
      (rows.map Line.row).foldlM (readLine fallback charts) s =
        some { s with table := s.table ++ rows } := by
    intro rows
    induction rows with
    | nil =>
      intro s _
      simp
    | cons row rows ih =>
      intro s hs
      rw [List.map_cons, List.foldlM_cons, readLine, flushPara_empty hs]
      exact (ih { s with table := s.table ++ [row] } hs).trans (by simp)
  obtain ⟨row, rows, rfl⟩ := List.exists_cons_of_ne_nil hne
  rw [List.map_cons, List.foldlM_cons, readLine]
  refine (hopen rows { s.flushPara with table := s.flushPara.table ++ [row] }
    (para_flushPara s)).trans ?_
  simp [table_flushPara]

theorem close_open (h : s.para = [] ∨ s.table = []) : s.flushTable.flushPara = s.close := by
  unfold Reader.close
  rcases h with h | h
  · rw [flushPara_empty h, flushPara_empty ((para_flushTable s).trans h)]
  · rw [flushTable_empty h, flushTable_empty ((table_flushPara s).trans h)]

theorem para_close (s : Reader) : s.close.para = [] := (para_flushTable _).trans (para_flushPara s)

theorem table_close (s : Reader) : s.close.table = [] := table_flushTable _

theorem close_closed (hpara : s.para = []) (htable : s.table = []) : s.close = s := by
  rw [Reader.close, flushPara_empty hpara, flushTable_empty htable]

/-- What is emitted after the close is there when all is closed. -/
theorem close_emit (s : Reader) (b : Block) : (s.close.emit b).close = s.close.emit b :=
  close_closed (para_close s) (table_close s)

theorem lineOf_words (h : lineOf l = .words t) : t = strip l := by
  unfold lineOf at h
  dsimp only at h
  split at h
  · cases h
  · split at h
    · cases h
    · split at h
      · cases h
      · split at h
        · cases h
        · split at h
          · cases h
          · split at h
            · cases h
            · split at h
              · cases h
              · exact (Line.words.inj h).symm

theorem lineOf_row (h : lineOf l = .row cells) : cells = tableCells (strip l) := by
  unfold lineOf at h
  dsimp only at h
  split at h
  · cases h
  · split at h
    · cases h
    · split at h
      · cases h
      · split at h
        · exact (Line.row.inj h).symm
        · split at h
          · cases h
          · split at h
            · cases h
            · split at h <;> cases h

theorem sameRun_words (h : sameRun l l') (hl : lineOf l = .words t) : lineOf l' = .words (strip l') := by
  unfold sameRun at h
  split at h
  · rename_i u v hu hv
    rw [hv, lineOf_words hv]
  · rename_i u v hu hv
    rw [hl] at hu
    cases hu
  · cases h

theorem sameRun_row (h : sameRun l l') (hl : lineOf l = .row cells) :
    lineOf l' = .row (tableCells (strip l')) := by
  unfold sameRun at h
  split at h
  · rename_i u v hu hv
    rw [hl] at hu
    cases hu
  · rename_i u v hu hv
    rw [hv, lineOf_row hv]
  · cases h

theorem run_words {ls : List Text} (h : (l :: ls).IsChain fun a b => sameRun a b)
    (hl : lineOf l = .words t) : (l :: ls).map lineOf = ((l :: ls).map strip).map .words := by
  induction ls generalizing l t with
  | nil => simp [hl, lineOf_words hl]
  | cons l' ls ih =>
    obtain ⟨hsame, hrest⟩ := List.isChain_cons_cons.mp h
    rw [List.map_cons, ih hrest (sameRun_words hsame hl), hl, lineOf_words hl]
    rfl

theorem run_rows {ls : List Text} (h : (l :: ls).IsChain fun a b => sameRun a b)
    (hl : lineOf l = .row cells) :
    (l :: ls).map lineOf = ((l :: ls).map fun l => tableCells (strip l)).map .row := by
  induction ls generalizing l cells with
  | nil => simp [hl, lineOf_row hl]
  | cons l' ls ih =>
    obtain ⟨hsame, hrest⟩ := List.isChain_cons_cons.mp h
    rw [List.map_cons, ih hrest (sameRun_row hsame hl), hl, lineOf_row hl]
    rfl

/-- A paragraph or a table is open, and only behind a line of its kind. -/
structure Tidy (s : Reader) (last : Option Text) : Prop where
  one : s.para = [] ∨ s.table = []
  words : s.para ≠ [] → ∃ l ∈ last, ∃ t, lineOf l = .words t
  rows : s.table ≠ [] → ∃ l ∈ last, ∃ cells, lineOf l = .row cells

variable {last : Option Text}

theorem Tidy.para_nil (h : Tidy s last) (hnew : ∀ x ∈ last, sameRun x l = false)
    (hl : lineOf l = .words t) : s.para = [] := by
  by_contra hne
  obtain ⟨x, hx, u, hu⟩ := h.words hne
  have hno := hnew x hx
  simp [sameRun, hu, hl] at hno

theorem Tidy.table_nil (h : Tidy s last) (hnew : ∀ x ∈ last, sameRun x l = false)
    (hl : lineOf l = .row cells) : s.table = [] := by
  by_contra hne
  obtain ⟨x, hx, u, hu⟩ := h.rows hne
  have hno := hnew x hx
  simp [sameRun, hu, hl] at hno

theorem tidy_closed (hpara : s.para = []) (htable : s.table = []) : Tidy s last :=
  ⟨.inl hpara, fun h => absurd hpara h, fun h => absurd htable h⟩

/-- A paragraph of words behind closed blocks. -/
theorem step_words {ls : List Text} (h : Captioned bs s.close.blocks)
    (hpara : s.para = []) (hchain : (l :: ls).IsChain fun a b => sameRun a b)
    (hl : lineOf l = .words t)
    (hbare : cleanInline (joinWith [' '] ((l :: ls).map strip)) = joinWith [' '] ((l :: ls).map strip)) :
    ∃ s', ((l :: ls).map lineOf).foldlM (readLine fallback charts) s = some s' ∧
      Tidy s' (l :: ls).getLast? ∧
      Captioned (bs ++ [.paragraph (joinWith [' '] ((l :: ls).map strip)) 0]) s'.close.blocks := by
  refine ⟨{ s.flushTable with para := s.para ++ (l :: ls).map strip }, ?_, ?_, ?_⟩
  · rw [run_words hchain hl]
    exact read_words _ (by simp) s
  · refine ⟨.inr (table_flushTable s), fun _ => ?_, fun hne => absurd (table_flushTable s) hne⟩
    obtain ⟨x, hx⟩ := Option.isSome_iff_exists.mp (by simp : (l :: ls).getLast?.isSome)
    have hmem : lineOf x ∈ (l :: ls).map lineOf := List.mem_map_of_mem (List.mem_of_getLast? hx)
    rw [run_words hchain hl] at hmem
    obtain ⟨u, -, hu⟩ := List.mem_map.mp hmem
    exact ⟨x, hx, u, hu.symm⟩
  · have hopen : s.flushTable = s.close := by rw [Reader.close, flushPara_empty hpara]
    have hclose : (Reader.close { s.flushTable with para := s.para ++ (l :: ls).map strip }).blocks =
        s.close.blocks ++ [.paragraph (joinWith [' '] ((l :: ls).map strip)) 0] := by
      rw [hpara, List.nil_append, Reader.close, flushTable_empty]
      · rw [Reader.flushPara, if_neg (by simp), hbare, hopen]
        rfl
      · rw [table_flushPara]
        exact table_flushTable s
    rw [hclose]
    exact h.keep _

/-- A table behind closed blocks. -/
theorem step_rows {ls : List Text} (h : Captioned bs s.close.blocks)
    (htable : s.table = []) (hchain : (l :: ls).IsChain fun a b => sameRun a b)
    (hl : lineOf l = .row cells)
    (hbare : ∀ c ∈ (rowsOf tableCells (l :: ls)).flatten, cleanInline c = c) :
    ∃ s', ((l :: ls).map lineOf).foldlM (readLine fallback charts) s = some s' ∧
      Tidy s' (l :: ls).getLast? ∧
      Captioned (bs ++ if (rowsOf tableCells (l :: ls)).isEmpty then []
        else [.table (plainTable (rowsOf tableCells (l :: ls)))]) s'.close.blocks := by
  refine ⟨{ s.flushPara with table := s.table ++ (l :: ls).map fun l => tableCells (strip l) }, ?_, ?_, ?_⟩
  · rw [run_rows hchain hl]
    exact read_rows _ (by simp) s
  · refine ⟨.inl (para_flushPara s), fun hne => absurd (para_flushPara s) hne, fun _ => ?_⟩
    obtain ⟨x, hx⟩ := Option.isSome_iff_exists.mp (by simp : (l :: ls).getLast?.isSome)
    have hmem : lineOf x ∈ (l :: ls).map lineOf := List.mem_map_of_mem (List.mem_of_getLast? hx)
    rw [run_rows hchain hl] at hmem
    obtain ⟨u, -, hu⟩ := List.mem_map.mp hmem
    exact ⟨x, hx, u, hu.symm⟩
  · have hopen : s.flushPara = s.close := by
      rw [Reader.close, flushTable_empty ((table_flushPara s).trans htable)]
    rw [htable, List.nil_append, hopen, Reader.close]
    dsimp only
    have hpara : (⟨s.close.blocks, s.close.para, (l :: ls).map fun l => tableCells (strip l)⟩ :
      Reader).flushPara = _ := flushPara_empty (para_close s)
    rw [hpara, Reader.flushTable]
    dsimp only
    have hrows : ((l :: ls).map fun l => tableCells (strip l)).filter (fun cells => !isSeparatorRow cells) =
        rowsOf tableCells (l :: ls) := rfl
    rw [hrows]
    by_cases hnone : (rowsOf tableCells (l :: ls)).isEmpty
    · rw [if_pos hnone, if_pos hnone, List.append_nil]
      exact h
    · rw [if_neg hnone, if_neg hnone]
      have hclean : (rowsOf tableCells (l :: ls)).map (fun row => row.map cleanInline) =
          rowsOf tableCells (l :: ls) := by
        have hrow : ∀ row ∈ rowsOf tableCells (l :: ls), row.map cleanInline = id row := fun row hrow =>
          (List.map_congr_left fun c hc => hbare c (List.mem_flatten.mpr ⟨row, hrow, hc⟩)).trans
            (List.map_id row)
        exact (List.map_congr_left hrow).trans (List.map_id _)
      have hpop := captioned_pop h (plainTable (rowsOf tableCells (l :: ls)))
      rw [tableOf, hclean]
      generalize rowsOf tableCells (l :: ls) = rows at hpop ⊢
      generalize popTableCaption s.close.blocks = popped at hpop ⊢
      obtain ⟨blocks, title, unit⟩ := popped
      exact hpop

/-- A line that stands for itself. -/
theorem step_single (h : Captioned bs s.close.blocks) (hone : s.para = [] ∨ s.table = [])
    (hwords : ∀ t, lineOf l ≠ .words t) (hrow : ∀ cells, lineOf l ≠ .row cells)
    (hchart : ∀ index, lineOf l ≠ .chart index)
    (hbare : ∀ text ∈ runTexts tableCells [l], cleanInline text = text) :
    ∃ s', readLine fallback charts s (lineOf l) = some s' ∧ s'.para = [] ∧ s'.table = [] ∧
      Captioned (bs ++ runBlocks tableCells [l]) s'.close.blocks := by
  have hemit : ∀ b, Captioned (bs ++ [b]) ((s.close.emit b).close).blocks := by
    intro b
    rw [close_emit]
    exact h.keep b
  have hclosed : Captioned bs s.close.close.blocks := by
    rw [close_closed (para_close s) (table_close s)]
    exact h
  rw [runTexts] at hbare
  rw [runBlocks]
  cases hl : lineOf l with
  | words t => exact absurd hl (hwords t)
  | row cells => exact absurd hl (hrow cells)
  | chart index => exact absurd hl (hchart index)
  | blank | rule =>
    refine ⟨s.close, rfl, para_close s, table_close s, ?_⟩
    exact (List.append_nil bs).symm ▸ hclosed
  | quote text =>
    rw [hl] at hbare
    have htext := hbare text List.mem_cons_self
    refine ⟨_, rfl, ?_⟩
    rw [htext, close_open hone]
    dsimp only
    by_cases hempty : text.isEmpty
    · rw [if_pos hempty, if_pos hempty, List.append_nil]
      exact ⟨para_close s, table_close s, hclosed⟩
    · rw [if_neg hempty, if_neg hempty]
      exact ⟨para_close s, table_close s, hemit _⟩
  | heading marks text =>
    rw [hl] at hbare
    have htext := hbare text List.mem_cons_self
    refine ⟨_, rfl, ?_⟩
    rw [htext, close_open hone]
    exact ⟨para_close s, table_close s, hemit _⟩
  | item level text =>
    rw [hl] at hbare
    have htext := hbare text List.mem_cons_self
    refine ⟨_, rfl, ?_⟩
    rw [htext, close_open hone]
    exact ⟨para_close s, table_close s, hemit _⟩

theorem single_run {ls : List Text} (h : (l :: ls).IsChain fun a b => sameRun a b)
    (hwords : ∀ t, lineOf l ≠ .words t) (hrow : ∀ cells, lineOf l ≠ .row cells) : ls = [] := by
  cases ls with
  | nil => rfl
  | cons l' ls =>
    have hsame := (List.isChain_cons_cons.mp h).1
    unfold sameRun at hsame
    split at hsame
    · rename_i u v hu hv
      exact absurd hu (hwords u)
    · rename_i u v hu hv
      exact absurd hu (hrow u)
    · cases hsame

/-- Reading one run adds what it says. -/
theorem step_run {ls : List Text} (h : Captioned bs s.close.blocks) (htidy : Tidy s last)
    (hnew : ∀ x ∈ last, sameRun x l = false) (hchain : (l :: ls).IsChain fun a b => sameRun a b)
    (hchart : ∀ x ∈ l :: ls, ∀ index, lineOf x ≠ .chart index)
    (hbare : ∀ text ∈ runTexts tableCells (l :: ls), cleanInline text = text) :
    ∃ s', ((l :: ls).map lineOf).foldlM (readLine fallback charts) s = some s' ∧
      Tidy s' (l :: ls).getLast? ∧
      Captioned (bs ++ runBlocks tableCells (l :: ls)) s'.close.blocks := by
  by_cases hwords : ∃ t, lineOf l = .words t
  · obtain ⟨t, hl⟩ := hwords
    rw [runTexts, hl] at hbare
    rw [runBlocks, hl]
    exact step_words h (htidy.para_nil hnew hl) hchain hl (hbare _ List.mem_cons_self)
  · by_cases hrow : ∃ cells, lineOf l = .row cells
    · obtain ⟨cells, hl⟩ := hrow
      rw [runTexts, hl] at hbare
      rw [runBlocks, hl]
      exact step_rows h (htidy.table_nil hnew hl) hchain hl hbare
    · have hwords : ∀ t, lineOf l ≠ .words t := not_exists.mp hwords
      have hrow : ∀ cells, lineOf l ≠ .row cells := not_exists.mp hrow
      obtain rfl := single_run hchain hwords hrow
      obtain ⟨s', hs', hpara, htable, hblocks⟩ :=
        step_single h htidy.one hwords hrow (hchart l List.mem_cons_self) hbare
      refine ⟨s', ?_, tidy_closed hpara htable, hblocks⟩
      rw [List.map_singleton, List.foldlM_cons, hs']
      rfl

/-- Reading all runs. -/
theorem read_runs (rs : List (List Text)) (hne : [] ∉ rs)
    (hchain : ∀ run ∈ rs, run.IsChain fun a b => sameRun a b)
    (hcut : rs.IsChain fun a b => ∃ ha hb, sameRun (a.getLast ha) (b.head hb) = false)
    (hchart : ∀ run ∈ rs, ∀ x ∈ run, ∀ index, lineOf x ≠ .chart index)
    (hbare : ∀ run ∈ rs, ∀ text ∈ runTexts tableCells run, cleanInline text = text)
    (h : Captioned bs s.close.blocks) (htidy : Tidy s last)
    (hnew : ∀ x ∈ last, ∀ run ∈ rs.head?, ∀ l ∈ run.head?, sameRun x l = false) :
    ∃ s', (rs.flatten.map lineOf).foldlM (readLine fallback charts) s = some s' ∧
      Captioned (bs ++ rs.flatMap (runBlocks tableCells)) s'.close.blocks := by
  induction rs generalizing bs s last with
  | nil => exact ⟨s, rfl, by simpa using h⟩
  | cons run rs ih =>
    obtain ⟨l, ls, rfl⟩ : ∃ l ls, run = l :: ls :=
      List.exists_cons_of_ne_nil fun hnil => hne (by simp [hnil])
    obtain ⟨s₁, hs₁, htidy₁, hblocks⟩ := @step_run _ _ charts _ fallback _ _ h htidy
      (fun x hx => hnew x hx _ rfl l rfl) (hchain _ List.mem_cons_self)
      (hchart _ List.mem_cons_self) (hbare _ List.mem_cons_self)
    obtain ⟨s', hs', hrest⟩ := ih (fun hmem => hne (List.mem_cons_of_mem _ hmem))
      (fun r hr => hchain r (List.mem_cons_of_mem _ hr)) hcut.tail
      (fun r hr => hchart r (List.mem_cons_of_mem _ hr))
      (fun r hr => hbare r (List.mem_cons_of_mem _ hr)) hblocks htidy₁ (by
        intro x hx r hr y hy
        cases rs with
        | nil => cases hr
        | cons r' rs =>
          obtain rfl := Option.some.inj hr
          obtain ⟨ha, hb, hno⟩ := (List.isChain_cons_cons.mp hcut).1
          rw [List.getLast?_eq_some_getLast ha] at hx
          rw [List.head?_eq_some_head hb] at hy
          obtain rfl := Option.some.inj hx
          obtain rfl := Option.some.inj hy
          exact hno)
    refine ⟨s', ?_, ?_⟩
    · rw [List.flatten_cons, List.map_append, List.foldlM_append, hs₁]
      exact hs'
    · rw [List.flatMap_cons, ← List.append_assoc]
      exact hrest

theorem extractFrom_plain {ps : List (Piece FenceGroup)} (h : hits ps = []) (specs : List ChartSpec) :
    extractFrom specs ps = (render ps, specs) := by
  induction ps with
  | nil => rfl
  | cons p ps ih =>
    cases p with
    | plain c =>
      rw [extractFrom, ih h]
      rfl
    | hit m => cases h

theorem extractCharts_plain (h : hasChartFence md = false) : extractCharts md = (md, []) := by
  have hhits : hits (chartFenceRe.pieces md) = [] := by
    cases hfind : chartFenceRe.finditer md with
    | nil => exact hfind
    | cons m ms =>
      rw [hasChartFence, found, search, hfind] at h
      cases h
  rw [extractCharts, extractFrom_plain hhits, render_pieces]

/-- The blocks are those of the runs of lines, but for the captions. -/
theorem captioned_markdownToBlocks (h : Bare tableCells md) : ∃ blocks,
    markdownToBlocks md = some blocks ∧ Captioned ((runs md).flatMap (runBlocks tableCells)) blocks := by
  have hflat : (runs md).flatten = splitLines md := List.flatten_splitBy sameRun _
  obtain ⟨s', hs', hblocks⟩ := @read_runs [] ⟨[], [], []⟩ [] (fallbackTable md.length) none (runs md)
    (List.nil_notMem_splitBy _ _) (fun run hrun => List.isChain_of_mem_splitBy hrun)
    (List.isChain_getLast_head_splitBy _ _)
    (fun run hrun x hx => h.token x (by rw [← hflat]; exact List.mem_flatten.mpr ⟨run, hrun, hx⟩))
    h.inline .nil (tidy_closed rfl rfl) (fun x hx => by cases hx)
  refine ⟨s'.close.blocks, ?_, hblocks⟩
  rw [markdownToBlocks, blocksWith, readLines_eq, linesOf, extractCharts_plain h.fence]
  dsimp only
  rw [← hflat, hs']
  rfl

/-! The cells of a written row. -/

theorem last_sourceTail (h : sourceTailRe.Accepts w) : ∃ u v, w = u ++ ')' :: v ∧ ∀ c ∈ v, isSpace c := by
  have hspaces : ∀ x, (spaces : Regex Unit).Accepts x ↔ ∀ c ∈ x, isSpace c := fun x => accepts_star_cls
  simp only [sourceTailRe, cat, Accepts, accepts_chr] at h
  obtain ⟨a, _, -, ⟨b, _, -, ⟨c, _, -, ⟨d, _, -, ⟨e, _, -, ⟨_, v, rfl, hv, rfl⟩, rfl⟩, rfl⟩, rfl⟩, rfl⟩,
    rfl⟩ := h
  exact ⟨a ++ (b ++ (c ++ (d ++ e))), v, by simp, (hspaces v).mp hv⟩

/-- A line that ends in a bar has no source mark behind it. -/
theorem tail_none (t : Text) : rowTailSourceRe.sub (fun _ => ['|']) (t ++ ['|']) = t ++ ['|'] := by
  refine sub_of_firstHit _ ?_
  by_contra hne
  obtain ⟨x, hx⟩ := Option.ne_none_iff_exists'.mp hne
  obtain ⟨rest, htext, hfirst⟩ := exists_firstHit hx
  obtain ⟨q, hq, hm⟩ := Option.map_eq_some_iff.mp hfirst
  have hplain : sourceTailRe.Plain := by
    simp [sourceTailRe, Tables.words, spaces, anyOf, cat, chr, Regex.space, noneOf, plain_lit, Plain]
  obtain ⟨w, v, hw, hv, hend⟩ := (mem_run_seq_plain hplain).mp (List.mem_of_head? hq)
  obtain ⟨-, hspace⟩ := mem_textEnd hend
  obtain ⟨u, z, rfl, hz⟩ := last_sourceTail hw
  rw [hv] at htext
  have hlast := congrArg List.getLast? htext
  rw [List.getLast?_concat] at hlast
  have hbar : '|' ∈ ')' :: (z ++ v) := by
    refine List.mem_of_getLast? (a := '|') ?_
    have hsplit : x.1 ++ (u ++ ')' :: z ++ v) = (x.1 ++ u) ++ (')' :: (z ++ v)) := by simp
    rw [hsplit, List.getLast?_append_of_ne_nil _ (List.cons_ne_nil _ _)] at hlast
    exact hlast.symm
  simp only [List.mem_cons, List.mem_append] at hbar
  rcases hbar with hbar | hbar | hbar
  · cases hbar
  · exact absurd (hz _ hbar) (by decide)
  · exact absurd (hspace _ hbar) (by decide)

/-- The cells of a row, each between two blanks. -/
def padded (cells : List Text) : List Text := cells.map fun c => ' ' :: (c ++ [' '])

theorem intercalate_padded (h : cells ≠ []) :
    List.intercalate ['|'] (padded cells) = ' ' :: (joinWith " | ".toList cells ++ [' ']) := by
  induction cells with
  | nil => exact absurd rfl h
  | cons c cells ih =>
    cases cells with
    | nil => simp [joinWith, padded]
    | cons d cells =>
      have ih := ih (List.cons_ne_nil d cells)
      simp only [joinWith, padded, List.map_cons, List.intercalate_cons_cons] at ih ⊢
      rw [ih]
      simp

theorem writtenRow_eq (h : cells ≠ []) :
    writtenRow cells = '|' :: (List.intercalate ['|'] (padded cells) ++ ['|']) := by
  rw [intercalate_padded h, writtenRow]
  simp

theorem stripBars_inner (hhead : ∀ c ∈ w.head?, isBar c = false)
    (hlast : ∀ c ∈ w.getLast?, isBar c = false) : stripBars ('|' :: (w ++ ['|'])) = w := by
  have hfront : ('|' :: (w ++ ['|'])).dropWhile isBar = (w ++ ['|']).dropWhile isBar := rfl
  rw [stripBars, hfront]
  cases w with
  | nil => rfl
  | cons c w =>
    have hc := hhead c rfl
    rw [List.cons_append, List.dropWhile_cons_of_neg (by simp [hc])]
    have hback : (c :: (w ++ ['|'])).reverse.dropWhile isBar = (c :: w).reverse := by
      rw [← List.cons_append, List.reverse_append, List.reverse_singleton, List.singleton_append,
        List.dropWhile_cons_of_pos rfl]
      refine List.dropWhile_eq_self_iff.mpr fun hpos => ?_
      have hmem := hlast ((c :: w).reverse[0]) (by
        rw [← List.head?_reverse]
        exact List.head?_eq_getElem? ▸ List.getElem?_eq_getElem hpos)
      exact ne_true_of_eq_false hmem
    rw [hback, List.reverse_reverse]

theorem tableCells_writtenRow (hne : cells ≠ []) (h : ∀ c ∈ cells, '|' ∉ c ∧ strip c = c) :
    tableCells (writtenRow cells) = cells := by
  have hbar : ∀ c ∈ padded cells, '|' ∉ c := by
    intro c hc
    obtain ⟨d, hd, rfl⟩ := List.mem_map.mp hc
    simp [(h d hd).1]
  have hsolid : Solid (writtenRow cells) := by
    rw [writtenRow_eq hne]
    refine ⟨List.cons_ne_nil _ _, ?_, ?_⟩
    · rintro c ⟨⟩
      decide
    · rw [← List.cons_append, List.getLast?_concat]
      rintro c ⟨⟩
      decide
  have hne' : padded cells ≠ [] := by simpa [padded] using hne
  have hsplit := List.splitOn_intercalate '|' hbar hne'
  have hhead : ∀ c ∈ (List.intercalate ['|'] (padded cells)).head?, isBar c = false := by
    rw [intercalate_padded hne]
    rintro c ⟨⟩
    decide
  have hlast : ∀ c ∈ (List.intercalate ['|'] (padded cells)).getLast?, isBar c = false := by
    rw [intercalate_padded hne, ← List.cons_append, List.getLast?_concat]
    rintro c ⟨⟩
    decide
  rw [tableCells, strip_solid hsolid, writtenRow_eq hne, ← List.cons_append, tail_none,
    List.cons_append, stripBars_inner hhead hlast, hsplit, padded, List.map_map]
  refine (List.map_congr_left fun c hc => ?_).trans (List.map_id cells)
  have hc := (h c hc).2
  rw [Function.comp_apply, ← List.singleton_append, strip_append_left (by decide),
    strip_append_right (by decide), hc]
  rfl

/-- Every piece of a row between two bars. -/
def rowPieces (line : Text) : List Text := ((stripBars line).splitOn '|').map strip

/-- The header rows of the tables. -/
def headerRows (bs : List Block) : List (List Text) :=
  bs.filterMap fun b => match b with
    | .table t => some t.headers
    | _ => none

/-- Captions change no header. -/
theorem headerRows_captioned (h : Captioned bs cs) : headerRows bs = headerRows cs := by
  have happend : ∀ bs cs, headerRows (bs ++ cs) = headerRows bs ++ headerRows cs :=
    fun bs cs => List.filterMap_append
  induction h with
  | nil => rfl
  | keep h b ih => rw [happend, happend, ih]
  | moved h hps ih =>
    have hnone : ∀ {ps title unit}, Moved ps title unit → headerRows ps = [] := by
      rintro _ _ _ ⟨⟩ <;> rfl
    rw [happend, happend, happend, ih, hnone hps, List.append_nil]
    rfl

def markedRow : Text := "| 가 | 나 |(출처 3)".toList

end RownRg.Export

import RownRg.Core.ChartRoundTrip
import RownRg.Core.TableToChart

/-! What the charts are like that tables are drawn as. -/

open PyText Regex RownRg.Charts

namespace RownRg.Tables

variable {table : MarkdownTable} {choice : ConvertChoice} {block t line w : Text} {c : Char}
  {row : List Text} {col : Nat}

/-- No text of a table has a line break of the block in it, and no cell has a bar. -/
structure Celled (table : MarkdownTable) : Prop where
  caption : '\n' ∉ table.caption
  captionUnit : '\n' ∉ table.captionUnit
  headers : ∀ w ∈ table.headers, '\n' ∉ w
  rows : ∀ r ∈ table.rows, ∀ w ∈ r, '\n' ∉ w ∧ '|' ∉ w

theorem mem_cells (h : w ∈ cells line) (hc : c ∈ w) : c ∈ line ∧ c ≠ '|' := by
  unfold cells at h
  simp only at h
  obtain ⟨part, hpart, rfl⟩ := List.mem_map.mp h
  have hc := mem_replaceAll_nil (mem_of_mem_strip hc)
  obtain ⟨hbar, hmem⟩ := mem_splitOn hpart
  refine ⟨?_, fun he => hbar (he ▸ hc)⟩
  have hc := hmem c hc
  have hdrop : ∀ u : Text, c ∈ (if u.getLast? = some '|' then u.dropLast else u) → c ∈ u := by
    intro u hu
    split at hu
    · exact (List.dropLast_sublist u).mem hu
    · exact hu
  have hc := hdrop _ hc
  split at hc
  · exact mem_of_mem_strip ((List.drop_sublist _ _).mem hc)
  · exact mem_of_mem_strip hc

theorem mem_padded {n : Nat} (h : w ∈ padded n row) (hc : c ∈ w) : ∃ v ∈ row, c ∈ v := by
  obtain ⟨i, -, rfl⟩ := List.mem_map.mp h
  rw [List.getD_eq_getElem?_getD] at hc
  cases hi : row[i]? with
  | none => simp [hi] at hc
  | some v =>
    rw [hi] at hc
    exact ⟨v, List.mem_of_getElem? hi, hc⟩

/-- The text behind the label of a caption line. -/
def captionText (before : Text) : Text :=
  match captionRe.matchStart (strip (sourceMarkRe.sub (fun _ => []) before)) with
  | none => []
  | some m => strip ((m.group .rest).getD [])

theorem mem_captionText {before : Text} (hc : c ∈ captionText before) : c ∈ before := by
  unfold captionText at hc
  split at hc
  · cases hc
  · rename_i m hm
    exact mem_sub_nil (mem_of_mem_strip (mem_group hm (mem_of_mem_strip hc)))

theorem readCaption_eq (before : Text) : readCaption before =
    match firstHit (captionUnitRe.pieces (captionText before)) with
    | none => (captionText before, [])
    | some x => (strip x.1, (x.2.group .rest).getD []) := by
  unfold readCaption captionText
  cases captionRe.matchStart (strip (sourceMarkRe.sub (fun _ => []) before)) with
  | none =>
    dsimp only
    cases firstHit (captionUnitRe.pieces []) <;> rfl
  | some m =>
    dsimp only
    cases firstHit (captionUnitRe.pieces (strip ((m.group .rest).getD []))) <;> rfl

theorem mem_readCaption {before : Text} :
    (c ∈ (readCaption before).1 → c ∈ before) ∧ (c ∈ (readCaption before).2 → c ∈ before) := by
  rw [readCaption_eq]
  cases hhit : firstHit (captionUnitRe.pieces (captionText before)) with
  | none => exact ⟨mem_captionText, by simp⟩
  | some x =>
    refine ⟨fun hc => ?_, fun hc => ?_⟩
    · exact mem_captionText (mem_firstHit hhit (mem_of_mem_strip hc))
    · exact mem_captionText (mem_firstHit_group hhit hc)

theorem notMem_readCaption {before : Text} (h : '\n' ∉ before) :
    '\n' ∉ (readCaption before).1 ∧ '\n' ∉ (readCaption before).2 :=
  ⟨fun hc => h (mem_readCaption.1 hc), fun hc => h (mem_readCaption.2 hc)⟩

theorem celled_findTable (h : findTable block = some table) : Celled table := by
  unfold findTable at h
  split at h
  · cases h
  · dsimp only at h
    split at h
    · rename_i headers rows htable
      split at h
      · cases h
      · have hbefore : '\n' ∉ strip (joinWith [' ']
            ((block.splitOn '\n').takeWhile fun l => !isTableLine l)) := by
          intro hc
          rcases mem_joinWith (mem_of_mem_strip hc) with hc | ⟨l, hl, hc⟩
          · exact absurd hc (by decide)
          · exact (mem_splitOn ((List.takeWhile_sublist _).mem hl)).1 hc
        obtain ⟨hcaption, hunit⟩ := notMem_readCaption hbefore
        generalize readCaption (strip (joinWith [' ']
          ((block.splitOn '\n').takeWhile fun l => !isTableLine l))) = read at h hcaption hunit
        obtain rfl := Option.some.inj h
        have hcells : ∀ r ∈ headers :: rows, ∀ w ∈ r, ∀ c ∈ w, c ≠ '\n' ∧ c ≠ '|' := by
          intro r hr w hw c hc
          rw [← htable] at hr
          obtain ⟨line, hline, rfl⟩ := List.mem_map.mp hr
          have hline := (List.takeWhile_sublist _).mem (List.mem_of_mem_filter hline)
          obtain ⟨hmem, hbar⟩ := mem_cells hw hc
          have hbreak := (mem_splitOn ((List.dropWhile_sublist _).mem hline)).1
          exact ⟨fun he => hbreak (he ▸ hmem), hbar⟩
        obtain ⟨hheaders, hrows⟩ := List.forall_mem_cons.mp hcells
        refine ⟨hcaption, hunit, fun w hw hc => (hheaders w hw _ hc).1 rfl, fun r hrow w hw => ?_⟩
        obtain ⟨r, hr, rfl⟩ := List.mem_map.mp hrow
        refine ⟨fun hc => ?_, fun hc => ?_⟩
        · obtain ⟨v, hv, hc⟩ := mem_padded hw hc
          exact (hrows r hr v hv _ hc).1 rfl
        · obtain ⟨v, hv, hc⟩ := mem_padded hw hc
          exact (hrows r hr v hv _ hc).2 rfl
    · cases h

/-! Names and units. -/

theorem mem_splitUnit {header : Text} :
    (c ∈ (splitUnit header).1 → c ∈ header) ∧ (c ∈ (splitUnit header).2 → c ∈ header) := by
  unfold splitUnit
  cases hhit : firstHit (trailingParenRe.pieces header) with
  | none => exact ⟨mem_of_mem_strip, by simp⟩
  | some x =>
    dsimp only
    refine ⟨fun hc => ?_, fun hc => mem_firstHit_group hhit (mem_of_mem_strip hc)⟩
    split at hc
    · exact mem_of_mem_strip hc
    · exact mem_firstHit hhit (mem_of_mem_strip hc)

theorem strip_splitUnit (header : Text) : ∃ t, (splitUnit header).1 = strip t := by
  unfold splitUnit
  cases firstHit (trailingParenRe.pieces header) with
  | none => exact ⟨header, rfl⟩
  | some x =>
    dsimp only
    split
    · exact ⟨header, rfl⟩
    · exact ⟨x.1, rfl⟩

/-- The name of a series. -/
theorem solid_seriesName {header : Text} (hheader : '\n' ∉ header) (n : Nat) :
    Solid (orElse (splitUnit header).1 ("계열 ".toList ++ ofNat n)) ∧
      '\n' ∉ orElse (splitUnit header).1 ("계열 ".toList ++ ofNat n) := by
  unfold orElse
  split
  · have hprefix : Solid "계열".toList := ⟨by decide, by decide, by decide⟩
    refine ⟨solid_append hprefix (solid_ofNat n) [' '], fun hc => ?_⟩
    rcases List.mem_append.mp hc with hc | hc
    · exact absurd hc (by decide)
    · exact absurd (mem_ofNat_number hc) (by decide)
  · rename_i hne
    obtain ⟨t, ht⟩ := strip_splitUnit header
    refine ⟨?_, fun hc => hheader (mem_splitUnit.1 hc)⟩
    rw [ht] at hne ⊢
    exact solid_strip (by simpa using hne)

/-! The choice. -/

/-- What is known of a choice that was made without asking. -/
structure Chosen (table : MarkdownTable) (choice : ConvertChoice) : Prop where
  title : choice.title = table.caption
  titled : strip table.caption ≠ []
  someSeries : choice.seriesCols ≠ []
  fewSeries : choice.seriesCols.length ≤ maxSeries
  labelled : ∀ r ∈ table.rows, strip (cell r choice.xCol) ≠ []
  points : 3 ≤ table.rows.length
  unit : '\n' ∉ choice.unit
  pie : choice.type = .pie → choice.seriesCols.length = 1 ∧ table.rows.length ≤ maxSeries

theorem pieChoice_ok {pie : ConvertChoice} {labels : List Text}
    (h : pieChoice table choice labels = some pie) :
    pie = { choice with type := .pie, unit := pie.unit } ∧ choice.seriesCols.length = 1 ∧
      labels.length ≤ maxSeries ∧
        ∃ col, pie.unit = orElse (splitUnit (table.header col)).2 table.captionUnit := by
  unfold pieChoice at h
  split at h
  · rename_i col hcol
    dsimp only at h
    split at h
    · rename_i hcond
      obtain rfl := Option.some.inj h
      exact ⟨rfl, by simp [hcol], hcond.2.2.2.2.2.2, col, rfl⟩
    · cases h
  · cases h

theorem notMem_unit {unit : Text} (h : Celled table)
    (hunit : ∃ header, (header = [] ∨ header ∈ table.headers) ∧
      unit = orElse (splitUnit header).2 table.captionUnit) : '\n' ∉ unit := by
  obtain ⟨header, hheader, rfl⟩ := hunit
  have hbreak : '\n' ∉ header := by
    rcases hheader with rfl | hmem
    · simp
    · exact h.headers header hmem
  unfold orElse
  split
  · exact h.captionUnit
  · exact fun hc => hbreak (mem_splitUnit.2 hc)

theorem header_cases (table : MarkdownTable) (col : Nat) :
    table.header col = [] ∨ table.header col ∈ table.headers := by
  unfold MarkdownTable.header cell
  rw [List.getD_eq_getElem?_getD]
  cases hcol : table.headers[col]? with
  | none => exact .inl rfl
  | some w => exact .inr (List.mem_of_getElem? hcol)

theorem unit_defaultChoice (table : MarkdownTable) :
    ∃ header, (header = [] ∨ header ∈ table.headers) ∧
      (defaultChoice table).unit = orElse (splitUnit header).2 table.captionUnit := by
  unfold defaultChoice
  extract_lets numeric xCol candidates headerUnit
  cases hcols : candidates with
  | nil =>
    have hnone : headerUnit = (splitUnit []).2 := by
      simp only [headerUnit, hcols]
      rfl
    exact ⟨[], .inl rfl, by rw [hnone]⟩
  | cons col cols =>
    have hsome : headerUnit = (splitUnit (table.header col)).2 := by
      simp only [headerUnit, hcols]
    exact ⟨_, header_cases table col, by rw [hsome]⟩

theorem chosen_autoChoice (hcelled : Celled table) (h : autoChoice table = .ok choice) :
    Chosen table choice := by
  unfold autoChoice at h
  obtain ⟨htitled, h⟩ := Fallible.of_guard h
  extract_lets d numeric labels values at h
  have hunit : '\n' ∉ d.unit := notMem_unit hcelled (unit_defaultChoice table)
  have hfew : d.seriesCols.length ≤ maxSeries := List.length_take_le _ _
  have htitle : d.title = table.caption := rfl
  have htype : d.type = .bar := rfl
  clear_value d
  obtain ⟨hcols, h⟩ := Fallible.of_guard h
  obtain ⟨-, h⟩ := Fallible.of_guard h
  obtain ⟨-, h⟩ := Fallible.of_guard h
  obtain ⟨-, h⟩ := Fallible.of_guard h
  obtain ⟨hlabelled, h⟩ := Fallible.of_guard h
  obtain ⟨-, h⟩ := Fallible.of_guard h
  obtain ⟨hpoints, h⟩ := Fallible.of_guard h
  obtain ⟨-, h⟩ := Fallible.of_guard h
  obtain ⟨-, h⟩ := Fallible.of_guard h
  obtain ⟨-, h⟩ := Fallible.of_guard h
  obtain ⟨-, h⟩ := Fallible.of_guard h
  obtain ⟨-, h⟩ := Fallible.of_guard h
  have hlen : labels.length = table.rows.length := not_not.mp hlabelled
  have hall : ∀ r ∈ table.rows, strip (cell r d.xCol) ≠ [] := by
    intro r hr
    have hself : labels.length = (table.rows.map fun r => strip (cell r d.xCol)).length := by
      rw [hlen, List.length_map]
    have hfilter := List.length_filter_eq_length_iff.mp hself _
      (List.mem_map_of_mem (f := fun r => strip (cell r d.xCol)) hr)
    simpa using hfilter
  have htitled' : strip table.caption ≠ [] := by simpa using htitled
  have hcols' : d.seriesCols ≠ [] := by simpa using hcols
  have hthree : 3 ≤ table.rows.length := by
    rw [← hlen]
    exact not_lt.mp hpoints
  have hchosen : ∀ type, (type = .pie → d.seriesCols.length = 1 ∧ table.rows.length ≤ maxSeries) →
      ∀ unit, '\n' ∉ unit → Chosen table { d with type, unit } := fun type hpie unit hu =>
    ⟨htitle, htitled', hcols', hfew, hall, hthree, hu, hpie⟩
  cases hpie : pieChoice table d labels with
  | some pie =>
    rw [hpie] at h
    obtain rfl := Except.ok.inj h
    obtain ⟨heq, hone, hfewer, col, hu⟩ := pieChoice_ok hpie
    have hbreak := notMem_unit hcelled ⟨_, header_cases table col, hu⟩
    rw [heq]
    exact hchosen .pie (fun _ => ⟨hone, hlen ▸ hfewer⟩) _ hbreak
  | none =>
    rw [hpie] at h
    dsimp only at h
    split at h
    · obtain rfl := Except.ok.inj h
      exact hchosen .line (by simp) _ hunit
    · obtain ⟨-, h⟩ := Fallible.of_guard h
      obtain rfl := Except.ok.inj h
      exact hchosen d.type (by simp [htype]) _ hunit

/-! The chart. -/

/-- A chart that is built from a table of its own accord is fit to be written. -/
theorem drawn_buildSpec (ht : findTable block = some table) (hc : autoChoice table = .ok choice) :
    Drawn (buildSpec table choice block) := by
  have hcelled := celled_findTable ht
  obtain ⟨htitle, htitled, hsome, hfew, hlabelled, hpoints, hunit, hpie⟩ :=
    chosen_autoChoice hcelled hc
  have hrows : (table.rows.filter fun r => !(strip (cell r choice.xCol)).isEmpty) = table.rows :=
    List.filter_eq_self.mpr fun r hr => by simpa using hlabelled r hr
  have hcell : ∀ r ∈ table.rows, '\n' ∉ cell r choice.xCol ∧ '|' ∉ cell r choice.xCol := by
    intro r hr
    unfold cell
    rw [List.getD_eq_getElem?_getD]
    cases hcol : r[choice.xCol]? with
    | none => simp
    | some w => exact hcelled.rows r hr w (List.mem_of_getElem? hcol)
  have hheader : ∀ col, '\n' ∉ table.header col := by
    intro col
    rcases header_cases table col with hnil | hmem
    · simp [hnil]
    · exact hcelled.headers _ hmem
  unfold buildSpec
  simp only [hrows]
  refine ⟨?_, ?_, ?_, ?_, ?_, ?_, ?_, ?_, ?_, ?_, ?_⟩
  · rw [htitle]
    exact solid_strip htitled
  · rw [htitle]
    exact fun hmem => hcelled.caption (mem_of_mem_strip hmem)
  · rw [List.length_map]
    omega
  · intro l hl
    obtain ⟨r, hr, rfl⟩ := List.mem_map.mp hl
    obtain ⟨hbreak, hbar⟩ := hcell r hr
    exact ⟨solid_strip (hlabelled r hr), fun hmem => hbar (mem_of_mem_strip hmem),
      fun hmem => hbreak (mem_of_mem_strip hmem)⟩
  · simpa using hsome
  · simpa using hfew
  · intro s hs
    obtain ⟨col, -, rfl⟩ := List.mem_map.mp hs
    exact solid_seriesName (hheader col) (col + 1)
  · intro s hs
    obtain ⟨col, -, rfl⟩ := List.mem_map.mp hs
    simp
  · exact strip_strip choice.unit
  · exact fun hmem => hunit (mem_of_mem_strip hmem)
  · intro htype
    simpa using hpie htype

def exportTable (amount : Text) : MarkdownTable :=
  { caption := "수출".toList
    captionUnit := []
    headers := ["품목".toList, "금액".toList]
    rows := [["가".toList, amount], ["나".toList, "2".toList], ["다".toList, "3".toList]]
    source := [] }

def exportBlock (amount : Text) : Text :=
  "표: 수출\n| 품목 | 금액 |\n|---|---|\n| 가 | ".toList ++ amount ++ " |\n| 나 | 2 |\n| 다 | 3 |".toList

def exportChoice : ConvertChoice := ⟨.bar, 0, [1], "수출".toList, []⟩

end RownRg.Tables

import RownRg.Core.ChartNumbers

/-! A chart written as a fence and read again. -/

open PyText Regex

namespace RownRg.Charts

variable {t u x line key value : Text} {ls ks lines : List Text} {c : Char} {spec : ChartSpec}

/-- What a chart is like that was built from a table. -/
structure Drawn (spec : ChartSpec) : Prop where
  title : Solid spec.title
  titleLine : '\n' ∉ spec.title
  points : 2 ≤ spec.x.length
  labels : ∀ l ∈ spec.x, Solid l ∧ '|' ∉ l ∧ '\n' ∉ l
  someSeries : spec.series ≠ []
  fewSeries : spec.series.length ≤ maxSeries
  names : ∀ s ∈ spec.series, Solid s.name ∧ '\n' ∉ s.name
  values : ∀ s ∈ spec.series, s.values.length = spec.x.length
  unit : strip spec.unit = spec.unit
  unitLine : '\n' ∉ spec.unit
  pie : spec.type = .pie → spec.series.length = 1 ∧ spec.x.length ≤ maxSeries

/-! Lines with a key. -/

def Keyed (line : Text) : Prop :=
  ∃ key x, line = key ++ ':' :: x ∧ key ≠ [] ∧ ∀ c ∈ key, isKeyChar c

/-- A block ends before a line with a key. -/
theorem opens_keyed (h : Keyed line) : Opens ((line :: ks).flatMap splitLines) := by
  obtain ⟨key, x, rfl, hne, hkey⟩ := h
  have hsolid : ∀ c ∈ key, isSpace c = false := fun c hc =>
    (not_isSpace_of_isKeyChar (hkey c hc)).1
  have hfrom : splitLines (key ++ ':' :: x) = splitLinesFrom key.reverse (':' :: x) := by
    rw [splitLines, splitLinesFrom_append fun c hc => not_isBreak_of_not_isSpace (hsolid c hc),
      List.append_nil]
  obtain ⟨r, hr⟩ := head?_splitLinesFrom (t := ':' :: x) (List.reverse_ne_nil_iff.mpr hne)
  intro l hl
  rw [List.flatMap_cons, hfrom, List.head?_append, hr] at hl
  obtain rfl : key ++ r = l := by simpa using hl
  obtain ⟨c, key, rfl⟩ := List.exists_cons_of_ne_nil hne
  have hc := hsolid c (.head _)
  have hblank : strip (c :: key ++ r) ≠ [] := by
    intro hnil
    simp [isSpace_of_strip hnil c (by simp)] at hc
  have hfirst : c ≠ ' ' ∧ c ≠ '\t' := by
    constructor <;> rintro rfl <;> exact absurd hc (by decide)
  rw [isBlockLine, List.isEmpty_eq_false_iff.mpr hblank]
  simp [hfirst]

theorem opens_nil : Opens (([] : List Text).flatMap splitLines) := by
  intro l hl
  cases hl

/-- A line with a key, read by itself. -/
theorem parseFields_keyed (hne : key ≠ []) (hkey : ∀ c ∈ key, isKeyChar c)
    (hx : ∀ c ∈ x, isBreak c = false) :
    parseFields (splitLines (key ++ ':' :: x)) =
      if strip x = ['|'] then ([(key, [])], [])
      else if key = "series".toList then ([], [strip x]) else ([(key, strip x)], []) := by
  have hall : ∀ c ∈ key ++ ':' :: x, isBreak c = false := by
    intro c hc
    rcases List.mem_append.mp hc with hc | hc
    · exact not_isBreak_of_not_isSpace (not_isSpace_of_isKeyChar (hkey c hc)).1
    · rcases List.mem_cons.mp hc with rfl | hc
      · decide
      · exact hx c hc
  have hbreak : '\n' ∉ x := fun h => absurd (hx _ h) (by decide)
  rw [splitLines_unbroken hall (by simp), parseFields_cons, fieldOf_keyed hne hkey hbreak]
  simp only [parseFields_nil, List.takeWhile_nil, List.dropWhile_nil, List.map_nil]
  rfl

/-! The lines of a fence. -/

def unitLines (spec : ChartSpec) : List Text :=
  if spec.unit.isEmpty then [] else ["unit: ".toList ++ spec.unit]

def sourceLines (spec : ChartSpec) : List Text :=
  if spec.source.isEmpty then []
  else ["source: ".toList ++ joinWith ", ".toList (spec.source.map ofNat)]

def tableLines (spec : ChartSpec) : List Text :=
  if spec.table.isEmpty then []
  else "table: |".toList :: (splitLines spec.table).map ("  ".toList ++ ·)

theorem fenceLines_eq (spec : ChartSpec) : fenceLines spec =
    ["type: ".toList ++ spec.type.name] ++ (["title: ".toList ++ spec.title] ++ (unitLines spec ++
      (["x: ".toList ++ joinWith " | ".toList spec.x] ++
        (spec.series.map (fun s => "series: ".toList ++ seriesText s) ++
          (sourceLines spec ++ tableLines spec))))) := by
  simp only [fenceLines, List.append_assoc, List.cons_append, List.nil_append]
  rfl

theorem solid_typeName (type : ChartType) : Solid type.name := by
  cases type <;> exact ⟨by decide, by decide, by decide⟩

theorem solid_seriesText {s : ChartSeries} (hname : Solid s.name) (hne : s.values ≠ []) :
    Solid (seriesText s) := by
  have hsolid := solid_append hname (solid_valuesText hne) " = ".toList
  simpa [seriesText, valuesText] using hsolid

/-- A line of a fence is not empty and ends in no line break. -/
def Ended (line : Text) : Prop := line ≠ [] ∧ ∀ c ∈ line.getLast?, isBreak c = false

theorem ended_solid (h : Solid x) (t : Text) : Ended (t ++ x) := by
  obtain ⟨hne, -, hlast⟩ := h
  refine ⟨by simp [hne], fun c hc => ?_⟩
  rw [List.getLast?_append_of_ne_nil _ hne] at hc
  exact not_isBreak_of_not_isSpace (hlast c hc)

theorem Drawn.x_ne_nil (h : Drawn spec) : spec.x ≠ [] := by
  intro hnil
  have hpoints := h.points
  simp [hnil] at hpoints

theorem Drawn.values_ne_nil (h : Drawn spec) : ∀ s ∈ spec.series, s.values ≠ [] := by
  intro s hs hnil
  have hlen := h.values s hs
  exact h.x_ne_nil (List.eq_nil_of_length_eq_zero (by rw [← hlen, hnil, List.length_nil]))

theorem Drawn.ended (h : Drawn spec) : ∀ l ∈ fenceLines spec, Ended l := by
  intro l hl
  rw [fenceLines_eq] at hl
  simp only [List.mem_append, List.mem_singleton] at hl
  rcases hl with rfl | rfl | hl | rfl | hl | hl | hl
  · exact ended_solid (solid_typeName _) _
  · exact ended_solid h.title _
  · unfold unitLines at hl
    split at hl
    · cases hl
    · rename_i hne
      obtain rfl := List.mem_singleton.mp hl
      have hsolid : Solid spec.unit := by
        rw [← h.unit]
        exact solid_strip (by simpa [h.unit] using hne)
      exact ended_solid hsolid _
  · exact ended_solid (solid_joinWith h.x_ne_nil fun y hy => (h.labels y hy).1) _
  · obtain ⟨s, hs, rfl⟩ := List.mem_map.mp hl
    exact ended_solid (solid_seriesText (h.names s hs).1 (h.values_ne_nil s hs)) _
  · unfold sourceLines at hl
    split at hl
    · cases hl
    · rename_i hne
      obtain rfl := List.mem_singleton.mp hl
      refine ended_solid (solid_joinWith (by simpa using hne) fun y hy => ?_) _
      obtain ⟨n, -, rfl⟩ := List.mem_map.mp hy
      exact solid_ofNat n
  · unfold tableLines at hl
    split at hl
    · cases hl
    · rcases List.mem_cons.mp hl with rfl | hl
      · exact ⟨by decide, by decide⟩
      · obtain ⟨y, hy, rfl⟩ := List.mem_map.mp hl
        refine ⟨by simp, fun c hc => ?_⟩
        rcases List.mem_append.mp (List.mem_of_getLast? hc) with hc | hc
        · obtain rfl : c = ' ' := by simpa using hc
          decide
        · exact (mem_splitLines hy hc).1

/-! What the lines say. -/

/-- No text of the chart but its unit has a line break in it. -/
structure Unbroken (spec : ChartSpec) : Prop where
  title : ∀ c ∈ spec.title, isBreak c = false
  labels : ∀ l ∈ spec.x, ∀ c ∈ l, isBreak c = false
  names : ∀ s ∈ spec.series, ∀ c ∈ s.name, isBreak c = false

/-- What the unit is read as, as fields and as series. -/
def unitFields (spec : ChartSpec) : List (Text × Text) × List Text :=
  parseFields ((unitLines spec).flatMap splitLines)

/-- What the title is read as. -/
def titleField (spec : ChartSpec) : Text := if spec.title = ['|'] then [] else spec.title

def sourceFields (spec : ChartSpec) : List (Text × Text) :=
  if spec.source.isEmpty then []
  else [("source".toList, joinWith ", ".toList (spec.source.map ofNat))]

/-- Lines that begin with a line with a key, if there are any. -/
def KeyedFirst (lines : List Text) : Prop := ∀ l ∈ lines.head?, Keyed l

theorem parseFields_flatMap (ls : List Text) (h : KeyedFirst ks) :
    parseFields ((ls ++ ks).flatMap splitLines) =
      ((parseFields (ls.flatMap splitLines)).1 ++ (parseFields (ks.flatMap splitLines)).1,
        (parseFields (ls.flatMap splitLines)).2 ++ (parseFields (ks.flatMap splitLines)).2) := by
  rw [List.flatMap_append, parseFields_append]
  cases ks with
  | nil => exact opens_nil
  | cons l ks => exact opens_keyed (h l rfl)

theorem keyedFirst_append (hls : ∀ l ∈ ls, Keyed l) (hks : KeyedFirst ks) :
    KeyedFirst (ls ++ ks) := by
  cases ls with
  | nil => exact hks
  | cons l ls =>
    intro l' hl'
    obtain rfl := Option.some.inj hl'
    exact hls l (.head _)

theorem keyed_line (key : Text) (hne : key ≠ []) (hkey : ∀ c ∈ key, isKeyChar c) (x : Text) :
    Keyed (key ++ ':' :: x) :=
  ⟨key, x, rfl, hne, hkey⟩

theorem keyed_unitLines (spec : ChartSpec) : ∀ l ∈ unitLines spec, Keyed l := by
  unfold unitLines
  split
  · simp
  · exact List.forall_mem_singleton.mpr (keyed_line "unit".toList (by decide) (by decide) _)

theorem keyed_seriesLines (ss : List ChartSeries) :
    ∀ l ∈ ss.map fun s => "series: ".toList ++ seriesText s, Keyed l := by
  intro l hl
  obtain ⟨s, -, rfl⟩ := List.mem_map.mp hl
  exact keyed_line "series".toList (by decide) (by decide) _

theorem keyed_sourceLines (spec : ChartSpec) : ∀ l ∈ sourceLines spec, Keyed l := by
  unfold sourceLines
  split
  · simp
  · exact List.forall_mem_singleton.mpr
      (keyed_line "source".toList (by decide) (by decide) _)

theorem keyedFirst_tableLines (spec : ChartSpec) : KeyedFirst (tableLines spec) := by
  unfold tableLines
  split
  · intro l hl
    cases hl
  · intro l hl
    obtain rfl := Option.some.inj hl
    exact keyed_line "table".toList (by decide) (by decide) _

theorem strip_cons_blank (t : Text) : strip (' ' :: t) = strip t :=
  strip_append_left (u := [' ']) (by decide)

/-- A line with a key and a text that is more than a bar. -/
theorem parseFields_single (key : Text) (hne : key ≠ []) (hkey : ∀ c ∈ key, isKeyChar c)
    (hx : Solid x) (hbreak : ∀ c ∈ x, isBreak c = false) (hbar : x ≠ ['|']) :
    parseFields ([key ++ ':' :: ' ' :: x].flatMap splitLines) =
      if key = "series".toList then ([], [x]) else ([(key, x)], []) := by
  have hline : ∀ c ∈ ' ' :: x, isBreak c = false :=
    List.forall_mem_cons.mpr ⟨by decide, hbreak⟩
  rw [List.flatMap_singleton, parseFields_keyed hne hkey hline, strip_cons_blank, strip_solid hx,
    if_neg hbar]

theorem joinWith_ne_bar (hx : 2 ≤ ls.length) : joinWith " | ".toList ls ≠ ['|'] := by
  obtain ⟨l, ls, rfl⟩ := List.exists_cons_of_ne_nil (List.ne_nil_of_length_pos (by omega : 0 < ls.length))
  obtain ⟨m, ls, rfl⟩ := List.exists_cons_of_ne_nil (List.ne_nil_of_length_pos
    (by simp at hx; omega : 0 < ls.length))
  rw [joinWith_cons]
  intro h
  have hlen := congrArg List.length h
  simp at hlen
  omega

theorem isBreak_number (h : isNumberChar c) : isBreak c = false :=
  not_isBreak_of_not_isSpace (not_isSpace_of_isNumberChar h)

theorem seriesText_unbroken {s : ChartSeries} (h : ∀ c ∈ s.name, isBreak c = false) :
    ∀ c ∈ seriesText s, isBreak c = false := by
  intro c hc
  rcases List.mem_append.mp hc with hc | hc
  · rcases List.mem_append.mp hc with hc | hc
    · exact h c hc
    · have heq : ∀ c ∈ " = ".toList, isBreak c = false := by decide
      exact heq c hc
  · rcases mem_valuesText hc with hc | rfl | rfl
    · exact isBreak_number hc
    · decide
    · decide

theorem parseFields_series {ss : List ChartSeries} (h : ∀ s ∈ ss, Solid (seriesText s))
    (hbreak : ∀ s ∈ ss, ∀ c ∈ s.name, isBreak c = false) :
    parseFields ((ss.map fun s => "series: ".toList ++ seriesText s).flatMap splitLines) =
      ([], ss.map seriesText) := by
  induction ss with
  | nil => rfl
  | cons s ss ih =>
    obtain ⟨hs, hss⟩ := List.forall_mem_cons.mp h
    obtain ⟨hb, hbs⟩ := List.forall_mem_cons.mp hbreak
    have hbar : seriesText s ≠ ['|'] := by
      intro hbar
      have heq : '=' ∈ seriesText s := by simp [seriesText]
      rw [hbar] at heq
      exact absurd heq (by decide)
    have hline := parseFields_single "series".toList (by decide) (by decide) hs
      (seriesText_unbroken hb) hbar
    have hkeyed : KeyedFirst (ss.map fun s => "series: ".toList ++ seriesText s) := fun l hl =>
      keyed_seriesLines ss l (List.mem_of_head? hl)
    have happend := parseFields_flatMap ["series: ".toList ++ seriesText s] hkeyed
    rw [if_pos rfl] at hline
    rw [List.map_cons, List.map_cons, ← List.singleton_append, happend, ih hss hbs]
    have htext : "series: ".toList ++ seriesText s =
        "series".toList ++ ':' :: ' ' :: seriesText s := rfl
    rw [htext, hline]
    rfl

theorem parseFields_source (spec : ChartSpec) :
    parseFields ((sourceLines spec).flatMap splitLines) = (sourceFields spec, []) := by
  unfold sourceLines sourceFields
  split
  · rfl
  · rename_i hne
    have hsolid : Solid (joinWith ", ".toList (spec.source.map ofNat)) := by
      refine solid_joinWith (by simpa using hne) fun y hy => ?_
      obtain ⟨n, -, rfl⟩ := List.mem_map.mp hy
      exact solid_ofNat n
    have hchars : ∀ c ∈ joinWith ", ".toList (spec.source.map ofNat),
        isBreak c = false ∧ c ≠ '|' := by
      intro c hc
      rcases mem_joinWith hc with hc | ⟨x, hx, hc⟩
      · have hsep : ∀ c ∈ ", ".toList, isBreak c = false ∧ c ≠ '|' := by decide
        exact hsep c hc
      · obtain ⟨n, -, rfl⟩ := List.mem_map.mp hx
        refine ⟨isBreak_number (mem_ofNat_number hc), ?_⟩
        rintro rfl
        exact absurd (mem_ofNat_number hc) (by decide)
    have hbar : joinWith ", ".toList (spec.source.map ofNat) ≠ ['|'] := by
      intro h
      rw [h] at hchars
      exact (hchars '|' (.head _)).2 rfl
    exact parseFields_single "source".toList (by decide) (by decide) hsolid
      (fun c hc => (hchars c hc).1) hbar

/-- The table lines are one field, whatever the table. -/
theorem parseFields_table (spec : ChartSpec) :
    ∃ f, (∀ y ∈ f, y.1 = "table".toList) ∧
      parseFields ((tableLines spec).flatMap splitLines) = (f, []) := by
  unfold tableLines
  split
  · exact ⟨[], by simp, rfl⟩
  · have hblock : ((splitLines spec.table).map ("  ".toList ++ ·)).flatMap splitLines =
        (splitLines spec.table).map ("  ".toList ++ ·) := by
      have hone : ∀ l ∈ splitLines spec.table,
          splitLines ("  ".toList ++ l) = ["  ".toList ++ l] := by
        intro l hl
        refine splitLines_unbroken (fun c hc => ?_) (by simp)
        rcases List.mem_append.mp hc with hc | hc
        · obtain rfl : c = ' ' := by simpa using hc
          decide
        · exact (mem_splitLines hl hc).1
      rw [List.flatMap_map, List.flatMap_congr hone]
      exact List.map_eq_flatMap.symm
    have hall : ∀ l ∈ (splitLines spec.table).map ("  ".toList ++ ·), isBlockLine l := by
      intro l hl
      obtain ⟨m, -, rfl⟩ := List.mem_map.mp hl
      simp [isBlockLine]
    have hfield : fieldOf "table: |".toList = some ("table".toList, ['|']) :=
      fieldOf_keyed (k := "table".toList) (x := " |".toList) (by decide) (by decide) (by decide)
    have hline : splitLines "table: |".toList = ["table: |".toList] := rfl
    refine ⟨[("table".toList, strip (joinLines
      (((splitLines spec.table).map ("  ".toList ++ ·)).map strip)))], by simp, ?_⟩
    rw [List.flatMap_cons, hblock, hline, List.singleton_append, parseFields_cons, hfield]
    simp only [if_true]
    rw [List.takeWhile_eq_self_iff.mpr hall, List.dropWhile_eq_nil_iff.mpr hall]
    rfl

/-- The fields and the series lines of a fence. -/
theorem parseFields_fence (h : Drawn spec) (hu : Unbroken spec) :
    ∃ f, (∀ y ∈ f, y.1 = "table".toList) ∧
      parseFields (splitLines (closed (fenceLines spec))) =
        ([("type".toList, spec.type.name), ("title".toList, titleField spec)] ++
          ((unitFields spec).1 ++ ([("x".toList, joinWith " | ".toList spec.x)] ++
            (sourceFields spec ++ f))),
          (unitFields spec).2 ++ spec.series.map seriesText) := by
  obtain ⟨f, hf, htable⟩ := parseFields_table spec
  refine ⟨f, hf, ?_⟩
  have htype : parseFields (["type: ".toList ++ spec.type.name].flatMap splitLines) =
      ([("type".toList, spec.type.name)], []) := by
    cases spec.type <;> rfl
  have htitle : parseFields (["title: ".toList ++ spec.title].flatMap splitLines) =
      ([("title".toList, titleField spec)], []) := by
    unfold titleField
    split
    · rename_i hbar
      rw [hbar]
      rfl
    · rename_i hbar
      exact parseFields_single "title".toList (by decide) (by decide) h.title hu.title hbar
  have hx : parseFields (["x: ".toList ++ joinWith " | ".toList spec.x].flatMap splitLines) =
      ([("x".toList, joinWith " | ".toList spec.x)], []) := by
    refine parseFields_single "x".toList (by decide) (by decide)
      (solid_joinWith h.x_ne_nil fun y hy => (h.labels y hy).1) (fun c hc => ?_)
      (joinWith_ne_bar h.points)
    rcases mem_joinWith hc with hc | ⟨l, hl, hc⟩
    · have hsep : ∀ c ∈ " | ".toList, isBreak c = false := by decide
      exact hsep c hc
    · exact hu.labels l hl c hc
  have hseries := parseFields_series
    (fun s hs => solid_seriesText (h.names s hs).1 (h.values_ne_nil s hs)) hu.names
  have hkx : ∀ l ∈ ["x: ".toList ++ joinWith " | ".toList spec.x], Keyed l :=
    List.forall_mem_singleton.mpr (keyed_line "x".toList (by decide) (by decide) _)
  have hkt : ∀ l ∈ ["title: ".toList ++ spec.title], Keyed l :=
    List.forall_mem_singleton.mpr (keyed_line "title".toList (by decide) (by decide) _)
  have hsource := keyedFirst_append (keyed_sourceLines spec) (keyedFirst_tableLines spec)
  have hfromSeries := keyedFirst_append (keyed_seriesLines spec.series) hsource
  have hfromX := keyedFirst_append hkx hfromSeries
  have hfromUnit := keyedFirst_append (keyed_unitLines spec) hfromX
  have hfromTitle := keyedFirst_append hkt hfromUnit
  rw [splitLines_closed h.ended, fenceLines_eq, parseFields_flatMap _ hfromTitle,
    parseFields_flatMap _ hfromUnit, parseFields_flatMap _ hfromX, parseFields_flatMap _ hfromSeries,
    parseFields_flatMap _ hsource, parseFields_flatMap _ (keyedFirst_tableLines spec), htype, htitle, hx,
    hseries, parseFields_source, htable]
  simp [unitFields]

/-! The round trip. -/

/-- What the unit is read as says nothing else about the chart. -/
structure UnitHarmless (spec : ChartSpec) : Prop where
  series : (unitFields spec).2 = []
  type : ∀ t ∈ lastFor "type".toList (unitFields spec).1, ChartType.ofName? (strip t) = some spec.type
  title : strip ((lastFor "title".toList (unitFields spec).1).getD (titleField spec)) = spec.title
  source : spec.source = [] → sourceField (unitFields spec).1 = []

/-- A chart that its fence tells in full. -/
structure Writable (spec : ChartSpec) : Prop where
  unbroken : Unbroken spec
  names : ∀ s ∈ spec.series, '=' ∉ s.name.tail
  values : ∀ s ∈ spec.series, ∀ v ∈ s.values, ShownInFull v
  unit : UnitHarmless spec

/-- The body of the chart fence at the start of a text. -/
def fenceBody (md : Text) : Option Text :=
  (chartFenceRe.matchStart md).bind fun m => m.group .body

/-- Two charts with the same type, title, labels, series and sources. -/
structure SameChart (s t : ChartSpec) : Prop where
  type : s.type = t.type
  title : s.title = t.title
  x : s.x = t.x
  series : s.series = t.series
  source : s.source = t.source

def RoundTrips (spec : ChartSpec) : Prop :=
  ∃ body s, fenceBody (toFence spec) = some body ∧ parseChartSpec body = .ok s ∧ SameChart s spec

theorem ofName?_name (type : ChartType) : ChartType.ofName? type.name = some type := by
  cases type <;> rfl

theorem lastFor_table {f : List (Text × Text)} (hf : ∀ y ∈ f, y.1 = "table".toList)
    (hkey : key ≠ "table".toList) : lastFor key f = none :=
  lastFor_eq_none_iff.2 fun y hy he => hkey (he.symm.trans (hf y hy))

theorem lastFor_sourceFields (hkey : key ≠ "source".toList) :
    lastFor key (sourceFields spec) = none := by
  refine lastFor_eq_none_iff.2 fun y hy => ?_
  unfold sourceFields at hy
  split at hy
  · cases hy
  · obtain rfl := List.mem_singleton.mp hy
    exact hkey.symm

/-- What is found in the fields of a fence. -/
theorem fields_fence {f : List (Text × Text)} (h : Drawn spec) (hf : ∀ y ∈ f, y.1 = "table".toList)
    {fields : List (Text × Text)}
    (hfields : fields = [("type".toList, spec.type.name), ("title".toList, titleField spec)] ++
      ((unitFields spec).1 ++ ([("x".toList, joinWith " | ".toList spec.x)] ++
        (sourceFields spec ++ f)))) :
    field fields "type".toList =
        strip ((lastFor "type".toList (unitFields spec).1).getD spec.type.name) ∧
      field fields "title".toList =
        strip ((lastFor "title".toList (unitFields spec).1).getD (titleField spec)) ∧
      splitList ((lastFor "x".toList fields).getD []) = spec.x ∧
      sourceField fields =
        if spec.source = [] then sourceField (unitFields spec).1 else spec.source := by
  subst hfields
  have hlast : ∀ {key : Text}, key ≠ "table".toList → lastFor key
      ([("type".toList, spec.type.name), ("title".toList, titleField spec)] ++
        ((unitFields spec).1 ++ ([("x".toList, joinWith " | ".toList spec.x)] ++
          (sourceFields spec ++ f)))) =
      (((lastFor key (sourceFields spec)).or
        (lastFor key [("x".toList, joinWith " | ".toList spec.x)])).or
          (lastFor key (unitFields spec).1)).or
            (lastFor key [("type".toList, spec.type.name), ("title".toList, titleField spec)]) := by
    intro key hkey
    rw [lastFor_append, lastFor_append, lastFor_append, lastFor_append, lastFor_table hf hkey,
      Option.none_or]
  have htypeX : lastFor "type".toList [("x".toList, joinWith " | ".toList spec.x)] = none := rfl
  have htitleX : lastFor "title".toList [("x".toList, joinWith " | ".toList spec.x)] = none := rfl
  have hsourceX : lastFor "source".toList [("x".toList, joinWith " | ".toList spec.x)] = none := rfl
  have hxX : lastFor "x".toList [("x".toList, joinWith " | ".toList spec.x)] =
      some (joinWith " | ".toList spec.x) := rfl
  have htype : lastFor "type".toList
      [("type".toList, spec.type.name), ("title".toList, titleField spec)] =
        some spec.type.name := rfl
  have htitle : lastFor "title".toList
      [("type".toList, spec.type.name), ("title".toList, titleField spec)] =
        some (titleField spec) := rfl
  have hsource : lastFor "source".toList
      [("type".toList, spec.type.name), ("title".toList, titleField spec)] = none := rfl
  refine ⟨?_, ?_, ?_, ?_⟩
  · rw [field, hlast (by decide), lastFor_sourceFields (by decide), htypeX, htype, Option.none_or,
      Option.none_or]
    cases lastFor "type".toList (unitFields spec).1 <;> rfl
  · rw [field, hlast (by decide), lastFor_sourceFields (by decide), htitleX, htitle, Option.none_or,
      Option.none_or]
    cases lastFor "title".toList (unitFields spec).1 <;> rfl
  · rw [hlast (by decide), lastFor_sourceFields (by decide), hxX, Option.none_or, Option.some_or,
      Option.some_or, Option.getD_some]
    exact splitList_joinWith h.x_ne_nil fun l hl => ⟨(h.labels l hl).2.1, (h.labels l hl).1⟩
  · rw [sourceField, hlast (by decide), hsourceX, hsource, Option.or_none, Option.or_none]
    unfold sourceFields
    split
    · rename_i hnone
      have hnil : lastFor "source".toList ([] : List (Text × Text)) = none := rfl
      rw [if_pos (by simpa using hnone), hnil, Option.none_or]
      rfl
    · rename_i hsome
      have hone : lastFor "source".toList
          [("source".toList, joinWith ", ".toList (spec.source.map ofNat))] =
            some (joinWith ", ".toList (spec.source.map ofNat)) := rfl
      have hne : spec.source ≠ [] := by simpa using hsome
      rw [if_neg hne, hone, Option.some_or, Option.getD_some, filterMap_splitNumbers hne]

theorem not_isClosing_keyed (h : Keyed line) : isClosing line = false := by
  obtain ⟨key, x, rfl, hne, hkey⟩ := h
  obtain ⟨c, key, rfl⟩ := List.exists_cons_of_ne_nil hne
  have hc : '`' ≠ c := by
    rintro rfl
    exact absurd (hkey '`' (.head _)) (by decide)
  simp [isClosing, isFenceLine, List.isPrefixOf, hc]

/-- Only the end of a line of a fence is a line break. -/
theorem Drawn.fenceLine (h : Drawn spec) :
    ∀ l ∈ fenceLines spec, '\n' ∉ l ∧ isClosing l = false := by
  intro l hl
  rw [fenceLines_eq] at hl
  simp only [List.mem_append, List.mem_singleton] at hl
  rcases hl with rfl | rfl | hl | rfl | hl | hl | hl
  · refine ⟨?_, not_isClosing_keyed (keyed_line "type".toList (by decide) (by decide) _)⟩
    cases spec.type <;> decide
  · refine ⟨?_, not_isClosing_keyed (keyed_line "title".toList (by decide) (by decide) _)⟩
    simp [h.titleLine]
  · refine ⟨?_, not_isClosing_keyed (keyed_unitLines spec l hl)⟩
    unfold unitLines at hl
    split at hl
    · cases hl
    · obtain rfl := List.mem_singleton.mp hl
      simp [h.unitLine]
  · refine ⟨?_, not_isClosing_keyed (keyed_line "x".toList (by decide) (by decide) _)⟩
    intro hc
    rcases List.mem_append.mp hc with hc | hc
    · exact absurd hc (by decide)
    · rcases mem_joinWith hc with hc | ⟨l, hl, hc⟩
      · exact absurd hc (by decide)
      · exact (h.labels l hl).2.2 hc
  · refine ⟨?_, not_isClosing_keyed (keyed_seriesLines _ l hl)⟩
    obtain ⟨s, hs, rfl⟩ := List.mem_map.mp hl
    intro hc
    rcases List.mem_append.mp hc with hc | hc
    · exact absurd hc (by decide)
    · rcases List.mem_append.mp hc with hc | hc
      · rcases List.mem_append.mp hc with hc | hc
        · exact (h.names s hs).2 hc
        · exact absurd hc (by decide)
      · exact notMem_valuesText hc
  · refine ⟨?_, not_isClosing_keyed (keyed_sourceLines spec l hl)⟩
    unfold sourceLines at hl
    split at hl
    · cases hl
    · obtain rfl := List.mem_singleton.mp hl
      intro hc
      rcases List.mem_append.mp hc with hc | hc
      · exact absurd hc (by decide)
      · rcases mem_joinWith hc with hc | ⟨y, hy, hc⟩
        · exact absurd hc (by decide)
        · obtain ⟨n, -, rfl⟩ := List.mem_map.mp hy
          exact absurd (mem_ofNat_number hc) (by decide)
  · unfold tableLines at hl
    split at hl
    · cases hl
    · rcases List.mem_cons.mp hl with rfl | hl
      · exact ⟨by decide, by decide⟩
      · obtain ⟨y, hy, rfl⟩ := List.mem_map.mp hl
        refine ⟨fun hc => ?_, by simp [isClosing, isFenceLine, List.isPrefixOf]⟩
        rcases List.mem_append.mp hc with hc | hc
        · exact absurd hc (by decide)
        · exact absurd (mem_splitLines hy hc).1 (by decide)

theorem fence_text (body : Text) : "```chart\n".toList ++ body ++ "\n```".toList =
    "```chart".toList ++ '\n' :: ((body ++ ['\n']) ++ ("```".toList ++ [])) := by
  have hopen : "```chart\n".toList = "```chart".toList ++ ['\n'] := by decide
  have hclose : "\n```".toList = '\n' :: "```".toList := by decide
  rw [hopen, hclose]
  generalize "```chart".toList = hd
  generalize "```".toList = cl
  simp

theorem fenceBody_toFence (h : Drawn spec) :
    fenceBody (toFence spec) = some (closed (fenceLines spec)) := by
  have htext : toFence spec =
      "```chart".toList ++ '\n' :: (closed (fenceLines spec) ++ ("```".toList ++ [])) := by
    have hne : fenceLines spec ≠ [] := by
      rw [fenceLines_eq, List.singleton_append]
      exact List.cons_ne_nil _ _
    rw [closed_eq_joinLines hne]
    exact fence_text _
  have hfirst : chartFenceRe.first [] ("```chart".toList ++ '\n' ::
      (closed (fenceLines spec) ++ ("```".toList ++ []))) =
        some (fenceMatch "```chart".toList (fenceLines spec) "```".toList, []) :=
    first_fence (by decide) h.fenceLine (by decide) (by simp [Broken])
  rw [fenceBody, matchStart, htext, hfirst]
  rfl

theorem mem_field {fields : List (Text × Text)} (h : ∀ y ∈ fields, ∀ c ∈ y.2, isBreak c = false ∨ c = '\n')
    (hc : c ∈ (lastFor key fields).getD []) : isBreak c = false ∨ c = '\n' := by
  cases hlast : lastFor key fields with
  | none => simp [hlast] at hc
  | some v =>
    rw [hlast] at hc
    exact h (key, v) (mem_of_lastFor hlast) c hc

/-- A chart whose texts come back has no line break in them. -/
theorem unbroken_of_parses {body : Text} {s : ChartSpec} (h : Drawn spec)
    (hparse : parseChartSpec body = .ok s) (hsame : SameChart s spec) : Unbroken spec := by
  unfold parseChartSpec at hparse
  have hlines : ∀ l ∈ splitLines body, ∀ c ∈ l, isBreak c = false := fun l hl c hc =>
    (mem_splitLines hl hc).1
  obtain ⟨hfields, hseries⟩ := mem_parseFields hlines
  split at hparse
  rename_i fields seriesLines hread
  rw [hread] at hfields hseries
  split at hparse
  · cases hparse
  · simp only at hparse
    split at hparse
    · cases hparse
    · obtain ⟨series, hmap, hparse⟩ := Fallible.bind_eq_ok.mp hparse
      obtain ⟨_, -, hparse⟩ := Fallible.bind_eq_ok.mp hparse
      obtain rfl := Except.ok.inj hparse
      obtain ⟨-, htitle, hx, hs, -⟩ := hsame
      simp only at htitle hx hs
      refine ⟨fun c hc => ?_, fun l hl c hc => ?_, fun s hs' c hc => ?_⟩
      · rw [← htitle] at hc
        rcases mem_field hfields (mem_of_mem_strip hc) with hbreak | rfl
        · exact hbreak
        · exact absurd (htitle ▸ hc) h.titleLine
      · rw [← hx] at hl
        rcases mem_field hfields (mem_splitList hl hc) with hbreak | rfl
        · exact hbreak
        · exact absurd hc (h.labels l (hx ▸ hl)).2.2
      · rw [← hs] at hs'
        have hall := Fallible.mapM_eq_ok.mp hmap
        have hmem : Except.ok s ∈ series.map (Except.ok (ε := ChartSpecError)) :=
          List.mem_map_of_mem hs'
        rw [← hall] at hmem
        obtain ⟨raw, hraw, hone⟩ := List.mem_map.mp hmem
        exact hseries raw hraw c (mem_parseSeries hone hc)

theorem checkSeries_drawn (h : Drawn spec) : checkSeries spec.type spec.x spec.series = .ok () := by
  have hsome : spec.series.isEmpty = false := by simpa using h.someSeries
  have hfew := Nat.not_lt.mpr h.fewSeries
  unfold checkSeries
  rw [hsome, if_neg (by simp), if_neg hfew]
  by_cases hpie : spec.type = .pie
  · obtain ⟨hone, hx⟩ := h.pie hpie
    rw [if_neg (by simp [hone]), if_neg (by simp [hx])]
  · rw [if_neg (by simp [hpie]), if_neg (by simp [hpie])]

/-- The series lines of a fence, behind what the unit adds to them, read as the series of the chart
if and only if nothing is added, and no name or value is cut. -/
theorem mapM_parseSeries (h : Drawn spec) :
    ((unitFields spec).2 ++ spec.series.map seriesText).mapM (parseSeries spec.x.length) =
        .ok spec.series ↔
      (unitFields spec).2 = [] ∧ (∀ s ∈ spec.series, '=' ∉ s.name.tail) ∧
        ∀ s ∈ spec.series, ∀ v ∈ s.values, ShownInFull v := by
  rw [Fallible.mapM_eq_ok]
  have hone : ∀ s ∈ spec.series, '=' ∉ s.name.tail →
      (parseSeries spec.x.length (seriesText s) = .ok s ↔ ∀ v ∈ s.values, ShownInFull v) := by
    intro s hs heq
    obtain ⟨hsolid, hbreak⟩ := h.names s hs
    obtain ⟨ys, hys, hshown⟩ := parseSeries_seriesText hsolid heq hbreak (h.values_ne_nil s hs)
      (h.values s hs)
    rw [hys, ← hshown]
    constructor
    · intro hok
      exact congrArg ChartSeries.values (Except.ok.inj hok)
    · rintro rfl
      rfl
  constructor
  · intro hmap
    have hnone : (unitFields spec).2 = [] := by
      have hlen := congrArg List.length hmap
      simp only [List.length_map, List.length_append] at hlen
      exact List.eq_nil_of_length_eq_zero (by omega)
    rw [hnone, List.nil_append, List.map_map] at hmap
    have hread : ∀ s ∈ spec.series, parseSeries spec.x.length (seriesText s) = .ok s :=
      List.map_inj_left.mp hmap
    have hnames : ∀ s ∈ spec.series, '=' ∉ s.name.tail := fun s hs heq =>
      parseSeries_cut heq (h.names s hs).2 (hread s hs) rfl
    exact ⟨hnone, hnames, fun s hs => (hone s hs (hnames s hs)).mp (hread s hs)⟩
  · rintro ⟨hnone, hnames, hvalues⟩
    rw [hnone, List.nil_append, List.map_map]
    exact List.map_inj_left.mpr fun s hs => (hone s hs (hnames s hs)).mpr (hvalues s hs)

/-- A fence without line breaks in its texts tells the chart if and only if the rest of the
condition holds. -/
theorem roundTrips_unbroken (h : Drawn spec) (hu : Unbroken spec) :
    (∃ s, parseChartSpec (closed (fenceLines spec)) = .ok s ∧ SameChart s spec) ↔ Writable spec := by
  obtain ⟨f, hf, hfields⟩ := parseFields_fence h hu
  obtain ⟨htype, htitle, hx, hsource⟩ := fields_fence h hf rfl
  unfold parseChartSpec
  rw [hfields]
  have hpoints : ¬ spec.x.length < 2 := Nat.not_lt.mpr h.points
  simp only [htype, htitle, hx, hsource, if_neg hpoints]
  constructor
  · rintro ⟨s, hparse, hsame⟩
    split at hparse
    · cases hparse
    · rename_i type hname
      obtain ⟨series, hmap, hparse⟩ := Fallible.bind_eq_ok.mp hparse
      obtain ⟨_, -, hparse⟩ := Fallible.bind_eq_ok.mp hparse
      obtain rfl := Except.ok.inj hparse
      obtain ⟨hst, hstitle, -, hsseries, hssource⟩ := hsame
      simp only at hst hstitle hsseries hssource
      subst hst hsseries
      obtain ⟨hnone, hnames, hvalues⟩ := (mapM_parseSeries h).mp hmap
      refine ⟨hu, hnames, hvalues, hnone, fun t ht => ?_, hstitle, fun hnil => ?_⟩
      · rw [ht] at hname
        exact hname
      · rw [if_pos hnil] at hssource
        exact hssource.trans hnil
  · rintro ⟨-, hnames, hvalues, hunit⟩
    have hname : ChartType.ofName? (strip ((lastFor "type".toList (unitFields spec).1).getD
        spec.type.name)) = some spec.type := by
      cases hlast : lastFor "type".toList (unitFields spec).1 with
      | none => rw [Option.getD_none, strip_solid (solid_typeName _), ofName?_name]
      | some t => exact hunit.type t hlast
    have hmap := (mapM_parseSeries h).mpr ⟨hunit.series, hnames, hvalues⟩
    simp only [hname, hmap]
    refine ⟨_, Fallible.bind_eq_ok.mpr ⟨_, rfl, Fallible.bind_eq_ok.mpr
      ⟨(), checkSeries_drawn h, rfl⟩⟩, rfl, hunit.title, rfl, rfl, ?_⟩
    show (if spec.source = [] then _ else _) = spec.source
    split
    · rename_i hnil
      rw [hunit.source hnil, hnil]
    · rfl

/-- The fence of a chart tells the chart if and only if it is writable. -/
theorem roundTrips_iff (h : Drawn spec) : RoundTrips spec ↔ Writable spec := by
  constructor
  · rintro ⟨body, s, hbody, hparse, hsame⟩
    rw [fenceBody_toFence h] at hbody
    obtain rfl := Option.some.inj hbody
    exact (roundTrips_unbroken h (unbroken_of_parses h hparse hsame)).mp ⟨s, hparse, hsame⟩
  · intro hw
    obtain ⟨s, hparse, hsame⟩ := (roundTrips_unbroken h hw.unbroken).mpr hw
    exact ⟨_, s, fenceBody_toFence h, hparse, hsame⟩

end RownRg.Charts

import RownRg.Core.SectionPlan
import RownRg.Lib.Scan

/-! The references between sections: how they are spelled and in what order sections run. -/

open PyText Regex

namespace RownRg.BuildsOn

/-- `MAX_DEPTH` -/
def maxDepth : Nat := 3

/-- `MAX_REFS_PER_SECTION` -/
def maxRefsPerSection : Nat := 2

inductive RefGroup where
  | chapter
  | section
  | metric
  deriving DecidableEq

variable {γ : Type}

/-- `\s*` -/
def blank : Regex γ := star Regex.space

/-- `[^()]` -/
def noParen : Regex γ := noneOf "()".toList

/-- `(?:\(\s*(?P<metric>[^()]+?)\s*\))?\s*$` -/
def metricTail (metric : γ) : Regex γ :=
  cat [opt (cat [chr '(', blank, group metric (seq noParen (lazy noParen)), blank, chr ')']),
    blank, textEnd]

def refRe : Regex RefGroup :=
  cat [textStart, blank, group .chapter (plus digit), chr '.',
    group .section (alt (plus digit) (chr '*')), metricTail .metric]

/-- One reference; without a section it names a whole chapter. -/
structure BuildsOnRef where
  chapter : Nat
  sectionNumber : Option Nat
  metric : Option Text
  deriving DecidableEq

/-- `(text or "").strip() or None` -/
def stripped (t : Option Text) : Option Text :=
  let s := strip (t.getD [])
  if s.isEmpty then none else some s

def refOfMatch (m : Match RefGroup) : BuildsOnRef :=
  let chapter := natOf ((m.group .chapter).getD [])
  if m.group .section = some ['*'] then ⟨chapter, none, none⟩
  else ⟨chapter, some (natOf ((m.group .section).getD [])), stripped (m.group .metric)⟩

/-- Reads one reference. -/
def parseRef (raw : Text) : Option BuildsOnRef := (refRe.matchStart raw).map refOfMatch

/-- `4.1` -/
def sectionLabel (chapter sectionNumber : Nat) : Text :=
  ofNat chapter ++ '.' :: ofNat sectionNumber

/-- `4.*` -/
def chapterLabel (chapter : Nat) : Text := ofNat chapter ++ ".*".toList

/-- `4.1(총사업비)` -/
def withMetric (label : Text) (metric : Option Text) : Text :=
  match metric with
  | none => label
  | some m => label ++ '(' :: (m ++ [')'])

def BuildsOnRef.label (r : BuildsOnRef) : Text :=
  withMetric (match r.sectionNumber with
    | none => chapterLabel r.chapter
    | some n => sectionLabel r.chapter n) r.metric

/-! How references are spelled. -/

variable {raw t x y w d : Text} {r r' : BuildsOnRef} {m m' : Option Text} {c : Char} {n : Nat}

/-- What may stand behind a reference: a metric in parentheses. -/
inductive MetricPart : Text → Option Text → Prop
  | absent : MetricPart [] none
  | given {y : Text} (hy : y ≠ []) (hparen : ∀ c ∈ y, c ≠ '(' ∧ c ≠ ')') :
      MetricPart ('(' :: (y ++ [')'])) (stripped (some y))

/-- The number of a section, or a star for all sections of the chapter. -/
inductive SectionPart : Text → Option Nat → Prop
  | number {d : Text} (hd : d ≠ []) (hdigit : ∀ c ∈ d, isDigit c) : SectionPart d (some (natOf d))
  | all : SectionPart ['*'] none

/-- The reference that a text spells. -/
inductive RefText : Text → BuildsOnRef → Prop
  | mk {w d s x v : Text} {n : Option Nat} {m : Option Text} (hw : ∀ c ∈ w, isSpace c) (hd : d ≠ [])
      (hdigit : ∀ c ∈ d, isDigit c) (hs : SectionPart s n) (hx : MetricPart x m)
      (hv : ∀ c ∈ v, isSpace c) :
      RefText (w ++ (d ++ '.' :: (s ++ (x ++ v))))
        ⟨natOf d, n, if n.isSome then m else none⟩

theorem accepts_blank : (blank : Regex γ).Accepts w ↔ ∀ c ∈ w, isSpace c := accepts_star_cls

theorem noParen_iff : (!("()".toList.contains c)) = true ↔ c ≠ '(' ∧ c ≠ ')' := by
  simp

theorem stripped_none : stripped none = none := rfl

theorem stripped_append {u v : Text} (hu : ∀ c ∈ u, isSpace c) (hv : ∀ c ∈ v, isSpace c) :
    stripped (some (u ++ (t ++ v))) = stripped (some t) := by
  simp [stripped, strip_append_left hu, strip_append_right hv]

/-- What the end of a reference matches, and what it captures. -/
theorem mem_metricTail {g : γ} {q : Pos γ} {b : Text} {cs : List (γ × Text)}
    (h : q ∈ (metricTail g).run ⟨b, t, cs⟩) :
    ∃ x v m, MetricPart x m ∧ (∀ c ∈ v, isSpace c) ∧ t = x ++ v ∧
      (q.caps = cs ∧ m = none ∨ ∃ y, q.caps = (g, y) :: cs ∧ stripped (some y) = m ∧
        ∀ c ∈ y, c ≠ '(' ∧ c ≠ ')') := by
  have hend : ∀ {b t cs}, q ∈ (seq blank textEnd).run ⟨b, t, cs⟩ →
      (∀ c ∈ t, isSpace c) ∧ q.caps = cs := by
    intro b t cs hq
    rw [mem_run_seq_plain (by trivial)] at hq
    obtain ⟨w, v, hw, rfl, hq⟩ := hq
    obtain ⟨rfl, hv⟩ := mem_textEnd hq
    refine ⟨fun c hc => ?_, rfl⟩
    exact (List.mem_append.mp hc).elim (accepts_blank.1 hw c) (hv c)
  simp only [metricTail, cat, opt] at h
  obtain ⟨u, hu, hq⟩ := mem_run_seq.1 h
  clear h
  have hplain : (seq noParen (lazy noParen) : Regex γ).Plain := ⟨trivial, trivial⟩
  rcases mem_run_alt.1 hu with hmetric | hmetric
  · clear hu
    rw [mem_run_seq_plain (by trivial)] at hmetric
    obtain ⟨_, _, ho, rfl, hmetric⟩ := hmetric
    obtain rfl := accepts_chr.1 ho
    rw [mem_run_seq_plain (by trivial)] at hmetric
    obtain ⟨w₁, _, hw₁, rfl, hmetric⟩ := hmetric
    rw [mem_run_seq_group hplain] at hmetric
    obtain ⟨y, _, hy, rfl, hmetric⟩ := hmetric
    rw [mem_run_seq_plain (by trivial)] at hmetric
    obtain ⟨w₂, _, hw₂, rfl, hmetric⟩ := hmetric
    rw [mem_run_plain_iff (by trivial)] at hmetric
    obtain ⟨_, v, hc, rfl, rfl⟩ := hmetric
    obtain rfl := accepts_chr.1 hc
    obtain ⟨hv, hcaps⟩ := hend hq
    have hy : y ≠ [] ∧ ∀ c ∈ y, c ≠ '(' ∧ c ≠ ')' := by
      have hplus : (plus noParen : Regex γ).Accepts y := hy
      obtain ⟨hne, hall⟩ := accepts_plus_cls.1 hplus
      exact ⟨hne, fun c hc => noParen_iff.1 (hall c hc)⟩
    have hspace : ∀ {w : Text}, (∀ c ∈ w, isSpace c) → ∀ c ∈ w, c ≠ '(' ∧ c ≠ ')' := by
      intro w hw c hc
      constructor <;> rintro rfl <;> exact absurd (hw _ hc) (by decide)
    have hw₁ := accepts_blank.1 hw₁
    have hw₂ := accepts_blank.1 hw₂
    refine ⟨'(' :: (w₁ ++ (y ++ w₂) ++ [')']), v, stripped (some y), ?_, hv, by simp,
      .inr ⟨y, hcaps, rfl, hy.2⟩⟩
    rw [← stripped_append hw₁ hw₂]
    refine .given (by simp [hy.1]) fun c hc => ?_
    simp only [List.mem_append] at hc
    rcases hc with hc | hc | hc
    · exact hspace hw₁ c hc
    · exact hy.2 c hc
    · exact hspace hw₂ c hc
  · obtain rfl : u = _ := by simpa [run] using hmetric
    obtain ⟨hv, hcaps⟩ := hend hq
    exact ⟨[], t, none, .absent, hv, rfl, .inl ⟨hcaps, rfl⟩⟩

/-- The end of a reference matches every metric. -/
theorem exists_metricTail {g : γ} {b v : Text} {k : List (γ × Text)} (hx : MetricPart x m)
    (hv : ∀ c ∈ v, isSpace c) : ∃ q, q ∈ (metricTail g).run ⟨b, x ++ v, k⟩ := by
  have hend : ∀ {b cs}, ∃ q, q ∈ (seq blank textEnd : Regex γ).run ⟨b, v, cs⟩ := by
    intro b cs
    refine ⟨⟨v.reverse ++ b, [], cs⟩, ?_⟩
    rw [mem_run_seq_plain (by trivial)]
    exact ⟨v, [], accepts_blank.2 hv, by simp, by simp [run]⟩
  simp only [metricTail, cat, opt]
  cases hx with
  | absent =>
    obtain ⟨q, hq⟩ := @hend b k
    exact ⟨q, mem_run_seq.2 ⟨⟨b, v, k⟩, mem_run_alt.2 (.inr (by simp [run])), hq⟩⟩
  | @given y hy hparen =>
    obtain ⟨q, hq⟩ := @hend (')' :: (y.reverse ++ '(' :: b)) ((g, y) :: k)
    refine ⟨q, mem_run_seq.2 ⟨_, mem_run_alt.2 (.inl ?_), hq⟩⟩
    rw [mem_run_seq_plain (by trivial)]
    refine ⟨['('], y ++ ')' :: v, accepts_chr.2 rfl, by simp, ?_⟩
    rw [mem_run_seq_plain (by trivial)]
    refine ⟨[], _, accepts_blank.2 (by simp), rfl, ?_⟩
    rw [mem_run_seq_group (show (seq noParen (lazy noParen) : Regex γ).Plain from
      ⟨trivial, trivial⟩)]
    have hall : (plus noParen : Regex γ).Accepts y :=
      accepts_plus_cls.2 ⟨hy, fun c hc => noParen_iff.2 (hparen c hc)⟩
    refine ⟨y, ')' :: v, hall, rfl, ?_⟩
    rw [mem_run_seq_plain (by trivial)]
    refine ⟨[], _, accepts_blank.2 (by simp), rfl, ?_⟩
    rw [mem_run_plain_iff (by trivial)]
    exact ⟨[')'], v, accepts_chr.2 rfl, rfl, by simp⟩

theorem not_isSpace_of_digit (h : isDigit c) : isSpace c = false := by
  by_contra hs
  simp [not_isDigit_of_isSpace (by simpa using hs)] at h

/-- The end of a reference determines its metric. -/
theorem metricPart_unique {v v' : Text} (hx : MetricPart x m) (hx' : MetricPart y m')
    (hv : ∀ c ∈ v, isSpace c) (hv' : ∀ c ∈ v', isSpace c) (h : x ++ v = y ++ v') :
    x = y ∧ m = m' := by
  have hopen : ∀ {v : Text} {t : Text}, (∀ c ∈ v, isSpace c) → v ≠ '(' :: t := by
    rintro v t hv rfl
    exact absurd (hv '(' (by simp)) (by decide)
  cases hx with
  | absent =>
    cases hx' with
    | absent => exact ⟨rfl, rfl⟩
    | given => exact absurd h (hopen hv)
  | @given z hz hparen =>
    cases hx' with
    | absent => exact absurd h.symm (hopen hv')
    | @given z' hz' hparen' =>
      have hinner : z ++ ')' :: v = z' ++ ')' :: v' := by simpa using h
      obtain ⟨rfl, -⟩ := append_inj_of_all (p := (· != ')'))
        (fun c hc => bne_iff_ne.mpr (hparen c hc).2) (fun c hc => bne_iff_ne.mpr (hparen' c hc).2)
        (by simp) (by simp) hinner
      exact ⟨rfl, rfl⟩

/-- What stands behind the number of a section. -/
theorem metricPart_head {v : Text} (hx : MetricPart x m) (hv : ∀ c ∈ v, isSpace c) :
    ∀ c ∈ (x ++ v).head?, isDigit c = false := by
  intro c hc
  cases hx with
  | absent =>
    have hmem : c ∈ v := List.mem_of_head? hc
    exact not_isDigit_of_isSpace (hv c hmem)
  | given =>
    obtain rfl : '(' = c := by simpa using hc
    decide

/-- A text spells at most one reference. -/
theorem refText_unique (h : RefText raw r) (h' : RefText raw r') : r = r' := by
  obtain ⟨hw, hd, hdigit, hs, hx, hv⟩ := h
  rename_i w d s x v n m
  generalize ht : w ++ (d ++ '.' :: (s ++ (x ++ v))) = t at h'
  obtain ⟨hw', hd', hdigit', hs', hx', hv'⟩ := h'
  rename_i w' d' s' x' v' n' m'
  have hhead : ∀ {d : Text} {t : Text}, d ≠ [] → (∀ c ∈ d, isDigit c) →
      ∀ c ∈ (d ++ t).head?, isSpace c = false := by
    intro d t hd hdigit c hc
    obtain ⟨e, u, rfl⟩ := List.exists_cons_of_ne_nil hd
    obtain rfl : e = c := by simpa using hc
    exact not_isSpace_of_digit (hdigit e (by simp))
  obtain ⟨-, htail⟩ := append_inj_of_all hw hw' (hhead hd hdigit) (hhead hd' hdigit') ht
  obtain ⟨rfl, hsec⟩ := append_inj_of_all hdigit hdigit' (by simp; decide) (by simp; decide) htail
  have hsec := (List.cons.inj hsec).2
  cases hs with
  | @number e he hedigit =>
    cases hs' with
    | @number e' he' hedigit' =>
      obtain ⟨rfl, hrest⟩ := append_inj_of_all hedigit hedigit' (metricPart_head hx hv)
        (metricPart_head hx' hv') hsec
      rw [(metricPart_unique hx hx' hv hv' hrest).2]
    | all =>
      obtain ⟨c, u, rfl⟩ := List.exists_cons_of_ne_nil he
      obtain rfl : c = '*' := (List.cons.inj hsec).1
      exact absurd (hedigit '*' (by simp)) (by decide)
  | all =>
    cases hs' with
    | @number e' he' hedigit' =>
      obtain ⟨c, u, rfl⟩ := List.exists_cons_of_ne_nil he'
      obtain rfl : '*' = c := (List.cons.inj hsec).1
      exact absurd ( hedigit' '*' (by simp)) (by decide)
    | all => rfl

/-- The parts of a text that the pattern matches, and what is captured of them. -/
theorem parts_of_mem {q : Pos RefGroup} (h : q ∈ refRe.run ⟨[], raw, []⟩) (u : Text) :
    ∃ w d s x v m, raw = w ++ (d ++ '.' :: (s ++ (x ++ v))) ∧ (∀ c ∈ w, isSpace c) ∧
      (d ≠ [] ∧ ∀ c ∈ d, isDigit c) ∧ (s = ['*'] ∨ s ≠ [] ∧ ∀ c ∈ s, isDigit c) ∧
      MetricPart x m ∧ (∀ c ∈ v, isSpace c) ∧
      (⟨u, q.caps⟩ : Match RefGroup).group .chapter = some d ∧
      (⟨u, q.caps⟩ : Match RefGroup).group .section = some s ∧
      stripped ((⟨u, q.caps⟩ : Match RefGroup).group .metric) = m ∧
      ∀ y ∈ (⟨u, q.caps⟩ : Match RefGroup).group .metric, ∀ c ∈ y, c ≠ '(' ∧ c ≠ ')' := by
  simp only [refRe, cat] at h
  have htext : (textStart : Regex RefGroup).run ⟨[], raw, []⟩ = [⟨[], raw, []⟩] := rfl
  rw [run, htext, List.flatMap_singleton, mem_run_seq_plain (by trivial)] at h
  obtain ⟨w, v, hw, hraw, h⟩ := h
  rw [mem_run_seq_group (show (plus digit : Regex RefGroup).Plain from ⟨trivial, trivial⟩)] at h
  obtain ⟨d, v', hd, hv, h⟩ := h
  rw [mem_run_seq_plain (by trivial)] at h
  obtain ⟨dot, v'', hdot, hv', h⟩ := h
  rw [mem_run_seq_group (show (alt (plus digit) (chr '*') : Regex RefGroup).Plain from
    ⟨⟨trivial, trivial⟩, trivial⟩)] at h
  obtain ⟨s, v₃, hs, hv'', h⟩ := h
  obtain ⟨x, v, m, hx, hblank, hv₃, hcaps⟩ := mem_metricTail h
  subst hv₃ hv'' hv' hv hraw
  obtain rfl := accepts_chr.1 hdot
  have hs : s = ['*'] ∨ s ≠ [] ∧ ∀ c ∈ s, isDigit c := by
    rcases hs with hs | hs
    · exact .inr (accepts_plus_cls.1 hs)
    · exact .inl (accepts_chr.1 hs)
  refine ⟨w, d, s, x, v, m, rfl, accepts_blank.1 hw, accepts_plus_cls.1 hd, hs, hx, hblank, ?_⟩
  rcases hcaps with ⟨hcaps, rfl⟩ | ⟨y, hcaps, rfl, hparen⟩
  · rw [hcaps]
    exact ⟨rfl, rfl, rfl, by simp [Match.group]⟩
  · rw [hcaps]
    refine ⟨rfl, rfl, rfl, fun z hz => ?_⟩
    obtain rfl : y = z := by simpa [Match.group] using hz
    exact hparen

theorem refText_of_mem {q : Pos RefGroup} (h : q ∈ refRe.run ⟨[], raw, []⟩) (u : Text) :
    RefText raw (refOfMatch ⟨u, q.caps⟩) := by
  obtain ⟨w, d, s, x, v, m, rfl, hw, ⟨hd, hdigit⟩, hs, hx, hv, hchapter, hsection, hmetric, -⟩ :=
    parts_of_mem h u
  rcases hs with rfl | ⟨hne, hall⟩
  · have href := RefText.mk hw hd hdigit .all hx hv
    simpa [refOfMatch, hchapter, hsection, hmetric] using href
  · have hstar : s ≠ ['*'] := by
      rintro rfl
      exact absurd (hall '*' (by simp)) (by decide)
    have href := RefText.mk hw hd hdigit (.number hne hall) hx hv
    simpa [refOfMatch, hchapter, hsection, hmetric, hstar] using href

theorem exists_refRe (h : RefText raw r) : ∃ q, q ∈ refRe.run ⟨[], raw, []⟩ := by
  obtain ⟨hw, hd, hdigit, hs, hx, hv⟩ := h
  rename_i w d s x v n m
  obtain ⟨q, hq⟩ := exists_metricTail (g := RefGroup.metric)
    (b := s.reverse ++ '.' :: (d.reverse ++ (w.reverse ++ [])))
    (k := [(.section, s), (.chapter, d)]) hx hv
  refine ⟨q, ?_⟩
  simp only [refRe, cat]
  have htext : ∀ t : Text, (textStart : Regex RefGroup).run ⟨[], t, []⟩ = [⟨[], t, []⟩] :=
    fun _ => rfl
  rw [run, htext, List.flatMap_singleton, mem_run_seq_plain (by trivial)]
  refine ⟨w, _, accepts_blank.2 hw, rfl, ?_⟩
  rw [mem_run_seq_group (show (plus digit : Regex RefGroup).Plain from ⟨trivial, trivial⟩)]
  refine ⟨d, _, accepts_plus_cls.2 ⟨hd, hdigit⟩, rfl, ?_⟩
  rw [mem_run_seq_plain (by trivial)]
  refine ⟨['.'], _, accepts_chr.2 rfl, rfl, ?_⟩
  rw [mem_run_seq_group (show (alt (plus digit) (chr '*') : Regex RefGroup).Plain from
    ⟨⟨trivial, trivial⟩, trivial⟩)]
  refine ⟨s, x ++ v, ?_, rfl, by simpa using hq⟩
  cases hs with
  | number he hedigit => exact .inl (accepts_plus_cls.2 ⟨he, hedigit⟩)
  | all => exact .inr (accepts_chr.2 rfl)

/-- `parseRef` reads exactly the texts that spell a reference. -/
theorem parseRef_eq_some : parseRef raw = some r ↔ RefText raw r := by
  have hsound : ∀ {r}, parseRef raw = some r → RefText raw r := by
    intro r h
    obtain ⟨k, hk, rfl⟩ := Option.map_eq_some_iff.mp h
    obtain ⟨q, hq, t, rfl⟩ := mem_of_matchStart hk
    exact refText_of_mem hq t
  refine ⟨hsound, fun h => ?_⟩
  obtain ⟨q, hq, t, hk⟩ := exists_matchStart (exists_refRe h)
  rw [parseRef, hk, Option.map_some, refText_unique (refText_of_mem hq t) h]

/-! The spellings that the labels use. -/

/-- A metric as it is kept: not blank, without blanks around it, and without parentheses. -/
def MetricOk (m : Text) : Prop := m ≠ [] ∧ strip m = m ∧ ∀ c ∈ m, c ≠ '(' ∧ c ≠ ')'

/-- A metric that may be missing. -/
def MetricFine (m : Option Text) : Prop := ∀ x ∈ m, MetricOk x

theorem stripped_ok (h : MetricOk t) : stripped (some t) = some t := by
  obtain ⟨hne, hstrip, -⟩ := h
  simp [stripped, hstrip, hne]

theorem metricPart_fine (h : MetricPart x m) : MetricFine m := by
  intro z hz
  cases h with
  | absent => simp at hz
  | @given y hy hparen =>
    simp only [stripped, Option.getD_some, Option.mem_def] at hz
    split at hz
    · simp at hz
    · rename_i hne
      obtain rfl := Option.some.inj hz
      exact ⟨by simpa using hne, strip_strip y, fun c hc => hparen c (mem_of_mem_strip hc)⟩

theorem metricPart_ok (h : MetricOk t) : MetricPart ('(' :: (t ++ [')'])) (some t) := by
  have hpart := MetricPart.given h.1 h.2.2
  rwa [stripped_ok h] at hpart

theorem refText_fine (h : RefText raw r) : MetricFine r.metric := by
  obtain ⟨-, -, -, -, hx, -⟩ := h
  intro z hz
  simp only at hz
  split at hz
  · exact metricPart_fine hx z hz
  · simp at hz

theorem sectionPart_ofNat (n : Nat) : SectionPart (ofNat n) (some n) := by
  have h := SectionPart.number (d := ofNat n) ofNat_ne_nil fun c hc => isDigit_of_mem_ofNat hc
  rwa [natOf_ofNat] at h

theorem sectionLabel_injective {c c' n n' : Nat} (h : sectionLabel c n = sectionLabel c' n') :
    c = c' ∧ n = n' := by
  obtain ⟨hc, hn⟩ := append_inj_of_all (p := fun d => d != '.')
    (fun d hd => bne_iff_ne.mpr fun he => dot_notMem_ofNat c (he ▸ hd))
    (fun d hd => bne_iff_ne.mpr fun he => dot_notMem_ofNat c' (he ▸ hd)) (by simp) (by simp) h
  exact ⟨ofNat_injective hc, ofNat_injective (List.cons.inj hn).2⟩

theorem splitOn_sectionLabel (c n : Nat) :
    (sectionLabel c n).splitOn '.' = [ofNat c, ofNat n] := by
  rw [sectionLabel, List.splitOn_append_cons_self_of_not_mem (dot_notMem_ofNat c),
    List.splitOn_eq_singleton (dot_notMem_ofNat n)]

theorem parseRef_sectionLabel (chapter n : Nat) :
    parseRef (sectionLabel chapter n) = some ⟨chapter, some n, none⟩ := by
  rw [parseRef_eq_some]
  have h := RefText.mk (w := []) (v := []) (by simp) (ofNat_ne_nil (n := chapter))
    (fun c hc => isDigit_of_mem_ofNat hc) (sectionPart_ofNat n) .absent (by simp)
  simpa [natOf_ofNat, sectionLabel] using h

theorem parseRef_chapterLabel (chapter : Nat) :
    parseRef (chapterLabel chapter) = some ⟨chapter, none, none⟩ := by
  rw [parseRef_eq_some]
  have h := RefText.mk (w := []) (v := []) (by simp) (ofNat_ne_nil (n := chapter))
    (fun c hc => isDigit_of_mem_ofNat hc) .all .absent (by simp)
  simpa [natOf_ofNat, chapterLabel] using h

/-- A reference reads back from its label. -/
theorem parseRef_label (hm : MetricFine r.metric) (hall : r.sectionNumber = none → r.metric = none) :
    parseRef r.label = some r := by
  obtain ⟨chapter, sectionNumber, metric⟩ := r
  cases sectionNumber with
  | none =>
    obtain rfl : metric = none := hall rfl
    exact parseRef_chapterLabel chapter
  | some n =>
    cases metric with
    | none => exact parseRef_sectionLabel chapter n
    | some t =>
      rw [parseRef_eq_some]
      have h := RefText.mk (w := []) (v := []) (by simp) (ofNat_ne_nil (n := chapter))
        (fun c hc => isDigit_of_mem_ofNat hc) (sectionPart_ofNat n)
        (metricPart_ok (hm t rfl)) (by simp)
      simpa [natOf_ofNat, BuildsOnRef.label, withMetric, sectionLabel] using h

end RownRg.BuildsOn

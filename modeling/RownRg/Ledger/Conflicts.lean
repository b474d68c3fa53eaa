import RownRg.Ledger.Entry
import RownRg.Lib.Dedup
import RownRg.Lib.Double
import Mathlib.Data.Sym.Sym2

/-! Values of one metric that differ between the sections of a report. -/

open PyText FirstSeen

namespace RownRg.Ledger

variable {lower : Text → Text} {entries entries' : List Entry} {a b c d e : Entry}

/-- Two names of one metric. -/
def sameMetric (lower : Text → Text) (a b : Text) : Bool :=
  let na := normMetric lower a
  let nb := normMetric lower b
  !na.isEmpty && na = nb

/-- The numbers differ by more than two parts in a hundred of the greater one. -/
def numbersConflict (va vb : Double) : Bool :=
  if va.eq vb then false
  else
    let hi := va.max vb
    let lo := va.min vb
    Double.lt (.finite 0) lo && Double.lt (.round (2 / 100)) ((hi.sub lo).div hi)

/-- `a.get("unit") or ""` -/
def Entry.unitText (e : Entry) : Text := e.unit.getD []

def valuesConflict (a b : Entry) : Bool :=
  if a.unitText ≠ b.unitText then false
  else
    match Double.ofText a.value, Double.ofText b.value with
    | some va, some vb => numbersConflict va vb
    | _, _ => a.value ≠ b.value

/-- Both values are of one time, and not of two scenarios. -/
def qualifiersConfirmed (a b : Entry) : Bool :=
  let qa := a.qualifiers
  let qb := b.qualifiers
  if qa.scenario.isSome && qb.scenario.isSome && qa.scenario ≠ qb.scenario then false
  else qa.asOf.isSome && qb.asOf.isSome && qa.asOf = qb.asOf

/-- Both have a head of a column, and not the same. -/
def differentTableColumn (a b : Entry) : Bool :=
  let ca := a.qualifiers.column.getD []
  let cb := b.qualifiers.column.getD []
  !ca.isEmpty && !cb.isEmpty && ca ≠ cb

/-- The section that gave a range, and the one that gave its upper end as the value. -/
structure Promotion where
  rangeRef : Text
  pointRef : Text
  deriving DecidableEq

def promotes (rng point : Entry) : Option Promotion := do
  let r ← rng.qualifiers.range
  if point.qualifiers.range.isSome then none
  else
    let value ← Double.ofText point.value
    let top ← Double.ofText r.2
    if (value.sub top).abs.le (.round (1 / 10 ^ 9)) then
      some ⟨rng.sectionRef, point.sectionRef⟩
    else none

def rangePromotion (a b : Entry) : Option Promotion := (promotes a b).or (promotes b a)

/-- Under what the values of one section are compared. -/
def Entry.slot (lower : Text → Text) (e : Entry) : Text × Text :=
  (normMetric lower e.metric, e.sectionRef)

/-- The section gives more than one value under this name. -/
def ambiguous (lower : Text → Text) (entries : List Entry) (slot : Text × Text) : Bool :=
  1 < ((entries.filter (·.slot lower = slot)).map (·.value)).eraseDups.length

inductive Severity where
  | critical
  | warning
  deriving DecidableEq

inductive Verdict where
  | promoted (promo : Promotion)
  | conflict (confirmed : Bool)

/-- What is found in two entries; `none` where they are passed over. -/
def judge (lower : Text → Text) (entries : List Entry) (a b : Entry) : Option Verdict :=
  if a.sectionRef = b.sectionRef then none
  else if ambiguous lower entries (a.slot lower) || ambiguous lower entries (b.slot lower) then none
  else if !sameMetric lower a.metric b.metric then none
  else if differentTableColumn a b then none
  else
    match rangePromotion a b with
    | some promo => some (.promoted promo)
    | none =>
      if !valuesConflict a b then none else some (.conflict (qualifiersConfirmed a b))

/-- Two entries and what is found in them. -/
structure Report where
  a : Entry
  b : Entry
  verdict : Verdict

/-- `(min(x, y), max(x, y))` -/
def sortedPair (x y : Text) : Text × Text := if x ≤ y then (x, y) else (y, x)

/-- By what nothing is reported twice. -/
inductive ReportKey where
  | promo (a b metric : Text)
  | conflict (sections : Text × Text) (metric : Text) (values : Text × Text)
  deriving DecidableEq

def Report.key (lower : Text → Text) (r : Report) : ReportKey :=
  match r.verdict with
  | .promoted _ => .promo r.a.sectionRef r.b.sectionRef r.a.metric
  | .conflict _ => .conflict (sortedPair r.a.sectionRef r.b.sectionRef)
      (normMetric lower r.a.metric) (sortedPair r.a.value r.b.value)

def Verdict.severity : Verdict → Severity
  | .conflict true => .critical
  | _ => .warning

structure Finding where
  severity : Severity
  category : Text
  sectionRef : Text
  detail : Text
  chunkIds : List Text

def Report.detail (r : Report) : Text :=
  match r.verdict with
  | .promoted promo => "범위의 상단이 확정값으로 굳음: ".toList ++ r.a.metric ++ " — ".toList ++
      promo.rangeRef ++ "는 범위, ".toList ++ promo.pointRef ++
      "는 그 최댓값을 단일값으로 서술".toList
  | .conflict confirmed => "같은 지표 다른 값: ".toList ++ r.a.metric ++ " — ".toList ++
      r.a.sectionRef ++ '=' :: r.a.value ++ r.a.unitText ++ " vs ".toList ++
      r.b.sectionRef ++ '=' :: r.b.value ++ r.a.unitText ++
      if confirmed then [] else " (한정자 불일치·미상 — 확인 필요)".toList

/-- The chunks of both entries stand in the order of a set. -/
def Report.finding (r : Report) : Finding where
  severity := r.verdict.severity
  category := "절 간 지표 충돌".toList
  sectionRef :=
    match r.verdict with
    | .promoted promo => promo.pointRef
    | .conflict _ => r.b.sectionRef
  detail := r.detail
  chunkIds := (r.a.chunkIds ++ r.b.chunkIds).eraseDups

/-- Every entry with every entry behind it. -/
def pairs : List Entry → List (Entry × Entry)
  | [] => []
  | a :: rest => rest.map (a, ·) ++ pairs rest

/-- All that is found, pair by pair. -/
def allReports (lower : Text → Text) (entries : List Entry) : List Report :=
  (pairs entries).filterMap fun p => (judge lower entries p.1 p.2).map (.mk p.1 p.2)

/-- What is reported: the first under each key. -/
def reported (lower : Text → Text) (entries : List Entry) : List Report :=
  pushNew (Report.key lower) (allReports lower entries) []

def joinConflicts (lower : Text → Text) (entries : List Entry) : List Finding :=
  (reported lower entries).map Report.finding

/-! What is asked of the reports. -/

/-- The metric, the two sections and the two values that a report is about. -/
abbrev Topic := Text × Sym2 Text × Sym2 Text

def topic (lower : Text → Text) (a b : Entry) : Topic :=
  (normMetric lower a.metric, s(a.sectionRef, b.sectionRef), s(a.value, b.value))

def facts (lower : Text → Text) (entries : List Entry) : Set (Topic × Severity) :=
  {x | ∃ r ∈ reported lower entries, x = (topic lower r.a r.b, r.verdict.severity)}

/-- Two entries that give one metric different values. -/
structure Qualifies (lower : Text → Text) (entries : List Entry) (a b : Entry) : Prop where
  left : a ∈ entries
  right : b ∈ entries
  sections : a.sectionRef ≠ b.sectionRef
  single : ambiguous lower entries (a.slot lower) = false
  single' : ambiguous lower entries (b.slot lower) = false
  metric : sameMetric lower a.metric b.metric
  columns : differentTableColumn a b = false
  noPromotion : rangePromotion a b = none
  values : valuesConflict a b

/-- The reports do not depend on the order of the entries, and the critical ones are those of
entries whose times are confirmed to be the same. -/
structure Faithful (lower : Text → Text) (entries : List Entry) : Prop where
  stable : ∀ entries', entries'.Perm entries → facts lower entries' = facts lower entries
  critical : ∀ x, (x, .critical) ∈ facts lower entries ↔
    ∃ a b, Qualifies lower entries a b ∧ qualifiersConfirmed a b ∧ topic lower a b = x

/-- No two conflicts about the same differ in whether their times are confirmed. -/
def Uniform (lower : Text → Text) (entries : List Entry) : Prop :=
  ∀ a b c d, Qualifies lower entries a b → Qualifies lower entries c d →
    topic lower a b = topic lower c d → qualifiersConfirmed a b = qualifiersConfirmed c d

/-! Nothing of what is compared depends on which of the two entries is first. -/

theorem sameMetric_comm (a b : Text) : sameMetric lower a b = sameMetric lower b a := by
  unfold sameMetric
  by_cases h : normMetric lower a = normMetric lower b
  · simp [h]
  · simp [h, Ne.symm h]

theorem differentTableColumn_comm (a b : Entry) :
    differentTableColumn a b = differentTableColumn b a := by
  simp only [differentTableColumn, ne_comm (a := a.qualifiers.column.getD [])]
  cases (a.qualifiers.column.getD []).isEmpty <;> cases (b.qualifiers.column.getD []).isEmpty <;> rfl

theorem qualifiersConfirmed_comm (a b : Entry) :
    qualifiersConfirmed a b = qualifiersConfirmed b a := by
  have hscenario : a.qualifiers.scenario ≠ b.qualifiers.scenario ↔
      b.qualifiers.scenario ≠ a.qualifiers.scenario := ne_comm
  have htime : a.qualifiers.asOf = b.qualifiers.asOf ↔
      b.qualifiers.asOf = a.qualifiers.asOf := eq_comm
  unfold qualifiersConfirmed
  simp only [hscenario, htime, Bool.and_comm]

theorem numbersConflict_nan (x : Double) :
    numbersConflict .nan x = false ∧ numbersConflict x .nan = false := by
  have hleft : Double.min .nan x = .nan := by simp [Double.min, Double.lt_nan]
  have hmin : Double.min x .nan = x := by cases x <;> rfl
  have hmax : Double.max x .nan = x := by simp [Double.max, Double.lt_nan]
  have hzero : Double.lt (.round (2 / 100)) (.finite 0) = false :=
    Double.lt_round_zero (by norm_num)
  constructor
  · simp [numbersConflict, hleft, Double.lt_nan]
  · unfold numbersConflict
    rw [hmin, hmax]
    rcases Double.div_sub_self x with h | h
    · simp [h, Double.lt_nan]
    · simp [h, hzero]

theorem numbersConflict_comm (va vb : Double) : numbersConflict va vb = numbersConflict vb va := by
  by_cases ha : va = .nan
  · subst ha
    rw [(numbersConflict_nan vb).1, (numbersConflict_nan vb).2]
  by_cases hb : vb = .nan
  · subst hb
    rw [(numbersConflict_nan va).1, (numbersConflict_nan va).2]
  unfold numbersConflict
  rw [Double.eq_comm vb va]
  cases h : va.eq vb with
  | true => rfl
  | false => rw [Double.max_comm ha hb h, Double.min_comm ha hb h]

theorem valuesConflict_comm (a b : Entry) : valuesConflict a b = valuesConflict b a := by
  unfold valuesConflict
  by_cases hunit : a.unitText = b.unitText
  · rw [if_neg (not_not.mpr hunit), if_neg (not_not.mpr hunit.symm)]
    have hvalue : a.value ≠ b.value ↔ b.value ≠ a.value := ne_comm
    cases Double.ofText a.value with
    | none => cases Double.ofText b.value <;> simp [hvalue]
    | some va =>
      cases Double.ofText b.value with
      | none => simp [hvalue]
      | some vb => exact numbersConflict_comm va vb
  · rw [if_pos hunit, if_pos (Ne.symm hunit)]

theorem rangePromotion_eq_none_comm (a b : Entry) :
    rangePromotion a b = none ↔ rangePromotion b a = none := by
  simp only [rangePromotion, Option.or_eq_none_iff, and_comm]

theorem topic_comm (h : sameMetric lower a.metric b.metric) : topic lower a b = topic lower b a := by
  have hmetric : normMetric lower a.metric = normMetric lower b.metric := by
    simp only [sameMetric, Bool.and_eq_true, decide_eq_true_eq] at h
    exact h.2
  simp only [topic, hmetric, Sym2.eq_swap]

theorem Qualifies.symm (h : Qualifies lower entries a b) : Qualifies lower entries b a :=
  ⟨h.right, h.left, h.sections.symm, h.single', h.single, sameMetric_comm _ _ ▸ h.metric,
    differentTableColumn_comm a b ▸ h.columns, (rangePromotion_eq_none_comm a b).mp h.noPromotion,
    valuesConflict_comm a b ▸ h.values⟩

/-! What is found in two entries. -/

theorem judge_eq_some {v : Verdict} : judge lower entries a b = some v ↔
    a.sectionRef ≠ b.sectionRef ∧ ambiguous lower entries (a.slot lower) = false ∧
      ambiguous lower entries (b.slot lower) = false ∧ sameMetric lower a.metric b.metric ∧
      differentTableColumn a b = false ∧
      ((∃ promo, rangePromotion a b = some promo ∧ v = .promoted promo) ∨
        rangePromotion a b = none ∧ valuesConflict a b ∧
          v = .conflict (qualifiersConfirmed a b)) := by
  unfold judge
  by_cases hsec : a.sectionRef = b.sectionRef
  · simp [hsec]
  by_cases hamb : ambiguous lower entries (a.slot lower) || ambiguous lower entries (b.slot lower)
  · have hyes := hamb
    rw [Bool.or_eq_true] at hyes
    rcases hyes with h | h <;> simp [h]
  obtain ⟨hs, hs'⟩ : ambiguous lower entries (a.slot lower) = false ∧
      ambiguous lower entries (b.slot lower) = false := by simpa using hamb
  cases hmetric : sameMetric lower a.metric b.metric with
  | false => simp
  | true =>
    cases hcolumn : differentTableColumn a b with
    | true => simp
    | false =>
      cases hpromo : rangePromotion a b with
      | some promo =>
        have hv : Verdict.promoted promo = v ↔ v = .promoted promo := eq_comm
        simp [hsec, hs, hs', hv]
      | none =>
        cases hvalues : valuesConflict a b with
        | false => simp
        | true =>
          have hv : Verdict.conflict (qualifiersConfirmed a b) = v ↔
            v = .conflict (qualifiersConfirmed a b) := eq_comm
          simp [hsec, hs, hs', hv]

theorem judge_conflict {k : Bool} (ha : a ∈ entries) (hb : b ∈ entries) :
    judge lower entries a b = some (.conflict k) ↔
      Qualifies lower entries a b ∧ k = qualifiersConfirmed a b := by
  rw [judge_eq_some]
  constructor
  · rintro ⟨hsec, hs, hs', hm, hc, ⟨promo, -, hv⟩ | ⟨hp, hval, hv⟩⟩
    · cases hv
    · cases hv
      exact ⟨⟨ha, hb, hsec, hs, hs', hm, hc, hp, hval⟩, rfl⟩
  · rintro ⟨h, rfl⟩
    exact ⟨h.sections, h.single, h.single', h.metric, h.columns, .inr ⟨h.noPromotion, h.values, rfl⟩⟩

/-- The other way round the same is found, with the same weight. -/
theorem judge_comm (lower : Text → Text) (entries : List Entry) (a b : Entry) :
    (judge lower entries b a).map Verdict.severity =
      (judge lower entries a b).map Verdict.severity := by
  have hboth : ∀ a b v, judge lower entries a b = some v →
      ∃ v', judge lower entries b a = some v' ∧ v'.severity = v.severity := by
    intro a b v h
    obtain ⟨hsec, hs, hs', hm, hc, hv⟩ := judge_eq_some.1 h
    have hback : ∀ v', ((∃ promo, rangePromotion b a = some promo ∧ v' = .promoted promo) ∨
        rangePromotion b a = none ∧ valuesConflict b a ∧ v' = .conflict (qualifiersConfirmed b a)) →
          judge lower entries b a = some v' := fun v' hv' =>
      judge_eq_some.2 ⟨hsec.symm, hs', hs, sameMetric_comm _ _ ▸ hm,
        differentTableColumn_comm a b ▸ hc, hv'⟩
    rcases hv with ⟨promo, hp, rfl⟩ | ⟨hp, hval, rfl⟩
    · cases hp' : rangePromotion b a with
      | none =>
        rw [(rangePromotion_eq_none_comm b a).mp hp'] at hp
        cases hp
      | some promo' => exact ⟨.promoted promo', hback _ (.inl ⟨promo', hp', rfl⟩), rfl⟩
    · refine ⟨.conflict (qualifiersConfirmed b a), hback _ (.inr ⟨?_, ?_, rfl⟩), ?_⟩
      · exact (rangePromotion_eq_none_comm a b).mp hp
      · exact valuesConflict_comm a b ▸ hval
      · rw [qualifiersConfirmed_comm]
  cases h : judge lower entries a b with
  | some v =>
    obtain ⟨v', hv', hsame⟩ := hboth a b v h
    simp [hv', hsame]
  | none =>
    cases h' : judge lower entries b a with
    | none => rfl
    | some v =>
      obtain ⟨v', hv', -⟩ := hboth b a v h'
      rw [h] at hv'
      cases hv'

/-! Which values a section gives does not depend on the order of the entries either. -/

theorem ambiguous_iff {slot : Text × Text} : ambiguous lower entries slot = true ↔
    ∃ e ∈ entries, ∃ f ∈ entries, e.slot lower = slot ∧ f.slot lower = slot ∧
      e.value ≠ f.value := by
  rw [ambiguous, decide_eq_true_eq, beq_text, one_lt_length]
  constructor
  · rintro ⟨x, hx, y, hy, hne⟩
    obtain ⟨e, he, rfl⟩ := List.mem_map.mp hx
    obtain ⟨f, hf, rfl⟩ := List.mem_map.mp hy
    obtain ⟨he, hslot⟩ := List.mem_filter.mp he
    obtain ⟨hf, hslot'⟩ := List.mem_filter.mp hf
    exact ⟨e, he, f, hf, by simpa using hslot, by simpa using hslot', hne⟩
  · rintro ⟨e, he, f, hf, hslot, hslot', hne⟩
    exact ⟨e.value, List.mem_map.mpr ⟨e, List.mem_filter.mpr ⟨he, by simpa using hslot⟩, rfl⟩,
      f.value, List.mem_map.mpr ⟨f, List.mem_filter.mpr ⟨hf, by simpa using hslot'⟩, rfl⟩, hne⟩

theorem ambiguous_perm (h : entries'.Perm entries) (slot : Text × Text) :
    ambiguous lower entries' slot = ambiguous lower entries slot := by
  rw [Bool.eq_iff_iff, ambiguous_iff, ambiguous_iff]
  simp only [h.mem_iff]

theorem value_unique (h : ambiguous lower entries (a.slot lower) = false) (ha : a ∈ entries)
    (hb : b ∈ entries) (hslot : b.slot lower = a.slot lower) : b.value = a.value := by
  by_contra hne
  have hyes := ambiguous_iff.2 ⟨b, hb, a, ha, hslot, rfl, hne⟩
  rw [h] at hyes
  cases hyes

theorem judge_perm (h : entries'.Perm entries) (a b : Entry) :
    judge lower entries' a b = judge lower entries a b := by
  unfold judge
  rw [ambiguous_perm h, ambiguous_perm h]

theorem Qualifies.perm (hperm : entries'.Perm entries) (h : Qualifies lower entries' a b) :
    Qualifies lower entries a b :=
  ⟨hperm.subset h.left, hperm.subset h.right, h.sections, ambiguous_perm hperm _ ▸ h.single,
    ambiguous_perm hperm _ ▸ h.single', h.metric, h.columns, h.noPromotion, h.values⟩

/-! The pairs, in whatever order. -/

theorem mem_of_mem_pairs (h : (a, b) ∈ pairs entries) : a ∈ entries ∧ b ∈ entries := by
  induction entries with
  | nil => cases h
  | cons e entries ih =>
    rcases List.mem_append.mp h with h | h
    · obtain ⟨c, hc, heq⟩ := List.mem_map.mp h
      cases heq
      exact ⟨List.mem_cons_self, List.mem_cons_of_mem _ hc⟩
    · exact ⟨List.mem_cons_of_mem _ (ih h).1, List.mem_cons_of_mem _ (ih h).2⟩

theorem mem_pairs_or (ha : a ∈ entries) (hb : b ∈ entries) (hne : a ≠ b) :
    (a, b) ∈ pairs entries ∨ (b, a) ∈ pairs entries := by
  induction entries with
  | nil => cases ha
  | cons e entries ih =>
    rcases List.mem_cons.mp ha with rfl | ha'
    · have hb' : b ∈ entries := (List.mem_cons.mp hb).resolve_left hne.symm
      exact .inl (List.mem_append_left _ (List.mem_map.mpr ⟨b, hb', rfl⟩))
    · rcases List.mem_cons.mp hb with rfl | hb'
      · exact .inr (List.mem_append_left _ (List.mem_map.mpr ⟨a, ha', rfl⟩))
      · exact (ih ha' hb').imp (List.mem_append_right _) (List.mem_append_right _)

/-- What is found in some two entries. -/
def found (lower : Text → Text) (entries : List Entry) : Set (Topic × Severity) :=
  {x | ∃ a ∈ entries, ∃ b ∈ entries, ∃ v, judge lower entries a b = some v ∧
    x = (topic lower a b, v.severity)}

theorem found_perm (h : entries'.Perm entries) : found lower entries' = found lower entries := by
  ext x
  simp only [found, judge_perm h, h.mem_iff]

theorem critical_mem_found {x : Topic} : (x, .critical) ∈ found lower entries ↔
    ∃ a b, Qualifies lower entries a b ∧ qualifiersConfirmed a b ∧ topic lower a b = x := by
  constructor
  · rintro ⟨a, ha, b, hb, v, hv, hx⟩
    obtain ⟨rfl, hcritical⟩ := Prod.mk.inj hx
    cases v with
    | promoted promo => cases hcritical
    | conflict k =>
      obtain ⟨hq, rfl⟩ := (judge_conflict ha hb).mp hv
      refine ⟨a, b, hq, ?_, rfl⟩
      cases hk : qualifiersConfirmed a b with
      | true => rfl
      | false =>
        rw [hk] at hcritical
        cases hcritical
  · rintro ⟨a, b, hq, hk, rfl⟩
    refine ⟨a, hq.left, b, hq.right, .conflict true, ?_, rfl⟩
    exact (judge_conflict hq.left hq.right).mpr ⟨hq, hk.symm⟩

/-! Two reports under one key are about the same. -/

theorem sortedPair_comm (x y : Text) : sortedPair x y = sortedPair y x := by
  unfold sortedPair
  by_cases hxy : x ≤ y
  · by_cases hyx : y ≤ x
    · obtain rfl := le_antisymm hxy hyx
      rfl
    · rw [if_pos hxy, if_neg hyx]
  · rw [if_neg hxy, if_pos (le_of_lt (not_le.mp hxy))]

theorem sortedPair_eq_iff {x y x' y' : Text} :
    sortedPair x y = sortedPair x' y' ↔ s(x, y) = s(x', y') := by
  have hkeep : ∀ x y : Text, s((sortedPair x y).1, (sortedPair x y).2) = s(x, y) := by
    intro x y
    unfold sortedPair
    split
    · rfl
    · exact Sym2.eq_swap
  constructor
  · intro h
    rw [← hkeep x y, h, hkeep]
  · intro h
    rcases Sym2.eq_iff.mp h with ⟨rfl, rfl⟩ | ⟨rfl, rfl⟩
    · rfl
    · exact sortedPair_comm x y

theorem mem_allReports {r : Report} : r ∈ allReports lower entries ↔
    (r.a, r.b) ∈ pairs entries ∧ judge lower entries r.a r.b = some r.verdict := by
  simp only [allReports, List.mem_filterMap, Option.map_eq_some_iff]
  constructor
  · rintro ⟨⟨a, b⟩, hp, v, hv, rfl⟩
    exact ⟨hp, hv⟩
  · rintro ⟨hp, hv⟩
    exact ⟨(r.a, r.b), hp, r.verdict, hv, rfl⟩

theorem topic_of_key {r r' : Report} (hr : r ∈ allReports lower entries)
    (hr' : r' ∈ allReports lower entries) (h : r.key lower = r'.key lower) :
    topic lower r.a r.b = topic lower r'.a r'.b := by
  obtain ⟨hp, hv⟩ := mem_allReports.1 hr
  obtain ⟨hp', hv'⟩ := mem_allReports.1 hr'
  obtain ⟨a, b, v⟩ := r
  obtain ⟨a', b', v'⟩ := r'
  cases v with
  | promoted promo =>
    cases v' with
    | conflict k => cases h
    | promoted promo' =>
      obtain ⟨ha, hb, hm⟩ := ReportKey.promo.inj h
      obtain ⟨-, hs, hs', hsame, -⟩ := judge_eq_some.1 hv
      obtain ⟨-, -, -, hsame', -⟩ := judge_eq_some.1 hv'
      simp only at ha hb hm hs hs' hsame hsame'
      simp only [sameMetric, Bool.and_eq_true, decide_eq_true_eq] at hsame hsame'
      have hslot : a'.slot lower = a.slot lower := by simp [Entry.slot, ha, hm]
      have hslot' : b'.slot lower = b.slot lower := by
        simp [Entry.slot, hb, ← hsame.2, ← hsame'.2, hm]
      have hval : a'.value = a.value :=
        value_unique hs (mem_of_mem_pairs hp).1 (mem_of_mem_pairs hp').1 hslot
      have hval' : b'.value = b.value :=
        value_unique hs' (mem_of_mem_pairs hp).2 (mem_of_mem_pairs hp').2 hslot'
      simp [topic, ha, hb, hm, hval, hval']
  | conflict k =>
    cases v' with
    | promoted promo' => cases h
    | conflict k' =>
      obtain ⟨hsec, hmetric, hval⟩ := ReportKey.conflict.inj h
      simp only [topic, sortedPair_eq_iff.1 hsec, hmetric, sortedPair_eq_iff.1 hval]

theorem Uniform.facts_eq (h : Uniform lower entries) :
    facts lower entries = found lower entries := by
  obtain ⟨fresh, heq, hsub, -, -, hall⟩ :=
    pushNew_spec (Report.key lower) (allReports lower entries) []
  have hreported : reported lower entries = fresh := heq
  ext x
  constructor
  · rintro ⟨r, hr, rfl⟩
    rw [hreported] at hr
    obtain ⟨hp, hv⟩ := mem_allReports.1 (hsub.subset hr)
    exact ⟨r.a, (mem_of_mem_pairs hp).1, r.b, (mem_of_mem_pairs hp).2, r.verdict, hv, rfl⟩
  · rintro ⟨a, ha, b, hb, v, hv, rfl⟩
    have hinv := judge_eq_some.1 hv
    have hne : a ≠ b := fun h => hinv.1 (by rw [h])
    obtain ⟨r, hr, htopic⟩ : ∃ r ∈ allReports lower entries,
        (topic lower r.a r.b, r.verdict.severity) = (topic lower a b, v.severity) := by
      rcases mem_pairs_or ha hb hne with hp | hp
      · exact ⟨⟨a, b, v⟩, mem_allReports.2 ⟨hp, hv⟩, rfl⟩
      · have hcomm := judge_comm lower entries a b
        rw [hv] at hcomm
        obtain ⟨v', hv', hsame⟩ := Option.map_eq_some_iff.mp hcomm
        refine ⟨⟨b, a, v'⟩, mem_allReports.2 ⟨hp, hv'⟩, ?_⟩
        rw [topic_comm hinv.2.2.2.1, hsame]
    obtain ⟨r', hr', hkey⟩ := List.mem_map.mp (hall r hr)
    have hmem' := hsub.subset hr'
    refine ⟨r', hreported ▸ hr', ?_⟩
    have hsame := topic_of_key hmem' hr hkey
    rw [← htopic, ← hsame, Prod.mk.injEq]
    refine ⟨rfl, ?_⟩
    obtain ⟨hp, hv⟩ := mem_allReports.1 hr
    obtain ⟨hp', hv'⟩ := mem_allReports.1 hmem'
    obtain ⟨c, d, w⟩ := r
    obtain ⟨c', d', w'⟩ := r'
    cases w with
    | promoted promo =>
      cases w' with
      | conflict k => cases hkey
      | promoted promo' => rfl
    | conflict k =>
      cases w' with
      | promoted promo' => cases hkey
      | conflict k' =>
        obtain ⟨hq, hk⟩ := (judge_conflict (mem_of_mem_pairs hp).1 (mem_of_mem_pairs hp).2).mp hv
        obtain ⟨hq', hk'⟩ :=
          (judge_conflict (mem_of_mem_pairs hp').1 (mem_of_mem_pairs hp').2).mp hv'
        rw [hk, hk', h _ _ _ _ hq' hq hsame]

/-- What is found in the first two entries is reported, whatever else is found. -/
theorem first_reported {v : Verdict} (h : judge lower (a :: b :: entries) a b = some v) :
    ⟨a, b, v⟩ ∈ reported lower (a :: b :: entries) := by
  obtain ⟨rest, hrest⟩ : ∃ rest, allReports lower (a :: b :: entries) = ⟨a, b, v⟩ :: rest := by
    refine ⟨_, List.filterMap_cons_some ?_⟩
    simp only [h, Option.map_some]
  obtain ⟨fresh, heq, -⟩ := pushNew_spec (Report.key lower) rest [⟨a, b, v⟩]
  rw [reported, hrest]
  have hstart : pushNew (Report.key lower) (⟨a, b, v⟩ :: rest) [] =
      pushNew (Report.key lower) rest [⟨a, b, v⟩] := by
    simp [pushNew]
  rw [hstart, heq]
  exact List.mem_append_left _ List.mem_cons_self

/-- With two conflicts about the same, of which one is confirmed, the reports depend on the order of
the entries or miss the confirmed one. -/
theorem not_faithful (hab : Qualifies lower entries a b) (hcd : Qualifies lower entries c d)
    (htopic : topic lower a b = topic lower c d) (hk : qualifiersConfirmed a b)
    (hk' : qualifiersConfirmed c d = false) : ¬ Faithful lower entries := by
  intro h
  have hne : d ≠ c := fun hdc => hcd.sections (by rw [hdc])
  have hd : d ∈ entries.erase c := (List.mem_erase_of_ne hne).mpr hcd.right
  have hperm : (c :: d :: (entries.erase c).erase d).Perm entries :=
    ((List.perm_cons_erase hd).symm.cons c).trans (List.perm_cons_erase hcd.left).symm
  have hmem := (h.critical (topic lower a b)).mpr ⟨a, b, hab, hk, rfl⟩
  rw [← h.stable _ hperm] at hmem
  obtain ⟨r, hr, hfact⟩ := hmem
  obtain ⟨hsame, hsevere⟩ := Prod.mk.inj hfact
  -- The unconfirmed conflict stands first and holds the key.
  have hfirst : judge lower (c :: d :: (entries.erase c).erase d) c d = some (.conflict false) := by
    rw [judge_perm hperm]
    exact (judge_conflict hcd.left hcd.right).mpr ⟨hcd, hk'.symm⟩
  have hnodup : ((reported lower (c :: d :: (entries.erase c).erase d)).map
      (Report.key lower)).Nodup := nodup_pushNew List.nodup_nil
  obtain ⟨e, f, v⟩ := r
  have hv : v = .conflict true := by
    cases v with
    | promoted promo => cases hsevere
    | conflict k =>
      cases k with
      | true => rfl
      | false => cases hsevere
  subst hv
  have hkey : Report.key lower ⟨e, f, .conflict true⟩ = Report.key lower ⟨c, d, .conflict false⟩ := by
    obtain ⟨hmetric, hrest⟩ := Prod.mk.inj (hsame.symm.trans htopic)
    obtain ⟨hsec, hval⟩ := Prod.mk.inj hrest
    simp only [Report.key, sortedPair_eq_iff.2 hsec, sortedPair_eq_iff.2 hval, hmetric]
  have heq := List.inj_on_of_nodup_map hnodup hr (first_reported hfirst) hkey
  cases heq

/-- The reports are right exactly when no two conflicts about the same differ in whether their
times are confirmed. -/
theorem conflicts_faithful_iff (lower : Text → Text) (entries : List Entry) :
    Faithful lower entries ↔ Uniform lower entries := by
  constructor
  · intro h a b c d hab hcd htopic
    cases hk : qualifiersConfirmed a b with
    | true =>
      cases hk' : qualifiersConfirmed c d with
      | true => rfl
      | false => exact absurd h (not_faithful hab hcd htopic hk hk')
    | false =>
      cases hk' : qualifiersConfirmed c d with
      | false => rfl
      | true => exact absurd h (not_faithful hcd hab htopic.symm hk' hk)
  · intro h
    refine ⟨fun entries' hperm => ?_, fun x => ?_⟩
    · have h' : Uniform lower entries' := fun a b c d hab hcd =>
        h a b c d (hab.perm hperm) (hcd.perm hperm)
      rw [h.facts_eq, h'.facts_eq, found_perm hperm]
    · rw [h.facts_eq, critical_mem_found]

def priceOfYear : Entry :=
  ⟨"탄소가격".toList, "60".toList, some "달러".toList, ⟨some "2030년".toList, none, none, none⟩,
    "3.1".toList, [], .explicit⟩

def priceElsewhere : Entry :=
  ⟨"탄소가격".toList, "55".toList, some "달러".toList, ⟨none, none, none, none⟩, "3.4".toList, [],
    .explicit⟩

def priceElsewhereOfYear : Entry :=
  ⟨"탄소 가격".toList, "55".toList, some "달러".toList, ⟨some "2030년".toList, none, none, none⟩,
    "3.4".toList, [], .explicit⟩

/-- The other section gives its price first without a year and then with it. -/
theorem not_faithful_carbonPrices : ¬ ∀ lower entries, Faithful lower entries := by
  intro h
  have hconfirmed : Qualifies id [priceOfYear, priceElsewhere, priceElsewhereOfYear]
      priceOfYear priceElsewhereOfYear := by
    constructor <;> decide +kernel
  have hunconfirmed : Qualifies id [priceOfYear, priceElsewhere, priceElsewhereOfYear]
      priceOfYear priceElsewhere := by
    constructor <;> decide +kernel
  have htopic : topic id priceOfYear priceElsewhereOfYear = topic id priceOfYear priceElsewhere := by
    decide
  exact not_faithful hconfirmed hunconfirmed htopic (by decide) (by decide) (h id _)

end RownRg.Ledger

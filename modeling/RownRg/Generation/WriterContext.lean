import RownRg.Core.SectionPlan
import RownRg.Lib.Decimal
import Mathlib.Data.List.Basic

/-! What the writer of a section is told, and the length its drafts are held to. -/

open PyText

namespace RownRg.Generation

/-- `DEFAULT_MIN_CHARS` of the gate -/
def defaultMinChars : Nat := 200

/-- `DEFAULT_MAX_CHARS` of the gate -/
def defaultMaxChars : Nat := 4000

def defaultMaxTokens : Nat := 2048

/-- `CHARS_PER_PAGE` -/
def charsPerPage : Nat := 1500

/-- `CHARS_PER_EVIDENCE` -/
def charsPerEvidence : Nat := 750

/-- `MIN_SCALED_CHARS` -/
def minScaledChars : Nat := 1500

structure VolumeTarget where
  minChars : Nat
  maxChars : Nat
  deriving DecidableEq

structure AnalystSpec where
  name : Text
  prompt : Text
  volumeTarget : Option VolumeTarget
  deriving DecidableEq

structure WriterContext where
  system : Text
  guidance : Text
  maxTokens : Nat
  minChars : Option Nat
  maxChars : Option Nat
  volumeDefaulted : Bool
  deriving DecidableEq

/-- The files and settings the module reads. -/
structure WriterFiles where
  analyst : Text → Option AnalystSpec
  defaultRules : List Text
  writeMaxTokens : Nat

def baseSystem : Text :=
  ("너는 (주)로운인사이트의 정부·공공·R&D 기획 보고서의 한 섹션을 작성하는 전문 작성자다. " ++
    "무관용 사실 원칙을 지켜라: 반드시 제공된 근거 자료만 사용하고, 모든 데이터·수치·고유명사·" ++
    "주장의 끝에 근거를 (출처 번호)로 표기하라. 근거에 없는 내용은 절대 지어내지 마라(환각 금지). " ++
    "신뢰할 근거를 찾을 수 없으면 그럴듯하게 채우지 말고, 해당 항목을 생략하거나 한계를 명시하라.").toList

def volumePrefix : Text := "목표 분량:".toList

def condenseHint : Text :=
  ("이 절은 분량을 눌러 놓은 자리다. 앞 절들의 서술을 다시 늘어놓지 말고 " ++
    "판단·함의로 좁혀라 — 중요한 것만 남기고 근거는 핵심 수치 위주로 인용하라.").toList

def scarcityGuard : Text :=
  ("이 절은 확보된 근거 자료가 적다. 분량을 맞추려고 근거에 없는 수치·연도·기관명·" ++
    "사업명을 만들어 넣지 마라. 확보된 사실만으로 쓰고 그만큼에서 끝내라 — 짧은 절은 " ++
    "결함이 아니지만 지어낸 수치는 치명적 결함이다. " ++
    "단, 자료가 부족하다는 사실 자체는 본문에 쓰지 마라('자료 한계', '확보되지 않아' 같은 " ++
    "메타 서술 금지) — 보고서 본문은 결과만 담고, 부족 여부는 시스템이 따로 표시한다.").toList

def overviewRule : Text :=
  ("이 절은 '개요'다 — 장 전체를 조감하고 뒤 절들이 무엇을 다루는지 안내하는 역할만 한다. " ++
    "세부 통계의 나열, 상세 표, 개별 수치 분석은 뒤 절의 몫이므로 여기 쓰지 마라. " ++
    "꼭 필요한 대표 수치는 3~4개 이내로 제한하고, 뒤 절에 실릴 표를 미리 만들지 마라.").toList

/-- A number with a comma before every third digit from the right. -/
def grouped (n : Nat) : Text :=
  (List.intercalate [','] ((ofNat n).reverse.toChunks 3)).reverse

/-- An option that counts as given; zero does not. -/
def given (n : Option Nat) : Option Nat := n.filter (· ≠ 0)

/-- `_volume_line`; empty where a bound is missing. -/
def volumeLine (minChars maxChars : Option Nat) : Text :=
  match given minChars, given maxChars with
  | some lo, some hi =>
    volumePrefix ++ ' ' :: grouped lo ++ '~' :: grouped hi ++ "자 (A4 ".toList ++
      ofNat (max 1 (lo / charsPerPage)) ++ '~' :: ofNat (max 1 (hi / charsPerPage)) ++
      "페이지). 이 범위를 채우되, 근거 없는 서술로 늘리지 마라.".toList
  | _, _ => []

/-- `_rule_block` -/
def ruleBlock (files : WriterFiles) (rules : List Text) : Text :=
  joinWith "\n\n".toList (if rules = [] then files.defaultRules else rules)

/-- `_resolve` -/
def resolve (files : WriterFiles) (catalog : List (Text × AnalystSpec)) (name : Text) :
    Option AnalystSpec :=
  (catalog.lookup name).or (files.analyst name)

/-- The personas: one as it is, several under a line that names them all. -/
def personas : List AnalystSpec → List Text
  | [] => []
  | [spec] => [spec.prompt]
  | specs =>
    ("이 절은 다음 ".toList ++ ofNat specs.length ++ "개 관점을 모두 반영해 작성한다: ".toList ++
      joinWith " · ".toList (specs.map (·.name)) ++ (".\n" ++
        "각 관점을 별도 대주제로 나눠 다루되, 같은 사실을 관점만 바꿔 반복하지 마라.").toList) ::
      specs.map (·.prompt)

/-- The lines about the content: overview, direction, key points. -/
def contentGuidance (plan : SectionPlan) : List Text :=
  (if contains "개요".toList plan.title then [overviewRule] else []) ++
  (if plan.direction = [] then [] else ["작성 방향: ".toList ++ plan.direction]) ++
  if plan.keyPoints = [] then [] else
    ["반드시 다룰 핵심 포인트 — 항목마다 대응하는 소제목이나 문단이 있어야 한다:\n".toList ++
      joinWith ['\n'] (plan.keyPoints.map fun k => '-' :: ' ' :: k) ++
      ("\n근거 자료에서 해당 내용을 찾을 수 없는 항목만 본문 말미에 " ++
        "\"(다음 항목은 확보된 자료에 관련 내용이 없어 다루지 못함: …)\" 한 줄로 밝혀라. " ++
        "관련 근거가 있는 항목을 빠뜨리는 것은 허용되지 않는다.").toList]

/-- The targets of the analysts that are assigned and known. -/
def assignedVolumes (files : WriterFiles) (catalog : List (Text × AnalystSpec))
    (plan : SectionPlan) : List VolumeTarget :=
  (plan.analysts.filterMap (resolve files catalog)).filterMap (·.volumeTarget)

/-- The bounds before the defaults: the section's own, else the largest of the analysts'. -/
def chosenMin (plan : SectionPlan) (volumes : List VolumeTarget) : Option Nat :=
  (given plan.minChars).or (volumes.map (·.minChars)).max?

def chosenMax (plan : SectionPlan) (volumes : List VolumeTarget) : Option Nat :=
  (given plan.maxChars).or (volumes.map (·.maxChars)).max?

/-- `build_writer_context`; no catalog and no rules are the empty ones. -/
def buildWriterContext (files : WriterFiles) (plan : SectionPlan)
    (catalog : List (Text × AnalystSpec)) (rules : List Text) : WriterContext :=
  let specs := plan.analysts.filterMap (resolve files catalog)
  let volumes := assignedVolumes files catalog plan
  let volumeDefaulted := chosenMin plan volumes = none ∧ chosenMax plan volumes = none
  let minChars :=
    if volumeDefaulted then some defaultMinChars else chosenMin plan volumes
  let maxChars :=
    if volumeDefaulted then some defaultMaxChars else chosenMax plan volumes
  let line := volumeLine minChars maxChars
  { system := joinWith "\n\n".toList ([baseSystem] ++ personas specs ++ [ruleBlock files rules])
    guidance := joinWith "\n\n".toList (contentGuidance plan ++
      if line = [] then []
      else if (given plan.maxChars).isSome then [line ++ ' ' :: condenseHint] else [line])
    maxTokens := match given maxChars with
      | some hi => max defaultMaxTokens (min hi files.writeMaxTokens)
      | none => defaultMaxTokens
    minChars
    maxChars
    volumeDefaulted }

/-- `scale_for_evidence` -/
def scaleForEvidence (ctx : WriterContext) (nEvidence : Nat) : WriterContext :=
  match ctx.minChars with
  | none => ctx
  | some lo =>
    let cap := max minScaledChars (nEvidence * charsPerEvidence)
    if lo ≤ cap then ctx
    else
      let kept := (splitText "\n\n".toList ctx.guidance).filter fun ln =>
        !volumePrefix.isPrefixOf ln
      let line := volumeLine (some cap) (some (max cap ((given ctx.maxChars).getD cap)))
      { ctx with
        guidance := joinWith "\n\n".toList
          ((kept ++ [line, scarcityGuard]).filter fun x => x ≠ [])
        minChars := some cap }

namespace WriterContext

/-- The bounds the write loop hands to the gate. -/
def gateMin (ctx : WriterContext) : Nat := ctx.minChars.getD defaultMinChars

def gateMax (ctx : WriterContext) : Nat := ctx.maxChars.getD defaultMaxChars

/-- Some length lies within the bounds. -/
def HasWindow (ctx : WriterContext) : Prop := ctx.gateMin ≤ ctx.gateMax

instance instDecidableHasWindow (ctx : WriterContext) : Decidable ctx.HasWindow :=
  inferInstanceAs (Decidable (_ ≤ _))

end WriterContext

variable {files : WriterFiles} {plan : SectionPlan} {catalog : List (Text × AnalystSpec)}
  {rules : List Text} {volumes : List VolumeTarget} {ctx : WriterContext} {n lo hi : Nat}

theorem gateMin_buildWriterContext :
    (buildWriterContext files plan catalog rules).gateMin =
      (chosenMin plan (assignedVolumes files catalog plan)).getD defaultMinChars := by
  simp only [buildWriterContext, WriterContext.gateMin]
  split
  · rename_i h
    rw [h.1]
    rfl
  · rfl

theorem gateMax_buildWriterContext :
    (buildWriterContext files plan catalog rules).gateMax =
      (chosenMax plan (assignedVolumes files catalog plan)).getD defaultMaxChars := by
  simp only [buildWriterContext, WriterContext.gateMax]
  split
  · rename_i h
    rw [h.2]
    rfl
  · rfl

theorem gateMax_scaleForEvidence : (scaleForEvidence ctx n).gateMax = ctx.gateMax := by
  unfold scaleForEvidence
  split
  · rfl
  · rename_i lo hlo
    by_cases hcap : lo ≤ max minScaledChars (n * charsPerEvidence)
    · rw [if_pos hcap]
    · rw [if_neg hcap]
      rfl

theorem gateMin_scaleForEvidence : (scaleForEvidence ctx n).gateMin ≤ ctx.gateMin := by
  unfold scaleForEvidence
  split
  · exact Nat.le_refl _
  · rename_i lo hlo
    by_cases hcap : lo ≤ max minScaledChars (n * charsPerEvidence)
    · rw [if_pos hcap]
    · rw [if_neg hcap]
      simp only [WriterContext.gateMin, hlo, Option.getD_some]
      omega

theorem hasWindow_scaleForEvidence (h : ctx.HasWindow) : (scaleForEvidence ctx n).HasWindow := by
  have hmin : (scaleForEvidence ctx n).gateMin ≤ ctx.gateMin := gateMin_scaleForEvidence
  have hmax : (scaleForEvidence ctx n).gateMax = ctx.gateMax := gateMax_scaleForEvidence
  unfold WriterContext.HasWindow at h ⊢
  omega

/-- What the values of a section must satisfy next to the targets of its analysts. -/
def Consistent (plan : SectionPlan) (volumes : List VolumeTarget) : Prop :=
  match given plan.minChars, given plan.maxChars with
  | some lo, some hi => lo ≤ hi
  | some lo, none =>
    if volumes = [] then lo ≤ defaultMaxChars else ∃ v ∈ volumes, lo ≤ v.maxChars
  | none, some hi =>
    if volumes = [] then defaultMinChars ≤ hi else ∀ v ∈ volumes, v.minChars ≤ hi
  | none, none => True

theorem le_maxChars_iff (hne : volumes ≠ []) :
    lo ≤ ((volumes.map (·.maxChars)).max?).getD defaultMaxChars ↔ ∃ v ∈ volumes, lo ≤ v.maxChars := by
  obtain ⟨hi, hhi⟩ : ∃ hi, (volumes.map (·.maxChars)).max? = some hi := by
    cases h : (volumes.map (·.maxChars)).max? with
    | none => simp_all
    | some hi => exact ⟨hi, rfl⟩
  obtain ⟨hmem, hle⟩ := List.max?_eq_some_iff.mp hhi
  rw [hhi, Option.getD_some]
  constructor
  · intro h
    obtain ⟨v, hv, rfl⟩ := List.mem_map.mp hmem
    exact ⟨v, hv, h⟩
  · rintro ⟨v, hv, h⟩
    exact Nat.le_trans h (hle _ (List.mem_map_of_mem hv))

theorem minChars_le_iff (hne : volumes ≠ []) :
    ((volumes.map (·.minChars)).max?).getD defaultMinChars ≤ hi ↔ ∀ v ∈ volumes, v.minChars ≤ hi := by
  obtain ⟨lo, hlo⟩ : ∃ lo, (volumes.map (·.minChars)).max? = some lo := by
    cases h : (volumes.map (·.minChars)).max? with
    | none => simp_all
    | some lo => exact ⟨lo, rfl⟩
  rw [hlo, Option.getD_some, List.max?_le_iff hlo]
  exact List.forall_mem_map

/-- The targets of analysts never clash among themselves: the one that sets the minimum has a
maximum above it. -/
theorem volumes_le (h : ∀ v ∈ volumes, v.minChars ≤ v.maxChars) :
    ((volumes.map (·.minChars)).max?).getD defaultMinChars ≤
      ((volumes.map (·.maxChars)).max?).getD defaultMaxChars := by
  by_cases hne : volumes = []
  · subst hne
    decide
  · refine (minChars_le_iff hne).2 fun v hv => (le_maxChars_iff hne).2 ⟨v, hv, h v hv⟩

theorem consistent_iff (h : ∀ v ∈ volumes, v.minChars ≤ v.maxChars) :
    (chosenMin plan volumes).getD defaultMinChars ≤ (chosenMax plan volumes).getD defaultMaxChars ↔
      Consistent plan volumes := by
  unfold chosenMin chosenMax Consistent
  cases given plan.minChars with
  | some lo =>
    cases given plan.maxChars with
    | some hi => simp
    | none =>
      by_cases hne : volumes = []
      · simp [hne]
      · simp only [Option.some_or, Option.none_or, Option.getD_some, if_neg hne]
        exact le_maxChars_iff hne
  | none =>
    cases given plan.maxChars with
    | some hi =>
      by_cases hne : volumes = []
      · simp [hne]
      · simp only [Option.some_or, Option.none_or, Option.getD_some, if_neg hne]
        exact minChars_le_iff hne
    | none =>
      simp only [Option.none_or, iff_true]
      exact volumes_le h

/-- The writer has a length it can meet, whatever evidence there is, exactly where the section's
own values fit the targets of its analysts. -/
theorem window_iff (files : WriterFiles) (plan : SectionPlan) (catalog : List (Text × AnalystSpec))
    (rules : List Text)
    (htargets : ∀ v ∈ assignedVolumes files catalog plan, v.minChars ≤ v.maxChars) :
    ((buildWriterContext files plan catalog rules).HasWindow ∧
      ∀ n, (scaleForEvidence (buildWriterContext files plan catalog rules) n).HasWindow ∧
        (scaleForEvidence (buildWriterContext files plan catalog rules) n).gateMin ≤
          (buildWriterContext files plan catalog rules).gateMin) ↔
      Consistent plan (assignedVolumes files catalog plan) := by
  have hbuilt : (buildWriterContext files plan catalog rules).HasWindow ↔
      Consistent plan (assignedVolumes files catalog plan) := by
    unfold WriterContext.HasWindow
    rw [gateMin_buildWriterContext, gateMax_buildWriterContext]
    exact consistent_iff htargets
  constructor
  · intro h
    exact hbuilt.mp h.1
  · intro h
    have hwindow := hbuilt.mpr h
    exact ⟨hwindow, fun n => ⟨hasWindow_scaleForEvidence hwindow, gateMin_scaleForEvidence⟩⟩

/-- A section that asks for so many characters at least, with one analyst whose target is 1000
to 2000. -/
def sectionFrom (minChars : Option Nat) : SectionPlan where
  sectionId := ⟨"000000000000000000000000000000f1".toList, by decide, by decide⟩
  chapterNumber := 1
  sectionNumber := 1
  title := "t".toList
  chapterTitle := []
  direction := []
  keyPoints := []
  analysts := ["brief".toList]
  searchQueries := []
  buildsOn := []
  minChars
  maxChars := none

def briefCatalog : List (Text × AnalystSpec) :=
  [("brief".toList, ⟨"brief".toList, "p".toList, some ⟨1000, 2000⟩⟩)]

def noFiles : WriterFiles := ⟨fun _ => none, [], 24000⟩

theorem window_iff_brief :
    (buildWriterContext noFiles (sectionFrom none) briefCatalog []).HasWindow :=
  ((window_iff noFiles (sectionFrom none) briefCatalog [] (by decide)).2 trivial).1

/-- A section that asks for 5000 characters next to a target of at most 2000. -/
theorem no_window :
    ¬ ∀ (files : WriterFiles) (plan : SectionPlan) (catalog : List (Text × AnalystSpec))
      (rules : List Text),
      (∀ v ∈ assignedVolumes files catalog plan, v.minChars ≤ v.maxChars) →
      (buildWriterContext files plan catalog rules).HasWindow := by
  intro h
  have hwindow := h noFiles (sectionFrom (some 5000)) briefCatalog [] (by decide)
  have hclosed : ¬ (buildWriterContext noFiles (sectionFrom (some 5000)) briefCatalog []).HasWindow := by
    decide
  exact hclosed hwindow

end RownRg.Generation

import Mathlib.Data.List.Infix
import RownRg.Web.OutlineEditor

/-! What the form finds in a draft outline before it is submitted. -/

open PyText

namespace RownRg.Web

/-- `LIMITS` -/
structure Limits where
  chapterTitle : Nat
  sectionTitle : Nat
  sections : Nat
  refsPerSection : Nat

def limits : Limits := ⟨255, 255, 40, 2⟩

def maxAgentsPerSection : Nat := 5

def agentsWarnThreshold : Nat := 3

inductive OutlineField where
  | chapterTitle
  | sectionTitle
  | direction
  | keyPoints
  | analysts
  | buildsOn
  deriving DecidableEq

inductive IssueLevel where
  | blocker
  | warning
  deriving DecidableEq

/-- No section index stands for the chapter itself. -/
structure IssueTarget where
  chapterIndex : Nat
  sectionIndex : Option Nat
  field : OutlineField
  deriving DecidableEq

structure FormIssue where
  id : Text
  kind : Text
  level : IssueLevel
  place : Text
  message : Text
  target : IssueTarget
  paint : Bool
  deriving DecidableEq

/-- `section.title.trim()` is not empty: the section is submitted. -/
def titled (s : DraftSection) : Bool := !(Script.trim s.title).isEmpty

def titledSections (ch : DraftChapter) : List DraftSection := ch.sections.filter titled

def countSubmittedSections (d : Draft) : Nat := (d.map fun ch => (titledSections ch).length).sum

/-- What is left after submission, by the numbers of the editor; `shifted` if those change. -/
structure Surviving where
  labels : List Text
  chapters : List Nat
  shifted : Bool
  cleanCi : Nat

def surviveSections (ci : Nat) : List (DraftSection × Nat) → Nat → Surviving → Surviving
  | [], _, st => st
  | (s, si) :: ss, cleanSi, st =>
    if titled s then
      surviveSections ci ss (cleanSi + 1) { st with
        labels := st.labels ++ [BuildsOn.sectionLabel (ci + 1) (si + 1)]
        shifted := st.shifted || cleanSi + 1 != si + 1 }
    else surviveSections ci ss cleanSi st

def surviveChapters : List (DraftChapter × Nat) → Surviving → Surviving
  | [], st => st
  | (ch, ci) :: chs, st =>
    if (titledSections ch).isEmpty then surviveChapters chs st
    else
      surviveChapters chs (surviveSections ci ch.sections.zipIdx 0 { st with
        cleanCi := st.cleanCi + 1
        chapters := st.chapters ++ [ci + 1]
        shifted := st.shifted || st.cleanCi + 1 != ci + 1 })

def surviving (d : Draft) : Surviving := surviveChapters d.zipIdx ⟨[], [], false, 0⟩

/-- `sec-${ci}-${si}` and what follows. -/
def sectionIssueId (ci si : Nat) (rest : String) : Text :=
  "sec-".toList ++ ofNat ci ++ '-' :: (ofNat si ++ rest.toList)

def sectionPlace (ci si : Nat) : Text := BuildsOn.sectionLabel (ci + 1) (si + 1) ++ ['절']

def chapterPlace (ci : Nat) : Text := ofNat (ci + 1) ++ ['장']

/-- An issue of one section. -/
def sectionIssue (ci si : Nat) (kind : String) (level : IssueLevel) (message : Text)
    (field : OutlineField) : FormIssue where
  id := sectionIssueId ci si ("-" ++ kind)
  kind := "sec-".toList ++ kind.toList
  level := level
  place := sectionPlace ci si
  message := message
  target := ⟨ci, some si, field⟩
  paint := true

/-- An issue of one reference; its id ends with the reference. -/
def refIssue (ci si : Nat) (kind : String) (raw message : Text) : FormIssue :=
  { sectionIssue ci si kind .blocker message .buildsOn with
    id := sectionIssueId ci si ("-" ++ kind ++ "-") ++ raw }

/-- The key under which a reference is counted, or what is wrong with it. -/
def refKey (st : Surviving) (ci si : Nat) (raw : Text) : Except FormIssue Text :=
  match refRe.matchStart raw with
  | none => .error (refIssue ci si "ref-bad" raw ("이어받기 표기를 읽을 수 없습니다: ".toList ++ raw ++
      ". 절 번호로 적으세요(예: 4.1, 4.1(총사업비), 4.*).".toList))
  | some m =>
    let chapterNo := natOf ((m.group .chapter).getD [])
    let part := (m.group .section).getD []
    let refLabel := ofNat chapterNo ++ '.' :: part
    if part = ['*'] then
      if chapterNo ∈ st.chapters then .ok ('c' :: ofNat chapterNo)
      else .error (refIssue ci si "ref-noch" raw ("이어받기가 없는 장을 가리킵니다: ".toList ++ refLabel))
    else if refLabel = BuildsOn.sectionLabel (ci + 1) (si + 1) then
      .error (sectionIssue ci si "ref-self" .blocker "이어받기가 자기 자신을 가리킵니다.".toList .buildsOn)
    else if refLabel ∈ st.labels then .ok refLabel
    else .error (refIssue ci si "ref-nosec" raw ("이어받기가 없는 절을 가리킵니다: ".toList ++ refLabel))

def tooManyRefs (ci si : Nat) : FormIssue :=
  sectionIssue ci si "ref-many" .blocker ("이어받기는 절당 ".toList ++ ofNat limits.refsPerSection ++
    "개까지입니다. 더 필요하면 장 전체(".toList ++ BuildsOn.chapterLabel (ci + 1) ++ ")로 적으세요.".toList)
    .buildsOn

/-- The loop over the references of one section. -/
def refIssues (key : Text → Except FormIssue Text) (many : FormIssue) :
    List Text → List Text → List FormIssue
  | _, [] => []
  | accepted, raw :: raws =>
    match key raw with
    | .error issue => issue :: refIssues key many accepted raws
    | .ok k =>
      if k ∈ accepted then refIssues key many accepted raws
      else if accepted.length + 1 > limits.refsPerSection then [many]
      else refIssues key many (accepted ++ [k]) raws

/-- The texts that are not blank, trimmed. -/
def trimmed (texts : List Text) : List Text := (texts.map Script.trim).filter fun t => !t.isEmpty

def hasContent (s : DraftSection) : Bool :=
  !(Script.trim s.direction).isEmpty || s.keyPoints.any (fun k => !(Script.trim k).isEmpty) ||
    !s.analysts.isEmpty || !s.buildsOn.isEmpty

/-- What goes into the list of issues for a section with a title. -/
def sectionIssues (st : Surviving) (ci si : Nat) (s : DraftSection) : List FormIssue :=
  if titled s then
    (if Script.length (Script.trim s.title) > limits.sectionTitle then
      [sectionIssue ci si "title-long" .blocker
        ("절 제목이 ".toList ++ ofNat limits.sectionTitle ++ "자를 넘습니다.".toList) .sectionTitle]
    else []) ++
    (if (trimmed s.keyPoints).isEmpty then
      [sectionIssue ci si "no-key-points" .blocker
        ("핵심 포인트가 없습니다. 반드시 다룰 항목을 1개 이상 적으세요".toList ++
          "(항목마다 자료 검색이 한 번씩 돕니다).".toList) .keyPoints]
    else []) ++
    (if s.analysts.length > maxAgentsPerSection then
      [sectionIssue ci si "too-many-analysts" .blocker
        ("담당 에이전트를 ".toList ++ ofNat s.analysts.length ++ "명 골랐습니다. 절당 ".toList ++
          ofNat maxAgentsPerSection ++ "명까지만 저장되니 줄여 주세요.".toList) .analysts]
    else if s.analysts.length > agentsWarnThreshold then
      [sectionIssue ci si "many-analysts" .warning
        ("담당 에이전트 ".toList ++ ofNat s.analysts.length ++
          "명 - 검색을 여러 번 하게 되어 이 절의 비용이 늘어납니다(1명 늘 때마다 50~70%). ".toList ++
          "분량이 특히 중요한 절이 아니면 2~".toList ++ ofNat agentsWarnThreshold ++
          "명을 권장합니다.".toList) .analysts]
    else []) ++
    refIssues (refKey st ci si) (tooManyRefs ci si) [] (trimmed s.buildsOn)
  else []

def untitledIssue (total ci si : Nat) (s : DraftSection) : List FormIssue :=
  if titled s then []
  else if hasContent s then
    [{ sectionIssue ci si "untitled-content" .blocker
        ("내용은 적었는데 절 제목이 없습니다. 이대로 만들면 이 절이 통째로 ".toList ++
          "사라집니다.".toList) .sectionTitle with id := sectionIssueId ci si "-untitled" }]
  else if total = 0 then []
  else
    [sectionIssue ci si "untitled" .warning
      "절 제목이 비어 있어 저장할 때 이 줄은 사라집니다.".toList .sectionTitle]

def blankPointsIssue (ci si : Nat) (s : DraftSection) : List FormIssue :=
  if titled s ∧ trimmed s.keyPoints ≠ [] ∧ (trimmed s.keyPoints).length < s.keyPoints.length then
    [sectionIssue ci si "blank-key-points" .warning
      ("핵심 포인트에 빈 줄이 ".toList ++
        ofNat (s.keyPoints.length - (trimmed s.keyPoints).length) ++
        "개 있습니다. 저장할 때 사라집니다.".toList) .keyPoints]
  else []

def noDirectionIssue (ci si : Nat) (s : DraftSection) : List FormIssue :=
  if titled s ∧ Script.trim s.direction = [] then
    [sectionIssue ci si "no-direction" .warning
      "작성 방향이 비어 있어 절 제목만 보고 쓰게 됩니다.".toList .direction]
  else []

def noAnalystIssue (ci si : Nat) (s : DraftSection) : List FormIssue :=
  if titled s ∧ s.analysts = [] then
    [sectionIssue ci si "no-analyst" .warning
      ("담당 에이전트가 없습니다. 관점과 목표 분량 없이 기본 규칙만 적용되어 절이 ".toList ++
        "짧아집니다.".toList) .analysts]
  else []

/-- An issue of one chapter. -/
def chapterIssue (ci : Nat) (kind : String) (level : IssueLevel) (message : Text)
    (sectionIndex : Option Nat) (field : OutlineField) : FormIssue where
  id := "ch-".toList ++ ofNat ci ++ '-' :: kind.toList
  kind := "ch-".toList ++ kind.toList
  level := level
  place := chapterPlace ci
  message := message
  target := ⟨ci, sectionIndex, field⟩
  paint := true

def chapterTitleIssue (ci : Nat) (ch : DraftChapter) : List FormIssue :=
  if Script.length (Script.trim ch.title) > limits.chapterTitle then
    [chapterIssue ci "title-long" .blocker
      ("장 제목이 ".toList ++ ofNat limits.chapterTitle ++ "자를 넘습니다.".toList) none .chapterTitle]
  else []

def emptyChapterTitleIssue (ci : Nat) (ch : DraftChapter) : List FormIssue :=
  if Script.length (Script.trim ch.title) ≤ limits.chapterTitle ∧ Script.trim ch.title = [] ∧
      titledSections ch ≠ [] then
    [chapterIssue ci "title-empty" .warning
      "장 제목이 비어 있어 절 제목만으로 자료를 찾게 됩니다.".toList none .chapterTitle]
  else []

def droppedChapterIssue (chapters ci : Nat) (ch : DraftChapter) : List FormIssue :=
  if titledSections ch = [] ∧ chapters > 1 then
    [chapterIssue ci "dropped" .warning
      "제목이 있는 절이 없어 이 장은 저장되지 않습니다.".toList (some 0) .sectionTitle]
  else []

/-- Over all sections, in order. -/
def eachSection (d : Draft) (f : Nat → Nat → DraftSection → List FormIssue) : List FormIssue :=
  d.zipIdx.flatMap fun x => x.1.sections.zipIdx.flatMap fun y => f x.2 y.2 y.1

def eachChapter (d : Draft) (f : Nat → DraftChapter → List FormIssue) : List FormIssue :=
  d.zipIdx.flatMap fun x => f x.2 x.1

/-- The number of sections to be submitted. -/
def sizeIssue (d : Draft) : List FormIssue :=
  let total := countSubmittedSections d
  if total = 0 then
    [{ id := "outline-empty".toList
       kind := "outline-empty".toList
       level := .blocker
       place := "목차".toList
       message := "제목이 있는 절이 하나도 없습니다. 장·절을 1개 이상 만들어야 시작합니다.".toList
       target := ⟨0, some 0, .sectionTitle⟩
       paint := false }]
  else if total > limits.sections then
    [{ id := "outline-too-large".toList
       kind := "outline-too-large".toList
       level := .blocker
       place := "목차".toList
       message := "절이 ".toList ++ ofNat total ++ "개입니다. 최대 ".toList ++ ofNat limits.sections ++
         "개까지만 만들 수 있습니다.".toList
       target := ⟨d.length - 1, none, .chapterTitle⟩
       paint := false }]
  else []

def usesRefs (d : Draft) : Bool := d.any fun ch => ch.sections.any fun s => !s.buildsOn.isEmpty

def renumberIssue (d : Draft) : List FormIssue :=
  if (surviving d).shifted && usesRefs d then
    [{ id := "outline-renumber".toList
       kind := "outline-renumber".toList
       level := .blocker
       place := "목차".toList
       message := "저장할 때 사라지는 줄(제목 없는 절·빈 장) 때문에 절 번호가 당겨집니다. ".toList ++
         "이어받기가 다른 절을 가리키게 되니 제목을 채우거나 그 줄을 지우세요.".toList
       target := ⟨0, some 0, .sectionTitle⟩
       paint := false }]
  else []

/-- The query of a section; `lower` is `toLowerCase`. -/
def effectiveSearchQuery (lower : Text → Text) (chapterTitle sectionTitle : Text) : Text :=
  let title := Script.trim sectionTitle
  let chapter := Script.trim chapterTitle
  if title.isEmpty then []
  else if chapter ≠ [] ∧ ¬ lower chapter <:+: lower title then chapter ++ ' ' :: title
  else title

/-- Sections by query, of each query that two or more have: the indices of chapter and section. -/
def duplicateQueryGroups (lower : Text → Text) (d : Draft) : List (Text × List (Nat × Nat)) :=
  let entries := d.zipIdx.flatMap fun x => (x.1.sections.zipIdx.map fun y =>
    (effectiveSearchQuery lower x.1.title y.1.title, (x.2, y.2))).filter fun e => !e.1.isEmpty
  let groups := (entries.map (·.1)).eraseDups.map fun q =>
    (q, (entries.filter fun e => e.1 = q).map (·.2))
  groups.filter fun g => g.2.length > 1

def duplicateIssue (group : Text × List (Nat × Nat)) : FormIssue where
  id := "dup-".toList ++ group.1
  kind := "dup-".toList ++ group.1
  level := .warning
  place := joinWith " · ".toList (group.2.map fun s => sectionPlace s.1 s.2)
  message := "검색 질의가 같아서(".toList ++ group.1 ++ ") 이 절들이 같은 자료를 인용하게 됩니다.".toList
  target := ⟨(group.2.headD (0, 0)).1, some (group.2.headD (0, 0)).2, .sectionTitle⟩
  paint := true

/-- What blocks the submission comes first. -/
def collectOutlineIssues (lower : Text → Text) (d : Draft) : List FormIssue :=
  let total := countSubmittedSections d
  let issues := sizeIssue d ++
    (d.zipIdx.flatMap fun x => chapterTitleIssue x.2 x.1 ++
      x.1.sections.zipIdx.flatMap fun y => sectionIssues (surviving d) x.2 y.2 y.1) ++
    renumberIssue d ++ (duplicateQueryGroups lower d).map duplicateIssue
  let ordered := issues ++ eachSection d (untitledIssue total) ++
    eachChapter d (droppedChapterIssue d.length) ++ eachChapter d emptyChapterTitleIssue ++
    eachSection d blankPointsIssue ++ eachSection d noDirectionIssue ++ eachSection d noAnalystIssue
  (ordered.filter fun i => i.level = .blocker) ++ ordered.filter fun i => i.level = .warning

end RownRg.Web

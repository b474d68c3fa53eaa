import RownRg.Core.IdTokens
import RownRg.Core.State
import RownRg.Lib.Json

/-! The outline: stable ids for its chapters and sections, and references kept as ids. -/

open PyText

namespace RownRg.Outlines

open RownRg.BuildsOn

/-- `MAX_AGENTS_PER_SECTION` -/
def maxAgentsPerSection : Nat := 5

/-- A length in characters as it was entered. -/
structure Volume where
  minChars : Json
  maxChars : Json

/-- A section of the outline; the id may be missing or anything. -/
structure OutlineSection where
  id : Option Text
  title : Text
  direction : Text
  keyPoints : List Text
  analysts : List Text
  buildsOn : List Text
  volume : Volume
  volumeTarget : Option Volume

structure OutlineChapter where
  id : Option Text
  title : Text
  sections : List OutlineSection

abbrev Outline := List OutlineChapter

/-- The canonical spelling of an id, if it is one. -/
def validId (raw : Option Text) : Option Text := (raw.bind Uuid.parse).map Uuid.str

/-- The ids that were given out, the ids that were replaced, and how many new ones were drawn. -/
structure ClaimState where
  seen : List Text
  remap : List (Text × Text)
  used : Nat

/-- The id of one item. `fresh` are the ids that `uuid4` draws; `renew` draws one for every item. -/
def claim (fresh : Nat → Uuid) (renew : Bool) (st : ClaimState) (raw : Option Text) :
    Text × ClaimState :=
  let issued := (fresh st.used).str
  match validId raw with
  | none => (issued, { st with seen := issued :: st.seen, used := st.used + 1 })
  | some old =>
    if renew || old ∈ st.seen then
      (issued, {
        seen := issued :: st.seen
        remap := if (st.remap.lookup old).isSome then st.remap else (old, issued) :: st.remap
        used := st.used + 1 })
    else (old, { st with seen := old :: st.seen })

def claimSections (fresh : Nat → Uuid) (renew : Bool) :
    ClaimState → List OutlineSection → List OutlineSection × ClaimState
  | st, [] => ([], st)
  | st, sec :: secs =>
    let x := claim fresh renew st sec.id
    let rest := claimSections fresh renew x.2 secs
    ({ sec with id := some x.1 } :: rest.1, rest.2)

def claimChapters (fresh : Nat → Uuid) (renew : Bool) : ClaimState → Outline → Outline × ClaimState
  | st, [] => ([], st)
  | st, ch :: chs =>
    let x := claim fresh renew st ch.id
    let secs := claimSections fresh renew x.2 ch.sections
    let rest := claimChapters fresh renew secs.2 chs
    ({ ch with id := some x.1, sections := secs.1 } :: rest.1, rest.2)

/-- The outline with an id for every item, and what became of the ids that were replaced. -/
def ensureOutlineIds (fresh : Nat → Uuid) (renew : Bool) (outline : Outline) :
    Outline × List (Text × Text) :=
  let r := claimChapters fresh renew ⟨[], [], 0⟩ outline
  (r.1, r.2.remap)

/-- The sections with the numbers of their chapter and their own, both from one. -/
def places (outline : Outline) : List (Nat × Nat × OutlineSection) :=
  (outline.zipIdx 1).flatMap fun x => (x.1.sections.zipIdx 1).map fun y => (x.2, y.2, y.1)

/-- Ids to labels and back. -/
structure PositionMaps where
  labelBySec : List (Text × Text)
  numByCh : List (Text × Text)
  secByPos : List ((Nat × Nat) × Text)
  chByNum : List (Nat × Text)

def positionMaps (outline : Outline) : PositionMaps where
  labelBySec := (places outline).filterMap fun x =>
    (validId x.2.2.id).map fun id => (id, sectionLabel x.1 x.2.1)
  numByCh := (outline.zipIdx 1).filterMap fun x => (validId x.1.id).map fun id => (id, ofNat x.2)
  secByPos := (places outline).filterMap fun x =>
    (validId x.2.2.id).map fun id => ((x.1, x.2.1), id)
  chByNum := (outline.zipIdx 1).filterMap fun x => (validId x.1.id).map fun id => (x.2, id)

inductive OutlineError where
  | noChapter (selfLabel ref : Text)
  | noSection (selfLabel ref : Text)
  | itself (selfLabel : Text)
  | unreadable (selfLabel ref : Text)
  | tooManyRefs (selfLabel : Text)
  | tooManyAgents (selfLabel : Text) (agents : Nat)
  deriving DecidableEq

/-- `repr` is Python's spelling of a text as a literal. -/
def OutlineError.text (repr : Text → Text) : OutlineError → Text
  | .noChapter selfLabel ref => selfLabel ++ "절 builds_on이 없는 장을 참조합니다: ".toList ++ ref
  | .noSection selfLabel ref => selfLabel ++ "절 builds_on이 없는 절을 참조합니다: ".toList ++ ref
  | .itself selfLabel => selfLabel ++ "절 builds_on이 자기 자신을 참조합니다".toList
  | .unreadable selfLabel ref =>
    selfLabel ++ "절 builds_on 표기를 읽을 수 없습니다: ".toList ++ repr ref
  | .tooManyRefs selfLabel =>
    selfLabel ++ "절 builds_on이 절당 상한(".toList ++ ofNat maxRefsPerSection ++ ")을 넘습니다".toList
  | .tooManyAgents selfLabel agents =>
    selfLabel ++ "절 담당 에이전트(".toList ++ ofNat agents ++ "명)가 절당 상한(".toList ++
      ofNat maxAgentsPerSection ++ "명)을 넘습니다".toList

/-- One reference as the token of an id. -/
def normalizeRef (maps : PositionMaps) (remap : List (Text × Text)) (selfId selfLabel raw : Text) :
    Except OutlineError Text :=
  match parseIdToken raw with
  | some (.chapter id) =>
    let tid := (remap.lookup id).getD id
    if (lastFor tid maps.numByCh).isNone then .error (.noChapter selfLabel (strip raw))
    else .ok (formatChapterToken tid)
  | some (.section id metric) =>
    let tid := (remap.lookup id).getD id
    if (lastFor tid maps.labelBySec).isNone then .error (.noSection selfLabel (strip raw))
    else if tid = selfId then .error (.itself selfLabel)
    else .ok (formatSectionToken tid metric)
  | none =>
    match parseRef raw with
    | none => .error (.unreadable selfLabel (strip raw))
    | some ref =>
      match ref.sectionNumber with
      | none =>
        match lastFor ref.chapter maps.chByNum with
        | none => .error (.noChapter selfLabel ref.label)
        | some id => .ok (formatChapterToken id)
      | some n =>
        match lastFor (ref.chapter, n) maps.secByPos with
        | none => .error (.noSection selfLabel ref.label)
        | some id =>
          if id = selfId then .error (.itself selfLabel)
          else .ok (formatSectionToken id ref.metric)

/-- The loop over the references of one section. -/
def normalizeRefs (resolve : Text → Except OutlineError Text) (label : Text) :
    List Text → List Text → List Text × List OutlineError
  | out, [] => (out, [])
  | out, raw :: raws =>
    match resolve raw with
    | .error e =>
      let rest := normalizeRefs resolve label out raws
      (rest.1, e :: rest.2)
    | .ok token =>
      if token ∈ out then normalizeRefs resolve label out raws
      else if out.length ≥ maxRefsPerSection then (out, [.tooManyRefs label])
      else normalizeRefs resolve label (out ++ [token]) raws

def normalizeSection (maps : PositionMaps) (remap : List (Text × Text)) (sec : OutlineSection) :
    OutlineSection × List OutlineError :=
  let selfId := sec.id.getD []
  let label := (lastFor selfId maps.labelBySec).getD ['?']
  let agents :=
    if sec.analysts.length > maxAgentsPerSection then [.tooManyAgents label sec.analysts.length]
    else []
  if sec.buildsOn.isEmpty then (sec, agents)
  else
    let refs := normalizeRefs (normalizeRef maps remap selfId label) label [] sec.buildsOn
    ({ sec with buildsOn := refs.1 }, agents ++ refs.2)

/-- The outline with ids everywhere and references as tokens, and what is wrong with it. -/
def normalizeOutline (fresh : Nat → Uuid) (renew : Bool) (outline : Outline) :
    Outline × List OutlineError :=
  let ensured := ensureOutlineIds fresh renew outline
  let maps := positionMaps ensured.1
  let chapters := ensured.1.map fun ch =>
    let secs := ch.sections.map (normalizeSection maps ensured.2)
    ({ ch with sections := secs.map (·.1) }, secs.flatMap (·.2))
  (chapters.map (·.1), chapters.flatMap (·.2))

/-- The current label of a token; a number stays as it is, an unknown target gives nothing. -/
def tokenToLabel (maps : PositionMaps) (raw : Text) : Option Text :=
  match parseIdToken raw with
  | none => if (parseRef raw).isSome then some raw else none
  | some (.chapter id) => (lastFor id maps.numByCh).map (· ++ ".*".toList)
  | some (.section id metric) => (lastFor id maps.labelBySec).map (withMetric · metric)

end RownRg.Outlines

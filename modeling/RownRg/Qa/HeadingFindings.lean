import Mathlib.Data.List.Sort
import RownRg.Core.SectionPlan
import RownRg.Lib.Dedup
import RownRg.Qa.HeadingSpots

/-! What the check of the headings reports, and what repair owes the references. -/

open PyText Regex

namespace RownRg.Headings

/-- The numbers of the section among the matches. -/
def ownNumbers (chapter sec : Nat) (ms : List (Match NumberGroup)) : List Nat :=
  ms.filterMap fun m =>
    if numberOf m .chapter = chapter ∧ numberOf m .section = sec then some (numberOf m .number)
    else none

/-- The text without the numbers of its headings. -/
def bodyWithoutHeadings (content : Text) : Text := subHeadingRe.sub (fun _ => []) content

/-- The sub-headings of the section, in the order of the text. -/
def headingNumbers (content : Text) (chapter sec : Nat) : List Nat :=
  ownNumbers chapter sec (subHeadingRe.finditer content)

/-- The references to sub-headings of the section, in the order of the text. -/
def refNumbers (content : Text) (chapter sec : Nat) : List Nat :=
  ownNumbers chapter sec (refRe.finditer (bodyWithoutHeadings content))

/-- `sorted(set(numbers))` -/
def sortedSet (ns : List Nat) : List Nat := ns.eraseDups.insertionSort (· ≤ ·)

/-- `_own_subsections` -/
def ownSubsections (content : Text) (chapter sec : Nat) : List Nat :=
  sortedSet (headingNumbers content chapter sec)

structure Finding where
  chapterNumber : Nat
  severity : Text
  category : Text
  sectionRef : Text
  detail : Text
  deriving DecidableEq

def labels (chapter sec : Nat) (ns : List Nat) : Text :=
  joinWith ", ".toList (ns.map (label chapter sec))

/-- The sub-headings are not numbered through. -/
def gapDetail (own : List Nat) (chapter sec : Nat) : Option Text :=
  if own = List.range' 1 own.length then none
  else
    let missing := (List.range' 1 (own.foldl max 0)).filter (· ∉ own)
    some ("하위 헤딩 번호 결번: ".toList ++ ofNat chapter ++ '.' :: ofNat sec ++ ".\x7b".toList ++
      joinWith ", ".toList (missing.map ofNat) ++ "\x7d가 없이 ".toList ++ labels chapter sec own ++
      "만 존재".toList)

def loneDetail (own : List Nat) (chapter sec : Nat) : Option Text :=
  match own with
  | [only] => some ("고아 하위 구획: ".toList ++ label chapter sec only ++
      " 하나뿐 — 구획이 1개면 번호를 떼거나 둘 이상으로 나눠야 함".toList)
  | _ => none

/-- The references to sub-headings that are not there. -/
def ghosts (content : Text) (chapter sec : Nat) : List Nat :=
  sortedSet ((refNumbers content chapter sec).filter (· ∉ ownSubsections content chapter sec))

def ghostDetail (ghost : List Nat) (chapter sec : Nat) : Option Text :=
  if ghost = [] then none
  else some ("유령 하위 구획 참조: 본문이 ".toList ++ labels chapter sec ghost ++
    "를 참조하지만 해당 헤딩이 없음".toList)

def titleDetail (content title : Text) : Option Text :=
  if titleReprinted content title then
    some "절 제목 재출력: 본문 첫 헤딩이 절 제목을 그대로 반복(조립이 제목을 이미 단다)".toList
  else none

/-- The rows for one section. -/
def sectionFindings (plan : SectionPlan) (content : Text) : List Finding :=
  if content.isEmpty then []
  else
    let chapter := plan.chapterNumber
    let sec := plan.sectionNumber
    let own := ownSubsections content chapter sec
    [gapDetail own chapter sec, loneDetail own chapter sec,
      ghostDetail (ghosts content chapter sec) chapter sec,
      titleDetail content plan.title].filterMap fun detail => detail.map fun text =>
        ⟨chapter, "warning".toList, "형식(헤딩 번호)".toList, ofNat chapter ++ '.' :: ofNat sec, text⟩

def headingFindings (sections : List (SectionPlan × Text)) : List Finding :=
  sections.flatMap fun x => sectionFindings x.1 x.2

/-! What repair owes the references. -/

/-- A number names after the repair the headings it named before; one that named none is kept. -/
def StillNames (before after : List Nat) (c c' : Nat) : Prop :=
  (∀ j : Nat, after[j]? = some c' ↔ before[j]? = some c) ∧ (c ∉ before → c' = c)

/-- The text with its numbers of the section blanked out. -/
def blankOwn (content : Text) (chapter sec : Nat) : Text :=
  refRe.sub (fun m => if ownNumbers chapter sec [m] = [] then m.text else [' ']) content

/-- The digits of the text, run by run. -/
def digitRuns (t : Text) : List Text := (t.splitOnP fun c => !isDigit c).filter (· ≠ [])

/-- The numbers of the text that are none of the section's. -/
def otherNumbers (content : Text) (chapter sec : Nat) : List Text :=
  digitRuns (blankOwn content chapter sec)

/-- The repaired text against the text it was made from. -/
structure KeepsReferences (content result : Text) (chapter sec : Nat) : Prop where
  headings : headingNumbers result chapter sec =
    if (headingNumbers content chapter sec).length = 1 then []
    else List.range' 1 (headingNumbers content chapter sec).length
  refs : List.Forall₂
    (StillNames (headingNumbers content chapter sec) (headingNumbers result chapter sec))
    ((refNumbers content chapter sec).filter fun c =>
      ¬ (headingNumbers result chapter sec = [] ∧ c ∈ headingNumbers content chapter sec))
    (refNumbers result chapter sec)
  others : otherNumbers result chapter sec = otherNumbers content chapter sec
  noGap : gapDetail (ownSubsections result chapter sec) chapter sec = none
  noNewGhost : ∀ c ∈ ghosts result chapter sec, c ∈ ghosts content chapter sec

variable {content result : Text} {chapter sec : Nat} {ns ms : List Nat} {c : Nat}

/-- What depends on the three numbers of a match alone. -/
theorem filterMap_caps {β : Type} {f : Match NumberGroup → Option β} {ms ms' : List (Match NumberGroup)}
    (hf : ∀ m m', m.caps = m'.caps → f m = f m') (h : ms.map Match.caps = ms'.map Match.caps) :
    ms.filterMap f = ms'.filterMap f := by
  induction ms generalizing ms' with
  | nil =>
    obtain rfl := List.map_eq_nil_iff.mp h.symm
    rfl
  | cons m ms ih =>
    cases ms' with
    | nil => cases h
    | cons m' ms' =>
      obtain ⟨hm, hms⟩ := List.cons.inj h
      rw [List.filterMap_cons, List.filterMap_cons, hf m m' hm, ih hms]

theorem numberOf_congr {m m' : Match NumberGroup} (h : m.caps = m'.caps) (g : NumberGroup) :
    numberOf m g = numberOf m' g := by
  simp only [numberOf, Match.group, h]

theorem ownNumbers_congr {ms ms' : List (Match NumberGroup)}
    (h : ms.map Match.caps = ms'.map Match.caps) :
    ownNumbers chapter sec ms = ownNumbers chapter sec ms' :=
  filterMap_caps (fun m m' hm => by simp only [numberOf_congr hm]) h

theorem headingNumbers_eq (content : Text) (chapter sec : Nat) :
    headingNumbers content chapter sec = ownNumbers chapter sec (inHeadings content) :=
  ownNumbers_congr (finditer_subHeadingRe content)

theorem refNumbers_eq (content : Text) (chapter sec : Nat) :
    refNumbers content chapter sec = ownNumbers chapter sec (inBody content) := by
  rw [refNumbers, bodyWithoutHeadings, finditer_bodyWithoutHeadings]

theorem mem_sortedSet : c ∈ sortedSet ns ↔ c ∈ ns := by
  rw [sortedSet, List.mem_insertionSort, List.mem_eraseDups]

theorem sortedSet_range' (n : Nat) : sortedSet (List.range' 1 n) = List.range' 1 n := by
  rw [sortedSet, FirstSeen.of_nodup List.nodup_range']
  exact List.Pairwise.insertionSort_eq (List.pairwise_le_range' ..)

theorem mem_ghosts : c ∈ ghosts content chapter sec ↔
    c ∈ refNumbers content chapter sec ∧ c ∉ headingNumbers content chapter sec := by
  rw [ghosts, mem_sortedSet, List.mem_filter]
  simp [ownSubsections, mem_sortedSet]

theorem noGap_of_headings {n : Nat} (hheads : headingNumbers result chapter sec = List.range' 1 n) :
    gapDetail (ownSubsections result chapter sec) chapter sec = none := by
  rw [ownSubsections, hheads, sortedSet_range', gapDetail]
  simp

/-- A reference that names nothing is the one it was. -/
theorem noNewGhost_of_refs {p : Nat → Bool}
    (hrefs : List.Forall₂
      (StillNames (headingNumbers content chapter sec) (headingNumbers result chapter sec))
      ((refNumbers content chapter sec).filter p) (refNumbers result chapter sec)) :
    ∀ c ∈ ghosts result chapter sec, c ∈ ghosts content chapter sec := by
  intro c' hc'
  obtain ⟨hmem, hnone⟩ := mem_ghosts.1 hc'
  obtain ⟨i, hi, rfl⟩ := List.getElem_of_mem hmem
  obtain ⟨hlen, hall⟩ := List.forall₂_iff_get.mp hrefs
  obtain ⟨hnames, hkept⟩ := hall i (by omega) hi
  have hc := List.get_mem ((refNumbers content chapter sec).filter p) ⟨i, by omega⟩
  generalize ((refNumbers content chapter sec).filter p).get ⟨i, by omega⟩ = c at *
  have hnot : c ∉ headingNumbers content chapter sec := by
    intro hin
    obtain ⟨j, hj⟩ := List.mem_iff_getElem?.mp hin
    exact hnone (List.mem_of_getElem? ((hnames j).mpr hj))
  rw [List.get_eq_getElem] at hkept
  rw [hkept hnot]
  exact mem_ghosts.2 ⟨(List.mem_filter.mp hc).1, hnot⟩

end RownRg.Headings

import RownRg.Core.OutlineNormal
import RownRg.Core.SectionPlan

/-! The plan that an outline gives. -/

open PyText

namespace RownRg.Generation

open RownRg.BuildsOn RownRg.Outlines

variable {o : Outline} {s : OutlineSection} {fresh : Nat → Uuid} {ci si k : Nat} {chapterTitle : Text}
  {u : Uuid} {entries : List (Text × Nat × Nat × OutlineSection)}

/-- `MAX_SECTIONS` -/
def maxSections : Nat := 40

/-- A length for one section, given below the section or in its target; what is no positive
number counts as missing. -/
def volumeField (raw : Json) (target : Option Json) : Option Nat :=
  let raw := match raw, target with
    | .null, some t => t
    | raw, _ => raw
  match raw.toInt? with
  | some n => if n > 0 then some n.toNat else none
  | none => none

/-- The ids that the plan holds so far, and how many were drawn. -/
structure PlanIds where
  seen : List Uuid
  used : Nat

/-- The id of a section, or a new one where it is missing, broken or taken. -/
def outlineSectionId (fresh : Nat → Uuid) (st : PlanIds) (sec : OutlineSection) : Uuid × PlanIds :=
  let x := match sec.id.bind Uuid.parse with
    | some sid => (sid, st.used)
    | none => (fresh st.used, st.used + 1)
  if x.1 ∈ st.seen then (fresh x.2, ⟨fresh x.2 :: st.seen, x.2 + 1⟩)
  else (x.1, ⟨x.1 :: st.seen, x.2⟩)

/-- The sections that have a title, with the title of their chapter and both numbers. -/
def titled (outline : Outline) : List (Text × Nat × Nat × OutlineSection) :=
  (outline.zipIdx 1).flatMap fun x =>
    ((x.1.sections.zipIdx 1).filter fun y => !(strip y.1.title).isEmpty).map fun y =>
      (strip x.1.title, x.2, y.2, y.1)

def planSection (maps : PositionMaps) (chapterTitle : Text) (ci si : Nat) (sec : OutlineSection)
    (sectionId : Uuid) : SectionPlan where
  sectionId
  chapterNumber := ci
  sectionNumber := si
  title := strip sec.title
  chapterTitle
  direction := strip sec.direction
  keyPoints := sec.keyPoints
  analysts := sec.analysts
  searchQueries := []
  buildsOn := sec.buildsOn.filterMap (tokenToLabel maps)
  minChars := volumeField sec.volume.minChars (sec.volumeTarget.map (·.minChars))
  maxChars := volumeField sec.volume.maxChars (sec.volumeTarget.map (·.maxChars))

def planSections (fresh : Nat → Uuid) (maps : PositionMaps) :
    PlanIds → List (Text × Nat × Nat × OutlineSection) → List SectionPlan
  | _, [] => []
  | st, (chapterTitle, ci, si, sec) :: rest =>
    let x := outlineSectionId fresh st sec
    planSection maps chapterTitle ci si sec x.1 :: planSections fresh maps x.2 rest

/-- The plan of the first sections that have a title; `none` where there are none. -/
def planFromOutline (fresh : Nat → Uuid) (outline : Outline) : Option (List SectionPlan) :=
  let plan := planSections fresh (positionMaps outline) ⟨[], 0⟩ (titled outline)
  if plan.isEmpty then none else some (plan.take maxSections)

/-! The ids of the plan. -/

/-- The draws repeat no id of the outline. -/
def NewTo (fresh : Nat → Uuid) (o : Outline) : Prop :=
  ∀ i, ∀ s ∈ sections o, s.id.bind Uuid.parse ≠ some (fresh i)

theorem titled_sublist (o : Outline) : ((titled o).map fun x => x.2.2.2).Sublist (sections o) := by
  have hall : ∀ n, (((o.zipIdx n).flatMap fun x =>
      ((x.1.sections.zipIdx 1).filter fun y => !(strip y.1.title).isEmpty).map fun y =>
        (strip x.1.title, x.2, y.2, y.1)).map fun x => x.2.2.2).Sublist (sections o) := by
    induction o with
    | nil => intro n; exact List.Sublist.refl _
    | cons ch o ih =>
      intro n
      simp only [List.zipIdx_cons, List.flatMap_cons, List.map_append, sections, List.map_map]
      refine List.Sublist.append ?_ (ih _)
      have hsub := (List.filter_sublist (l := ch.sections.zipIdx 1)
        (p := fun y => !(strip y.1.title).isEmpty)).map fun y => y.1
      simpa [Function.comp_def] using hsub
  exact hall 1

theorem titled_places (h : (chapterTitle, ci, si, s) ∈ titled o) : (ci, si, s) ∈ places o := by
  obtain ⟨x, hx, htitled⟩ := List.mem_flatMap.mp h
  obtain ⟨y, hy, heq⟩ := List.mem_map.mp htitled
  obtain ⟨-, rfl, rfl, rfl⟩ := by simpa using heq
  exact List.mem_flatMap.mpr ⟨x, hx, List.mem_map.mpr ⟨y, (List.mem_filter.mp hy).1, rfl⟩⟩

theorem parse_of_validId (h : validId s.id = some u.str) : s.id.bind Uuid.parse = some u := by
  obtain ⟨v, hv, heq⟩ := Option.map_eq_some_iff.mp h
  rw [hv, Uuid.str_injective heq]

theorem seen_outlineSectionId {st : PlanIds} {v : Uuid}
    (h : v ∈ (outlineSectionId fresh st s).2.seen) :
    v ∈ st.seen ∨ s.id.bind Uuid.parse = some v ∨ ∃ i, v = fresh i := by
  unfold outlineSectionId at h
  cases hid : s.id.bind Uuid.parse with
  | none =>
    simp only [hid] at h
    split at h
    · rcases List.mem_cons.mp h with rfl | h
      · exact .inr (.inr ⟨_, rfl⟩)
      · exact .inl h
    · rcases List.mem_cons.mp h with rfl | h
      · exact .inr (.inr ⟨_, rfl⟩)
      · exact .inl h
  | some sid =>
    simp only [hid] at h
    split at h
    · rcases List.mem_cons.mp h with rfl | h
      · exact .inr (.inr ⟨_, rfl⟩)
      · exact .inl h
    · rcases List.mem_cons.mp h with rfl | h
      · exact .inr (.inl rfl)
      · exact .inl h

theorem planSections_cons {st : PlanIds} {maps : PositionMaps} :
    planSections fresh maps st ((chapterTitle, ci, si, s) :: entries) =
      planSection maps chapterTitle ci si s (outlineSectionId fresh st s).1 ::
        planSections fresh maps (outlineSectionId fresh st s).2 entries := rfl

/-- A section with an id of its own is planned under it. -/
theorem planSections_getElem? {st : PlanIds} {maps : PositionMaps}
    (hnew : ∀ i, ∀ e ∈ entries, e.2.2.2.id.bind Uuid.parse ≠ some (fresh i))
    (hapart : (entries.filterMap fun e => e.2.2.2.id.bind Uuid.parse).Nodup)
    (hseen : ∀ e ∈ entries, ∀ v ∈ e.2.2.2.id.bind Uuid.parse, v ∉ st.seen)
    (hk : entries[k]? = some (chapterTitle, ci, si, s)) (hu : s.id.bind Uuid.parse = some u) :
    (planSections fresh maps st entries)[k]? = some (planSection maps chapterTitle ci si s u) := by
  induction entries generalizing st k with
  | nil => simp at hk
  | cons e entries ih =>
    obtain ⟨title, ci', si', sec⟩ := e
    cases k with
    | zero =>
      obtain ⟨rfl, rfl, rfl, rfl⟩ := by simpa using hk
      have hnot : u ∉ st.seen := hseen _ (.head _) u hu
      simp [planSections_cons, outlineSectionId, hu, hnot]
    | succ k =>
      refine ih (fun i e he => hnew i e (by simp [he])) ?_ ?_ (by simpa using hk)
      · rw [List.filterMap_cons] at hapart
        split at hapart
        · exact hapart
        · exact (List.nodup_cons.mp hapart).2
      · intro e he v hv hmem
        rcases seen_outlineSectionId hmem with hold | hid | ⟨i, rfl⟩
        · exact hseen e (by simp [he]) v hv hold
        · rw [List.filterMap_cons, hid] at hapart
          exact (List.nodup_cons.mp hapart).1 (List.mem_filterMap.mpr ⟨e, he, hv⟩)
        · exact hnew i e (by simp [he]) hv

/-- The plan of the section at a place among those that have a title. -/
theorem planFromOutline_getElem? (hapart : Apart o) (hnew : NewTo fresh o)
    (hk : (titled o)[k]? = some (chapterTitle, ci, si, s)) (hlt : k < maxSections)
    (hu : validId s.id = some u.str) : ∃ plan, planFromOutline fresh o = some plan ∧
      plan[k]? = some (planSection (positionMaps o) chapterTitle ci si s u) := by
  have hmem : ∀ e ∈ titled o, e.2.2.2 ∈ sections o := fun e he =>
    (titled_sublist o).subset (List.mem_map.mpr ⟨e, he, rfl⟩)
  have hids : ((titled o).filterMap fun e => e.2.2.2.id.bind Uuid.parse).Nodup := by
    have hsub := (titled_sublist o).filterMap fun s => validId s.id
    have hnodup := hapart.sections.sublist hsub
    rw [List.filterMap_map] at hnodup
    have hstr : ((titled o).filterMap fun e => e.2.2.2.id.bind Uuid.parse).map Uuid.str =
        (titled o).filterMap ((fun s => validId s.id) ∘ fun e => e.2.2.2) := by
      rw [List.map_filterMap]
      rfl
    rw [← hstr] at hnodup
    exact hnodup.of_map _
  have hget : (planSections fresh (positionMaps o) ⟨[], 0⟩ (titled o))[k]? =
      some (planSection (positionMaps o) chapterTitle ci si s u) := planSections_getElem?
    (fun i e he => hnew i _ (hmem e he)) hids (by simp) hk (parse_of_validId hu)
  have hne : (planSections fresh (positionMaps o) ⟨[], 0⟩ (titled o)).isEmpty = false := by
    cases hplan : planSections fresh (positionMaps o) ⟨[], 0⟩ (titled o) with
    | nil => simp [hplan] at hget
    | cons => rfl
  refine ⟨(planSections fresh (positionMaps o) ⟨[], 0⟩ (titled o)).take maxSections, ?_, ?_⟩
  · simp [planFromOutline, hne]
  · rw [List.getElem?_take_of_lt hlt, hget]

/-! The plan names no id and no place twice. -/

/-- No id that is still to be drawn is taken. -/
def AheadOf (fresh : Nat → Uuid) (st : PlanIds) : Prop := ∀ v ∈ st.seen, ∀ i, st.used ≤ i → v ≠ fresh i

theorem outlineSectionId_new {st : PlanIds} (hinj : Function.Injective fresh)
    (hnew : ∀ i, s.id.bind Uuid.parse ≠ some (fresh i)) (h : AheadOf fresh st) :
    (outlineSectionId fresh st s).1 ∉ st.seen ∧
      (outlineSectionId fresh st s).2.seen = (outlineSectionId fresh st s).1 :: st.seen ∧
      AheadOf fresh (outlineSectionId fresh st s).2 := by
  have hdrawn : ∀ i, st.used ≤ i → fresh i ∉ st.seen := fun i hi hmem => h _ hmem i hi rfl
  have hcons : ∀ used v, st.used ≤ used → (∀ i, used ≤ i → v ≠ fresh i) →
      AheadOf fresh ⟨v :: st.seen, used⟩ := by
    intro used v hused hv w hw i hi
    rcases List.mem_cons.mp hw with rfl | hw
    · exact hv i hi
    · exact h w hw i (Nat.le_trans hused hi)
  have hapart : ∀ n i, n + 1 ≤ i → fresh n ≠ fresh i := fun n i hi heq => by
    have := hinj heq
    omega
  unfold outlineSectionId
  cases hid : s.id.bind Uuid.parse with
  | none =>
    simp only [if_neg (hdrawn st.used le_rfl)]
    exact ⟨hdrawn _ le_rfl, trivial, hcons _ _ (by simp) (hapart _)⟩
  | some sid =>
    by_cases hmem : sid ∈ st.seen
    · simp only [if_pos hmem]
      exact ⟨hdrawn _ le_rfl, trivial, hcons _ _ (by simp) (hapart _)⟩
    · simp only [if_neg hmem]
      exact ⟨hmem, trivial, hcons _ _ le_rfl fun i _ heq => hnew i (heq ▸ hid)⟩

theorem nodup_planSections {st : PlanIds} {maps : PositionMaps} (hinj : Function.Injective fresh)
    (hnew : ∀ e ∈ entries, ∀ i, e.2.2.2.id.bind Uuid.parse ≠ some (fresh i))
    (h : AheadOf fresh st) :
    ((planSections fresh maps st entries).map (·.sectionId)).Nodup ∧
      ∀ v ∈ (planSections fresh maps st entries).map (·.sectionId), v ∉ st.seen := by
  induction entries generalizing st with
  | nil => exact ⟨List.nodup_nil, fun v hv => nomatch hv⟩
  | cons e entries ih =>
    obtain ⟨title, ci, si, sec⟩ := e
    obtain ⟨hnot, hseen, hahead⟩ := outlineSectionId_new hinj (hnew _ (.head _)) h
    obtain ⟨hnodup, hrest⟩ := ih (fun e he => hnew e (by simp [he])) hahead
    simp only [planSections_cons, List.map_cons, List.nodup_cons, List.mem_cons]
    refine ⟨⟨fun hmem => ?_, hnodup⟩, ?_⟩
    · exact hrest _ hmem (hseen ▸ List.mem_cons_self ..)
    · rintro v (rfl | hv)
      · exact hnot
      · exact fun hmem => hrest v hv (hseen ▸ List.mem_cons_of_mem _ hmem)

theorem positions_planSections {st : PlanIds} {maps : PositionMaps} :
    (planSections fresh maps st entries).map (fun p => (p.chapterNumber, p.sectionNumber)) =
      entries.map fun e => (e.2.1, e.2.2.1) := by
  induction entries generalizing st with
  | nil => rfl
  | cons e entries ih =>
    obtain ⟨title, ci, si, sec⟩ := e
    simp [planSections_cons, ih, planSection]

theorem pairwise_zipIdx {α : Type} (l : List α) (n : Nat) :
    (l.zipIdx n).Pairwise fun x y => x.2 < y.2 := by
  have hlt : ((l.zipIdx n).map Prod.snd).Pairwise (· < ·) := by
    rw [List.zipIdx_map_snd]
    exact List.pairwise_lt_range'
  exact List.pairwise_map.mp hlt

/-- The numbers of the sections grow along the outline. -/
theorem nodup_titled (o : Outline) : ((titled o).map fun e => (e.2.1, e.2.2.1)).Nodup := by
  have hgrow : (titled o).Pairwise fun x y => x.2.1 < y.2.1 ∨ x.2.1 = y.2.1 ∧ x.2.2.1 < y.2.2.1 := by
    unfold titled
    rw [List.pairwise_flatMap]
    constructor
    · intro x hx
      rw [List.pairwise_map]
      exact ((pairwise_zipIdx x.1.sections 1).filter _).imp fun hlt => .inr ⟨rfl, hlt⟩
    · refine (pairwise_zipIdx o 1).imp fun hlt a ha b hb => .inl ?_
      obtain ⟨_, -, rfl⟩ := List.mem_map.mp ha
      obtain ⟨_, -, rfl⟩ := List.mem_map.mp hb
      exact hlt
  refine List.pairwise_map.mpr (hgrow.imp fun h heq => ?_)
  obtain ⟨hci, hsi⟩ := Prod.mk.inj heq
  omega

theorem planFromOutline_distinct {plan : List SectionPlan} (hinj : Function.Injective fresh)
    (hnew : NewTo fresh o) (h : planFromOutline fresh o = some plan) :
    (plan.map (·.sectionId)).Nodup ∧
      (plan.map fun p => (p.chapterNumber, p.sectionNumber)).Nodup := by
  unfold planFromOutline at h
  simp only at h
  split at h
  · cases h
  · obtain rfl := Option.some.inj h
    have hids : ((planSections fresh (positionMaps o) ⟨[], 0⟩ (titled o)).map
        (·.sectionId)).Nodup := by
      refine (nodup_planSections hinj (fun e he i => hnew i _ ?_) (by simp [AheadOf])).1
      exact (titled_sublist o).subset (List.mem_map.mpr ⟨e, he, rfl⟩)
    have hpositions : ((planSections fresh (positionMaps o) ⟨[], 0⟩ (titled o)).map
        fun p => (p.chapterNumber, p.sectionNumber)).Nodup := by
      rw [positions_planSections]
      exact nodup_titled o
    rw [List.map_take, List.map_take]
    exact ⟨hids.sublist (List.take_sublist ..), hpositions.sublist (List.take_sublist ..)⟩

end RownRg.Generation

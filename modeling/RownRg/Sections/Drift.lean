import RownRg.Core.SectionPlan

/-! Sections whose text was written under a plan that has changed since. -/

open PyText

namespace RownRg.Sections

variable {δ σ : Type} [DecidableEq δ] {digest : Json → δ} {plan p q : SectionPlan}
  {plans : List SectionPlan}

inductive DriftReason where
  | planChanged
  | sourceExcluded
  | missing
  deriving DecidableEq

structure SectionDrift (σ : Type) where
  sectionId : Uuid
  label : Text
  reasons : List DriftReason
  excludedSourceIds : List σ

/-- What is asked of a stored section; `none` is the empty fingerprint of an older text. -/
structure SectionSnapshot (δ σ : Type) where
  hasContent : Bool
  planHash : Option δ
  excludedSourceIds : List σ

/-- The fields of a plan that its text depends on; the section's number is none of them. -/
def fingerprintPayload (plan : SectionPlan) : Json :=
  .arr [.str plan.title, .str plan.chapterTitle, .str plan.direction, .texts plan.keyPoints,
    .texts plan.searchQueries, .texts plan.analysts, .texts plan.buildsOn,
    .ofNat? plan.minChars, .ofNat? plan.maxChars]

/-- `digest` is the hash of the JSON text. -/
def contentFingerprint (digest : Json → δ) (plan : SectionPlan) : δ :=
  digest (fingerprintPayload plan)

/-- `2.3 제목` -/
def planLabel (plan : SectionPlan) : Text :=
  ofNat plan.chapterNumber ++ ['.'] ++ ofNat plan.sectionNumber ++ [' '] ++ plan.title

def driftReasons (digest : Json → δ) (plan : SectionPlan) :
    Option (SectionSnapshot δ σ) → List DriftReason
  | none => [.missing]
  | some snap =>
    if !snap.hasContent then [.missing]
    else
      (if snap.planHash.any (· ≠ contentFingerprint digest plan) then [.planChanged] else []) ++
        if snap.excludedSourceIds.isEmpty then [] else [.sourceExcluded]

def detectDrift (digest : Json → δ) (plans : List SectionPlan)
    (snapshots : List (Uuid × SectionSnapshot δ σ)) : List (SectionDrift σ) :=
  if !snapshots.any fun x => x.2.hasContent || x.2.planHash.isSome then []
  else plans.filterMap fun plan =>
    let snap := snapshots.lookup plan.sectionId
    let reasons := driftReasons digest plan snap
    if reasons.isEmpty then none
    else some ⟨plan.sectionId, planLabel plan, reasons,
      if DriftReason.sourceExcluded ∈ reasons then (snap.map (·.excludedSourceIds)).getD [] else []⟩

/-- A written section is reported as changed if and only if its fingerprint is another one. -/
theorem planChanged_iff {snap : SectionSnapshot δ σ} {h : δ} (hcontent : snap.hasContent)
    (hhash : snap.planHash = some h) :
    DriftReason.planChanged ∈ driftReasons digest plan (some snap) ↔
      h ≠ contentFingerprint digest plan := by
  by_cases he : h = contentFingerprint digest plan
  · simp [driftReasons, hcontent, hhash, he]
  · simp [driftReasons, hcontent, hhash, he]

/-- A plan comes back from storage as it was: from the list, from the config, and for the
fingerprints that are compared later. -/
structure SurvivesStorage (plans : List SectionPlan) : Prop where
  list : ∀ repr j, Json.Stored (SectionPlan.dumpSectionPlan plans) j →
    SectionPlan.loadSectionPlan repr j = plans
  config : ∀ repr (config : List (Text × Json)) j, (config.map Prod.fst).Nodup →
    Json.Stored (.obj (SectionPlan.configWithPlan config plans)) j →
    SectionPlan.planFromConfig repr j = plans
  fingerprints : ∀ (δ : Type) (digest : Json → δ) repr j,
    Json.Stored (SectionPlan.dumpSectionPlan plans) j →
    (SectionPlan.loadSectionPlan repr j).map (contentFingerprint digest) =
      plans.map (contentFingerprint digest)

theorem map_withoutLength :
    plans.map SectionPlan.withoutLength = plans ↔
      ∀ s ∈ plans, s.minChars = none ∧ s.maxChars = none := by
  induction plans with
  | nil => simp
  | cons s plans ih =>
    have hs : SectionPlan.withoutLength s = s ↔ s.minChars = none ∧ s.maxChars = none := by
      constructor
      · intro h
        have hmin := congrArg SectionPlan.minChars h
        have hmax := congrArg SectionPlan.maxChars h
        exact ⟨hmin.symm, hmax.symm⟩
      · rintro ⟨hmin, hmax⟩
        cases s
        simp_all [SectionPlan.withoutLength]
    simp [hs, ih]

/-- The stored plan is the plan if and only if no section has a length limit of its own. -/
theorem survivesStorage_iff :
    SurvivesStorage plans ↔ ∀ s ∈ plans, s.minChars = none ∧ s.maxChars = none := by
  rw [← map_withoutLength]
  constructor
  · intro h
    have hlist := h.list (fun _ => []) _ (Json.stored_refl _)
    rwa [SectionPlan.loadSectionPlan_stored _ (Json.stored_refl _)] at hlist
  · intro h
    refine ⟨fun repr j hj => ?_, fun repr config j hdict hj => ?_, fun δ digest repr j hj => ?_⟩
    · rw [SectionPlan.loadSectionPlan_stored repr hj, h]
    · rw [SectionPlan.planFromConfig_stored repr hdict hj, h]
    · rw [SectionPlan.loadSectionPlan_stored repr hj, h]

/-- A section that should stay short. -/
def shortSection : SectionPlan :=
  ⟨⟨"00000000000000000000000000000001".toList, by decide, by decide⟩, 1, 1, "시사점".toList, [], [],
    [], [], [], [], some 3000, some 5000⟩

theorem not_survivesStorage_short : ¬ ∀ plans, SurvivesStorage plans := by
  intro h
  have hlist := (h [shortSection]).list (fun _ => []) _ (Json.stored_refl _)
  rw [SectionPlan.loadSectionPlan_stored _ (Json.stored_refl _)] at hlist
  revert hlist
  decide

end RownRg.Sections

import RownRg.Core.State
import RownRg.Core.SectionPlan
import RownRg.Qa.HeadingCheck
import RownRg.Qa.MarkerSpacing

/-! The drafts of a section: generated, generated again, and which of them reach the gate clean. -/

open PyText RownRg.Headings RownRg.MarkerSpacing

namespace RownRg.Retries

/-- A draft as it is generated; a reason says that it is not complete. -/
structure Draft extends SectionDraft Uuid where
  incompleteReason : Text

/-- `_CONTROL_RE` -/
def isControl (c : Char) : Bool :=
  c.toNat ≤ 8 || c.toNat = 11 || c.toNat = 12 || (14 ≤ c.toNat && c.toNat ≤ 31)

/-! The hard checks of the gate. -/

def citationResolves (validChunkIds : List Uuid) (d : Draft) : Bool :=
  d.citedChunkIds.all fun c => c ∈ validChunkIds

def complete (d : Draft) : Bool := d.incompleteReason.isEmpty

def renderable (d : Draft) : Bool := !(strip d.content).isEmpty && !d.content.any isControl

/-- The drafts that no hard check excludes. -/
def survivors (validChunkIds : List Uuid) (drafts : List Draft) : List Draft :=
  drafts.filter fun d => citationResolves validChunkIds d && complete d && renderable d

/-- `_normalize` -/
def normalize (plan : SectionPlan) (text : Text) : Text :=
  let text := stripTitleReprint text plan.title
  let text := fixHeadingNumbers text plan.chapterNumber plan.sectionNumber
  normalizeMarkerSpacing text

def normalizeDraft (plan : SectionPlan) (d : Draft) : Draft :=
  { d with content := normalize plan d.content }

/-- `RETRY_MIN_MISSED` -/
def retryMinMissed : Nat := 2

/-- What a section is written under; `missed` gives the key points that a text does not cover. -/
structure WriteEnv where
  plan : SectionPlan
  validChunkIds : List Uuid
  retryOnEmpty : Bool
  missed : Text → List Text → List Text

/-- What the generation gives, each time it is asked; `none` where it raises. -/
structure Generated where
  first : Option (List Draft)
  retry : Option (List Draft)
  keyPoints : Option (List Draft)

variable (env : WriteEnv) (gen : Generated)

/-- The one new try where all candidates were excluded. -/
def afterRetry (drafts : List Draft) : Option (List Draft) :=
  if survivors env.validChunkIds drafts = [] ∧ env.retryOnEmpty then do
    let retryDrafts ← gen.retry
    return if survivors env.validChunkIds retryDrafts ≠ [] then retryDrafts else drafts
  else some drafts

/-- The one new try where key points are missing. -/
def afterKeyPoints (drafts : List Draft) : Option (List Draft) :=
  match survivors env.validChunkIds drafts with
  | [] => some drafts
  | d :: _ =>
    let missed := env.missed d.content env.plan.keyPoints
    if env.plan.keyPoints ≠ [] ∧ retryMinMissed ≤ missed.length then do
      let kpDrafts := (← gen.keyPoints).map (normalizeDraft env.plan)
      return match survivors env.validChunkIds kpDrafts with
        | [] => drafts
        | k :: _ =>
          if (env.missed k.content env.plan.keyPoints).length < missed.length then kpDrafts
          else drafts
    else some drafts

/-- The drafts of the candidate set, before tables become charts; `none` where an exception
leaves the section. -/
def processSection : Option (List Draft) := do
  let drafts := (← gen.first).map (normalizeDraft env.plan)
  afterKeyPoints env gen (← afterRetry env gen drafts)

variable {env gen} {drafts retryDrafts out : List Draft} {d : Draft} {plan : SectionPlan}
  {t : Text}

/-- The content comes from `_normalize`. -/
def Normalized (plan : SectionPlan) (d : Draft) : Prop := ∃ t, d.content = normalize plan t

/-- Every draft that the section can adopt comes from `_normalize`. -/
def AdoptsNormalized (env : WriteEnv) (gen : Generated) : Prop :=
  ∀ out, processSection env gen = some out →
    ∀ d ∈ survivors env.validChunkIds out, Normalized env.plan d

/-- The try for the key points is not made, or brings nothing better. -/
def KeptByKeyPoints (env : WriteEnv) (gen : Generated) (drafts : List Draft) : Prop :=
  ∀ d ∈ (survivors env.validChunkIds drafts).head?,
    env.plan.keyPoints = [] ∨
    (env.missed d.content env.plan.keyPoints).length < retryMinMissed ∨
    ∃ kpDrafts, gen.keyPoints = some kpDrafts ∧
      ∀ k ∈ (survivors env.validChunkIds (kpDrafts.map (normalizeDraft env.plan))).head?,
        (env.missed d.content env.plan.keyPoints).length ≤
          (env.missed k.content env.plan.keyPoints).length

/-- All first drafts are excluded, and the next ones stay. -/
def RetryKept (env : WriteEnv) (gen : Generated) (retryDrafts : List Draft) : Prop :=
  (∃ first, gen.first = some first ∧
    survivors env.validChunkIds (first.map (normalizeDraft env.plan)) = []) ∧
  env.retryOnEmpty ∧ gen.retry = some retryDrafts ∧ KeptByKeyPoints env gen retryDrafts

/-- The spacing of the marks is settled in what comes from `_normalize`. -/
theorem Normalized.spacing (h : Normalized plan d) :
    normalizeMarkerSpacing d.content = d.content := by
  obtain ⟨t, ht⟩ := h
  rw [ht, normalize, normalize_eq, normalize_eq]
  exact margin_idem _

theorem normalized_of_map (h : d ∈ drafts.map (normalizeDraft plan)) : Normalized plan d := by
  obtain ⟨d', -, rfl⟩ := List.mem_map.mp h
  exact ⟨d'.content, rfl⟩

theorem afterRetry_cases (h : afterRetry env gen drafts = some out) :
    out = drafts ∨ survivors env.validChunkIds drafts = [] ∧ env.retryOnEmpty ∧
      gen.retry = some out := by
  unfold afterRetry at h
  split at h
  · rename_i hempty
    obtain ⟨retryDrafts, hretry, h⟩ := Option.bind_eq_some_iff.mp h
    obtain rfl := Option.some.inj h
    split
    · exact .inr ⟨hempty.1, hempty.2, hretry⟩
    · exact .inl rfl
  · exact .inl (Option.some.inj h).symm

theorem afterRetry_adopted (hempty : survivors env.validChunkIds drafts = [])
    (hon : env.retryOnEmpty) (hretry : gen.retry = some retryDrafts)
    (hsome : survivors env.validChunkIds retryDrafts ≠ []) :
    afterRetry env gen drafts = some retryDrafts := by
  rw [afterRetry, if_pos ⟨hempty, hon⟩, hretry]
  simp [hsome]

theorem afterKeyPoints_cases (h : afterKeyPoints env gen drafts = some out) :
    out = drafts ∧ KeptByKeyPoints env gen drafts ∨
      ∃ kpDrafts : List Draft, out = kpDrafts.map (normalizeDraft env.plan) := by
  unfold afterKeyPoints at h
  cases hs : survivors env.validChunkIds drafts with
  | nil =>
    rw [hs] at h
    exact .inl ⟨(Option.some.inj h).symm, by simp [KeptByKeyPoints, hs]⟩
  | cons d ds =>
    rw [hs] at h
    have hkept : (env.plan.keyPoints = [] ∨
        (env.missed d.content env.plan.keyPoints).length < retryMinMissed ∨
        ∃ kpDrafts, gen.keyPoints = some kpDrafts ∧
          ∀ k ∈ (survivors env.validChunkIds (kpDrafts.map (normalizeDraft env.plan))).head?,
            (env.missed d.content env.plan.keyPoints).length ≤
              (env.missed k.content env.plan.keyPoints).length) →
        KeptByKeyPoints env gen drafts := by
      intro hwhy d' hd'
      rw [hs] at hd'
      obtain rfl := Option.some.inj hd'
      exact hwhy
    dsimp only at h
    split at h
    · obtain ⟨kps, hkps, h⟩ := Option.bind_eq_some_iff.mp h
      obtain rfl := Option.some.inj h
      cases hk : survivors env.validChunkIds (kps.map (normalizeDraft env.plan)) with
      | nil => exact .inl ⟨rfl, hkept (.inr (.inr ⟨kps, hkps, by simp [hk]⟩))⟩
      | cons k ks =>
        dsimp only
        split
        · exact .inr ⟨kps, rfl⟩
        · rename_i hnot
          refine .inl ⟨rfl, hkept (.inr (.inr ⟨kps, hkps, ?_⟩))⟩
          intro k' hk'
          rw [hk] at hk'
          obtain rfl := Option.some.inj hk'
          exact Nat.le_of_not_lt hnot
    · rename_i hnot
      refine .inl ⟨(Option.some.inj h).symm, hkept ?_⟩
      by_cases hpoints : env.plan.keyPoints = []
      · exact .inl hpoints
      · exact .inr (.inl (Nat.lt_of_not_le fun hmany => hnot ⟨hpoints, hmany⟩))

theorem afterKeyPoints_kept (h : KeptByKeyPoints env gen drafts) :
    afterKeyPoints env gen drafts = some drafts := by
  unfold afterKeyPoints
  cases hs : survivors env.validChunkIds drafts with
  | nil => rfl
  | cons d ds =>
    have hd := h d (by rw [hs]; rfl)
    dsimp only
    split
    · rename_i htry
      obtain hpoints | hfew | ⟨kps, hkps, hworse⟩ := hd
      · exact absurd hpoints htry.1
      · exact absurd htry.2 (Nat.not_le_of_lt hfew)
      · rw [hkps]
        cases hk : survivors env.validChunkIds (kps.map (normalizeDraft env.plan)) with
        | nil => simp [hk]
        | cons k ks =>
          have hle := hworse k (by rw [hk]; rfl)
          simp [hk, Nat.not_lt_of_le hle]
    · rfl

/-- A section under no key points, with a new try after an empty gate. -/
def plainEnv : WriteEnv where
  plan := ⟨⟨"000000000000000000000000000000f2".toList, by decide, by decide⟩, 1, 1, "t".toList,
    [], [], [], [], [], [], none, none⟩
  validChunkIds := []
  retryOnEmpty := true
  missed _ _ := []

/-- A draft of the text, cut off for the reason. -/
def draftOf (content reason : String) : Draft :=
  ⟨⟨plainEnv.plan.sectionId, content.toList, [], [], false, false⟩, reason.toList⟩

end RownRg.Retries

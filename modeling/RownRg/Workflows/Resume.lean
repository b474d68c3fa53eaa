import RownRg.Lib.Runs
import RownRg.Workflows.Runner

/-! Where a stopped run is taken up again. -/
namespace RownRg.Workflows

open Derive Pipeline ProjectStage

variable {r t : Runner} {e : Event} {project : Project} {artefacts : Artefacts}
  {stage q : ProjectStage} {phase : Phase} {entered clear reopen : Bool} {gate : ReviewGate}
  {decision : Option Decision} {reviews : List ReviewPoint}

/-- The stage that must have been reached for a status to be taken up: a display status owes
the stage its phase starts from, and a stage with a gate behind it owes one less. -/
def restsOn : ProjectStage → ProjectStage
  | researching => planning
  | indexing => planning
  | writing => indexing
  | reviewing => reviewing
  | completed => completed
  | _ => created

/-- What the artefacts show was reached. -/
def Reflects (artefacts : Artefacts) (reached : ProjectStage) : Prop :=
  (0 < artefacts.nWritten → NotLater reviewing reached) ∧
  (0 < artefacts.nChunks → NotLater indexing reached) ∧
  (0 < artefacts.nSources → NotLater planning reached)

instance : Decidable (Reflects artefacts q) :=
  inferInstanceAs (Decidable (_ ∧ _ ∧ _))

/-- The stage a gate is opened at. -/
def openedAt : ReviewGate → ProjectStage
  | .designBrief => planning
  | .sourcePool => researching

/-- A gate was opened only when its phase had returned. -/
def GateBacked (reviews : List ReviewPoint) (reached : ProjectStage) : Prop :=
  ∀ gate ∈ reviews.map (·.gate), NotLater (openedAt gate) reached

/-- No gate, status or resume point stands further than the phases have come. -/
structure Backed (r : Runner) : Prop where
  onSpine : NotLater created r.reached
  gates : GateBacked r.reviews r.reached
  status : NotLater (restsOn (standing r.project)) r.reached
  finalized : r.project.completedAt → r.project.status = completed
  resume : ∀ s, r.project.resumeFrom = some s →
    s = researching ∧ r.project.status ≠ completed ∧ r.reached = completed

/-- A run walks no further than the phases have come. -/
structure Walks (r : Runner) (stage : ProjectStage) (phase : Option Phase) : Prop where
  position : NotLater stage r.reached
  resumed : r.project.resumeFrom = none
  inside : ∀ p ∈ phase, phaseFor stage = some p ∧ NotLater (restsOn (standing r.project)) stage
  atEnd : r.project.status = completed → stage = completed
  idle : phaseFor stage = none → stage ≠ completed → standing r.project = stage ∧ stage ≠ writing

/-- A round opens a gate that its phase has opened before. -/
def RoundBacked (reached : ProjectStage) : Round → Prop
  | .replan => NotLater (openedAt .designBrief) reached
  | .collectMore true => NotLater (openedAt .sourcePool) reached
  | _ => True

def JobBacked (r : Runner) : Option Job → Prop
  | some (.running stage phase _) => Walks r stage phase
  | some (.working round) => RoundBacked r.reached round
  | some (.queued (.round round)) => RoundBacked r.reached round
  | _ => True

/-- Every project stands where its phases have brought it, and so does its job. -/
def Sound (r : Runner) : Prop := Backed r ∧ JobBacked r r.job

theorem sound_new : Sound (Runner.new artefacts) := by
  have hs : NotLater created created := by decide
  refine ⟨⟨hs, ?_, hs, ?_, ?_⟩, trivial⟩ <;> simp [Runner.new, GateBacked]

theorem GateBacked.resolved (h : GateBacked reviews q) (hr : hasResolved reviews gate = true) :
    NotLater (openedAt gate) q := by
  obtain ⟨review, hm, hg⟩ := List.any_eq_true.mp hr
  simp only [Bool.and_eq_true, decide_eq_true_eq] at hg
  exact h gate (List.mem_map.mpr ⟨review, hm, hg.1⟩)

/-- A stage with no place on the spine is later than none. -/
theorem notLater_of_position (h : position stage = none) : NotLater stage q := by
  simp [NotLater, h]

/-- A stage is safe to start from once the stage it rests on has been reached, the gate of
the two earliest being looked up first. -/
theorem GateBacked.normalize (h : GateBacked reviews q) (hs : NotLater created q)
    (hr : stage = researching → NotLater planning q)
    (ho : stage ≠ planning → stage ≠ researching → NotLater stage q) :
    NotLater (normalizeResumeStage reviews stage) q := by
  unfold normalizeResumeStage
  split
  · split
    · exact h.resolved ‹_›
    · exact hs
  · split
    · split
      · exact h.resolved ‹_›
      · exact hr ‹_›
    · exact ho ‹_› ‹_›

/-- The next run starts no later than the phases have come. -/
theorem Backed.notLater_startStage (h : Backed r) : NotLater (startStage r) r.reached := by
  cases hf : r.project.resumeFrom with
  | some s =>
    obtain ⟨rfl, -, hc⟩ := h.resume s hf
    have hp : NotLater planning r.reached := by
      rw [hc]
      decide
    refine h.gates.normalize h.onSpine (fun _ => hp) ?_
    rw [stateFromProject_resume hf]
    exact fun _ hne => absurd rfl hne
  | none =>
    have hs := h.status
    apply h.gates.normalize h.onSpine
    · rw [stateFromProject_standing hf]
      cases hq : standing r.project <;> simp_all [restsOn]
    · rw [stateFromProject_standing hf]
      cases hq : standing r.project <;> simp_all [restsOn, notLater_of_position, position, spine,
        PHASES, h.onSpine]

/-! Reading the stage back. -/

theorem standing_setStatus (h : stage ≠ cancelled) :
    standing (setStatus project stage) = stage := by
  simp [standing, h]

theorem finalized_setStatus (h : project.completedAt → project.status = completed)
    (hc : (setStatus project stage).completedAt) : stage = completed := by
  unfold setStatus at hc
  split at hc
  · simp_all
  · by_cases hs : stage = completed
    · exact hs
    · by_cases hp : project.status = completed <;> simp_all

/-- The job is gone and the stage has been read back from the artefacts. -/
def Settles (r t : Runner) : Prop :=
  t = { r with
    project := syncProjectStage r.project r.artefacts false
    job := none
    cancelRequested := t.cancelRequested }

/-- The artefacts of a project that is not cancelled show no more than was reached. -/
def Aligned (r : Runner) : Prop :=
  r.project.status ∉ terminalStages → Reflects r.artefacts r.reached

instance : Decidable (Aligned r) := inferInstanceAs (Decidable (_ → _))

theorem settles_leave : Settles r (leave r clear) := by
  cases clear <;> rfl

theorem reflects_completed : Reflects artefacts completed := by
  refine ⟨fun _ => ?_, fun _ => ?_, fun _ => ?_⟩ <;> decide

/-- Reading the stage back keeps a project in step when its artefacts do. -/
theorem Backed.sync (h : Backed r) (ha : Aligned r) :
    Backed { r with project := syncProjectStage r.project r.artefacts false } := by
  by_cases ht : r.project.status ∈ terminalStages
  · rw [syncProjectStage_terminal ht]
    exact h
  by_cases hc : r.project.completedAt = true
  · have hs : syncProjectStage r.project r.artefacts false = r.project := by
      rw [syncProjectStage, deriveStage_finalized ht hc, ← h.finalized hc, setStatus_self]
    rw [hs]
    exact h
  obtain ⟨hw, hk, hn⟩ := ha ht
  have hd : ∀ stage, deriveStage r.project (collectFacts r.project r.artefacts) false = stage →
      stage ≠ cancelled ∧ stage ≠ completed ∧ NotLater (restsOn stage) r.reached := by
    rintro stage rfl
    simp only [deriveStage, if_neg ht, collectFacts, hc]
    split_ifs <;> simp_all [restsOn, h.onSpine]
  obtain ⟨hn, hf, hr⟩ := hd _ rfl
  refine ⟨h.onSpine, h.gates, ?_, ?_, ?_⟩
  · simpa [syncProjectStage, standing_setStatus hn] using hr
  · intro hc
    exact absurd (finalized_setStatus h.finalized hc) hf
  · intro s hs
    obtain ⟨hs, -, hq⟩ := h.resume s (by simpa [syncProjectStage] using hs)
    exact ⟨hs, by simpa [syncProjectStage] using hf, hq⟩

theorem Backed.settle (h : Backed r) (hs : Settles r t) (ha : Aligned t) : Sound t := by
  rw [hs] at ha ⊢
  have ha : Aligned r := fun ht => ha (by rwa [terminal_sync])
  obtain ⟨h1, h2, h3, h4, h5⟩ := h.sync ha
  exact ⟨⟨h1, h2, h3, h4, h5⟩, trivial⟩

theorem stateFromProject_sync (hf : project.resumeFrom = none)
    (hs : deriveStage project (collectFacts project artefacts) false = stage)
    (hc : stage ≠ cancelled) :
    stateFromProject (syncProjectStage project artefacts false) =
      if stage = writing then indexing else if stage = indexing then researching else stage := by
  rw [stateFromProject_standing (by simpa [syncProjectStage] using hf), syncProjectStage, hs,
    standing_setStatus hc]

/-- The stage read back from the artefacts starts no earlier than they show. -/
theorem reflects_of_normalize (hf : project.resumeFrom = none)
    (ht : project.status ∉ terminalStages) (hc : project.completedAt ≠ true)
    (hn : NotLater (normalizeResumeStage reviews
      (stateFromProject (syncProjectStage project artefacts false))) q) :
    Reflects artefacts q := by
  have hd : deriveStage project (collectFacts project artefacts) false =
      if 0 < artefacts.nWritten then reviewing
      else if 0 < artefacts.nChunks then writing
      else if 0 < artefacts.nSources then researching
      else if artefacts.hasBrief then planning else created := by
    simp [deriveStage, ht, collectFacts, hc]
  by_cases hw : 0 < artefacts.nWritten
  · rw [if_pos hw] at hd
    rw [stateFromProject_sync hf hd (by decide)] at hn
    have hn : NotLater reviewing q := hn
    exact ⟨fun _ => hn, fun _ => NotLater.trans (by decide) hn, fun _ => NotLater.trans (by decide) hn⟩
  rw [if_neg hw] at hd
  by_cases hk : 0 < artefacts.nChunks
  · rw [if_pos hk] at hd
    rw [stateFromProject_sync hf hd (by decide)] at hn
    have hn : NotLater indexing q := hn
    exact ⟨fun h => absurd h hw, fun _ => hn, fun _ => NotLater.trans (by decide) hn⟩
  rw [if_neg hk] at hd
  refine ⟨fun h => absurd h hw, fun h => absurd h hk, fun hs => ?_⟩
  rw [if_pos hs] at hd
  rw [stateFromProject_sync hf hd (by decide)] at hn
  cases hr : hasResolved reviews .sourcePool with
  | false => simpa [normalizeResumeStage, hr] using hn
  | true =>
    have hn : NotLater researching q := by simpa [normalizeResumeStage, hr] using hn
    exact NotLater.trans (by decide) hn

/-- A stopped project that starts no later than its phases have come has artefacts that show
no more. -/
theorem Backed.aligned (h : Backed r) (hs : Settles r t)
    (hn : NotLater (startStage t) t.reached) : Aligned t := by
  rw [hs] at hn ⊢
  intro ht
  rw [terminal_sync] at ht
  cases hf : r.project.resumeFrom with
  | some s =>
    change Reflects r.artefacts r.reached
    rw [(h.resume s hf).2.2]
    exact reflects_completed
  | none =>
    by_cases hc : r.project.completedAt = true
    · have hq := h.status
      rw [standing, h.finalized hc] at hq
      change Reflects r.artefacts r.reached
      rw [eq_completed hq]
      exact reflects_completed
    · exact reflects_of_normalize hf ht hc hn

/-! What each move of the runner keeps. -/

/-- Either the job left and the stage was read back, or it goes on. -/
def Moves (t : Runner) : Prop := (∃ r, Backed r ∧ Settles r t) ∨ t.job ≠ none ∧ Sound t

theorem moves_leave (h : Backed r) : Moves (leave r clear) := .inl ⟨r, h, settles_leave⟩

theorem backed_addReview (h : Backed r) (hg : NotLater (openedAt gate) r.reached) :
    Backed (addReview r gate decision) := by
  refine ⟨h.onSpine, ?_, h.status, h.finalized, h.resume⟩
  intro g hm
  rcases List.mem_cons.mp hm with rfl | hm
  · exact hg
  · exact h.gates g hm

/-- The ORM moves a project to a stage it has come to. -/
theorem backed_setStatus (h : Backed r) (hc : stage ≠ cancelled)
    (hs : NotLater (restsOn stage) r.reached)
    (hr : r.project.resumeFrom = none ∨ stage ≠ completed) :
    Backed { r with project := setStatus r.project stage } := by
  refine ⟨h.onSpine, h.gates, by rwa [standing_setStatus hc], ?_, ?_⟩
  · intro hd
    simpa using finalized_setStatus h.finalized hd
  · intro s hf
    obtain ⟨rfl, -, hq⟩ := h.resume s (by simpa using hf)
    rcases hr with hr | hr
    · simp [hr] at hf
    · exact ⟨rfl, by simpa using hr, hq⟩

theorem backed_cancelProject (h : Backed r) : Backed (cancelProject r) := by
  have hg : GateBacked (resolvePending r.reviews) r.reached := by
    unfold GateBacked
    rw [gates_resolvePending]
    exact h.gates
  refine ⟨h.onSpine, hg, ?_, ?_, ?_⟩
  · have hs := h.status
    have he : standing (cancelProject r).project = r.project.status := by
      simp [standing, cancelProject]
    by_cases hc : r.project.status = cancelled
    · rw [he, hc]
      exact h.onSpine
    · rw [he]
      rwa [standing, if_neg hc] at hs
  · intro hd
    exact absurd (finalized_setStatus (by exact h.finalized) hd) (by decide)
  · intro s hf
    obtain ⟨rfl, hn, hq⟩ := h.resume s (by simpa [cancelProject] using hf)
    exact ⟨rfl, by simp [cancelProject], hq⟩

/-- A display status rests on the stage its phase starts from. -/
theorem restsOn_running (h : phase ∈ PHASES) : NotLater (restsOn phase.running) phase.when := by
  simp only [PHASES, List.mem_cons, List.not_mem_nil, or_false] at h
  rcases h with rfl | rfl | rfl | rfl | rfl <;> decide

theorem running_open (h : phase ∈ PHASES) : phase.running ≠ cancelled ∧ phase.running ≠ completed := by
  simp only [PHASES, List.mem_cons, List.not_mem_nil, or_false] at h
  rcases h with rfl | rfl | rfl | rfl | rfl <;> decide

theorem created_notLater_advanceTo (h : phase ∈ PHASES) : NotLater created phase.advanceTo := by
  simp only [PHASES, List.mem_cons, List.not_mem_nil, or_false] at h
  rcases h with rfl | rfl | rfl | rfl | rfl <;> decide

theorem planning_notLater_advanceTo (h : phase ∈ PHASES) : NotLater planning phase.advanceTo := by
  simp only [PHASES, List.mem_cons, List.not_mem_nil, or_false] at h
  rcases h with rfl | rfl | rfl | rfl | rfl <;> decide

theorem researching_notLater_advanceTo (h : phase ∈ PHASES) (hr : phase.run ≠ .planBrief) :
    NotLater researching phase.advanceTo := by
  simp only [PHASES, List.mem_cons, List.not_mem_nil, or_false] at h
  rcases h with rfl | rfl | rfl | rfl | rfl <;> first | exact absurd rfl hr | decide

theorem advanceTo_phase (h : phase ∈ PHASES) (he : phase.advanceTo ≠ completed) :
    (phaseFor phase.advanceTo).isSome := by
  simp only [PHASES, List.mem_cons, List.not_mem_nil, or_false] at h
  rcases h with rfl | rfl | rfl | rfl | rfl <;> first | rfl | exact absurd rfl he

theorem restsOn_advanceTo (h : phase ∈ PHASES) :
    NotLater (restsOn phase.advanceTo) phase.advanceTo ∧ phase.advanceTo ≠ cancelled := by
  simp only [PHASES, List.mem_cons, List.not_mem_nil, or_false] at h
  rcases h with rfl | rfl | rfl | rfl | rfl <;> decide

/-- The gate a phase ends in is the gate that its return opens. -/
theorem opened_advanceTo (h : phase ∈ PHASES) (hg : phase.gate reopen = some gate) :
    NotLater (openedAt gate) phase.advanceTo := by
  simp only [PHASES, List.mem_cons, List.not_mem_nil, or_false] at h
  rcases h with rfl | rfl | rfl | rfl | rfl <;> cases reopen <;> cases hg <;> decide

theorem normalize_idle (hp : phaseFor (normalizeResumeStage reviews stage) = none) :
    normalizeResumeStage reviews stage = stage ∧ phaseFor stage = none := by
  unfold normalizeResumeStage at *
  split_ifs at * <;> simp_all [phaseFor, PHASES]

/-- A run that finds no phase starts at the stage the project stands on. -/
theorem startStage_idle (h : Backed r) (hp : phaseFor (startStage r) = none) :
    standing r.project = startStage r ∧ startStage r ≠ writing := by
  obtain ⟨he, hp⟩ := normalize_idle hp
  unfold startStage
  rw [he]
  cases hf : r.project.resumeFrom with
  | some s =>
    rw [(h.resume s hf).1] at hf
    rw [stateFromProject_resume hf] at hp
    cases hp
  | none =>
    rw [stateFromProject_standing hf] at *
    cases hs : standing r.project <;> simp_all [phaseFor, PHASES]

theorem startStage_completed (h : Backed r) (hc : r.project.status = completed) :
    startStage r = completed := by
  have hf : r.project.resumeFrom = none := by
    cases hf : r.project.resumeFrom with
    | none => rfl
    | some s => exact absurd hc (h.resume s hf).2.1
  simp [startStage, stateFromProject, hf, hc, normalizeResumeStage]

theorem sound_executeRun (h : Backed r) : Sound (executeRun r) := by
  have hq := h.notLater_startStage
  by_cases hc : r.project.status = created
  · have he := executeRun_created hc
    have hs : standing (executeRun r).project = planning := by
      rw [he]
      exact standing_setStatus (by decide)
    refine ⟨⟨h.onSpine, h.gates, ?_, ?_, ?_⟩, hq, ?_, ?_, ?_, ?_⟩
    · rw [hs]
      exact h.onSpine
    · rw [he]
      intro hd
      exact absurd (finalized_setStatus (by exact h.finalized) hd) (by decide)
    · simp [he]
    · simp [he]
    · simp
    · simp [he]
    · intro hp _
      have := startStage_idle h hp
      rw [standing, hc] at this
      simp_all [phaseFor, PHASES, this.1.symm]
  · have he := executeRun_project hc
    refine ⟨⟨h.onSpine, h.gates, ?_, ?_, ?_⟩, hq, ?_, ?_, ?_, ?_⟩
    · rw [he]
      exact h.status
    · rw [he]
      exact h.finalized
    · simp [he]
    · simp [he]
    · simp
    · rw [he]
      exact startStage_completed h
    · rw [he]
      exact fun hp _ => startStage_idle h hp

/-- The display write of a phase that is about to run. -/
theorem backed_showStatus (h : Backed r) (hc : stage ≠ cancelled) (he : stage ≠ completed)
    (hs : NotLater (restsOn stage) r.reached) (hn : r.project.status ≠ completed) :
    Backed (showStatus r stage) := by
  refine ⟨h.onSpine, h.gates, ?_, ?_, ?_⟩
  · simpa [standing, showStatus, hc] using hs
  · intro hd
    exact absurd (h.finalized hd) hn
  · intro s hf
    obtain ⟨rfl, -, hq⟩ := h.resume s hf
    exact ⟨rfl, he, hq⟩

theorem loopHead_phase (hc : r.cancelRequested = false) (hp : phaseFor stage = some phase) :
    loopHead r stage entered =
      { showStatus r phase.running with job := some (.running stage (some phase) entered) } := by
  simp [loopHead, hc, hp]

theorem loopHead_done (hc : r.cancelRequested = false) (hp : phaseFor stage = none) :
    loopHead r stage entered = leave { r with project := setStatus r.project stage } true := by
  unfold loopHead
  rw [if_neg (by simp [hc]), hp]

theorem moves_loopHead (hb : Backed r) (h : Walks r stage none) :
    Moves (loopHead r stage entered) := by
  cases hq : r.cancelRequested with
  | true =>
    simp only [loopHead, hq, if_true]
    exact moves_leave (backed_cancelProject hb)
  | false =>
  cases hp : phaseFor stage with
  | none =>
    rw [loopHead_done hq hp]
    by_cases hc : stage = cancelled
    · have hs := (h.idle hp (by simp [hc])).1
      have : r.project.status = cancelled := by
        by_contra hn
        rw [standing, if_neg hn, hc] at hs
        exact hn hs
      rw [hc, ← this, setStatus_self]
      exact moves_leave hb
    · refine moves_leave (backed_setStatus hb hc ?_ (.inl h.resumed))
      by_cases he : stage = completed
      · exact he ▸ h.position
      · have hw := (h.idle hp he).2
        cases stage <;> simp_all [restsOn, phaseFor, PHASES, hb.onSpine]
  | some phase =>
    rw [loopHead_phase hq hp]
    obtain ⟨hm, hw⟩ := phase_mem hp
    obtain ⟨hc, he⟩ := running_open hm
    have hr : NotLater (restsOn phase.running) stage := hw ▸ restsOn_running hm
    have hn : r.project.status ≠ completed := by
      intro hd
      rw [h.atEnd hd, phaseFor_completed] at hp
      cases hp
    obtain ⟨h1, h2, h3, h4, h5⟩ := backed_showStatus hb hc he (hr.trans h.position) hn
    refine .inr ⟨by simp, ⟨h1, h2, h3, h4, h5⟩, h.position, h.resumed, ?_, ?_, ?_⟩
    · intro p hm
      cases hm
      exact ⟨hp, by simpa [standing, showStatus, hc] using hr⟩
    · exact fun hd => absurd hd he
    · exact fun hd => by simp [hp] at hd

theorem moves_phaseReturned (hb : Backed r) (h : Walks r stage (some phase))
    (ha : phase.run = .planBrief → ∀ review ∈ r.reviews, review.gate ≠ .sourcePool) :
    Moves (phaseReturned r phase entered reopen) := by
  obtain ⟨hp, hs⟩ := h.inside phase rfl
  obtain ⟨hm, hw⟩ := phase_mem hp
  obtain ⟨hr, hc⟩ := restsOn_advanceTo hm
  have hq : NotLater stage phase.advanceTo := hw ▸ when_notLater hm
  have hn : r.project.status ≠ completed := by
    intro hd
    rw [h.atEnd hd, phaseFor_completed] at hp
    cases hp
  have hb : Backed { r with reached := phase.advanceTo } := by
    refine ⟨created_notLater_advanceTo hm, ?_, hs.trans hq, hb.finalized, ?_⟩
    · intro gate hg
      cases gate with
      | designBrief => exact planning_notLater_advanceTo hm
      | sourcePool =>
        obtain ⟨review, hv, he⟩ := List.mem_map.mp hg
        exact researching_notLater_advanceTo hm fun hr => ha hr review hv he
    · intro s hf
      simp [h.resumed] at hf
  unfold phaseReturned
  cases hg : phase.gate reopen with
  | some gate =>
    have hb := backed_setStatus hb hc hr (.inl h.resumed)
    exact moves_leave (backed_addReview hb (opened_advanceTo hm hg))
  | none =>
    obtain ⟨h1, h2, h3, h4, h5⟩ := hb
    refine .inr ⟨by simp, ⟨h1, h2, h3, h4, h5⟩, notLater_refl, h.resumed, by simp, ?_, ?_⟩
    · exact fun hd => absurd hd hn
    · intro hd he
      have := advanceTo_phase hm he
      rw [hd] at this
      cases this

theorem moves_runFailed (h : Backed r) : Moves (runFailed r entered) := by
  unfold runFailed
  split
  · rename_i hc
    simp only [Bool.and_eq_true, decide_eq_true_eq] at hc
    have hn : r.project.status ≠ completed := by simp [hc.2]
    exact moves_leave (backed_showStatus h (by decide) (by decide) h.onSpine hn)
  · exact moves_leave h

theorem moves_roundDone (h : Backed r) {round : Round} (hr : RoundBacked r.reached round)
    (hf : round = .refresh → NotLater (openedAt .designBrief) r.reached) :
    Moves (roundDone r round) := by
  cases round with
  | replan =>
    unfold roundDone
    exact moves_leave (backed_addReview h hr)
  | refresh =>
    unfold roundDone
    exact moves_leave (backed_addReview h (hf rfl))
  | collectMore reopenGate =>
    cases reopenGate with
    | false => exact (moves_leave h : Moves (leave r false))
    | true =>
      unfold roundDone
      exact moves_leave (backed_addReview h hr)

/-! What a human's answer keeps. -/

variable {action : Action}

theorem backed_resolveGate (h : Backed r) : Backed (resolveGate r gate action) := by
  have hg : GateBacked (resolveLatest (.decided action) r.reviews) r.reached := by
    unfold GateBacked
    rw [gates_resolveLatest]
    exact h.gates
  unfold resolveGate
  split
  · rename_i hc
    have hs : NotLater (restsOn researching) r.reached := by
      have := h.status
      rwa [standing, hc.2] at this
    obtain ⟨h1, h2, h3, h4, h5⟩ := backed_setStatus h (by decide) hs (.inr (by decide))
    exact ⟨h1, hg, h3, h4, h5⟩
  · exact ⟨h.onSpine, hg, h.status, h.finalized, h.resume⟩

theorem walks_resolveGate {phase : Option Phase} (h : Walks r stage phase) :
    Walks (resolveGate r gate action) stage phase := by
  unfold resolveGate
  split
  · rename_i hc
    have hs : standing r.project = indexing := by simp [standing, hc.2]
    refine ⟨h.position, by simp [h.resumed], ?_, by simp, ?_⟩
    · intro p hp
      obtain ⟨hf, hr⟩ := h.inside p hp
      rw [hs] at hr
      exact ⟨hf, by rwa [standing_setStatus (by decide)]⟩
    · intro hp he
      have := (h.idle hp he).1
      rw [hs] at this
      subst this
      cases hp
  · exact ⟨h.position, h.resumed, h.inside, h.atEnd, h.idle⟩

theorem sound_resolveGate (h : Sound r) : Sound (resolveGate r gate action) := by
  refine ⟨backed_resolveGate h.1, ?_⟩
  have hj := h.2
  change JobBacked _ r.job
  cases hr : r.job with
  | none => trivial
  | some job =>
    rw [hr] at hj
    cases job with
    | queued work => cases work <;> exact hj
    | working round => exact hj
    | running stage phase entered => exact walks_resolveGate hj

theorem pending_opened (h : Backed r) (hg : getPendingGate r = some gate) :
    NotLater (openedAt gate) r.reached := by
  obtain ⟨review, hf, rfl⟩ := Option.map_eq_some_iff.mp hg
  exact h.gates _ (List.mem_map_of_mem (List.mem_of_find?_eq_some hf))

theorem sound_spawnLimited {work : Work} (h : Sound r)
    (hw : ∀ round, work = .round round → RoundBacked r.reached round) :
    Sound (spawnLimited r work) := by
  unfold spawnLimited
  split
  · exact h
  · obtain ⟨⟨h1, h2, h3, h4, h5⟩, -⟩ := h
    refine ⟨⟨h1, h2, h3, h4, h5⟩, ?_⟩
    cases work with
    | full => trivial
    | round round => exact hw round rfl

theorem roundBacked_nextWork {round : Round} (h : NotLater (openedAt gate) q)
    (hw : nextWork gate action = .round round) : RoundBacked q round := by
  cases gate <;> cases action <;> cases hw
  · exact h
  · exact h

theorem sound_resumeRun (h : Sound r) (hg : getPendingGate r = some gate) :
    Sound (resumeRun r gate action) := by
  have ho := pending_opened h.1 hg
  exact sound_spawnLimited (sound_resolveGate h) fun _ => roundBacked_nextWork (q := r.reached) ho

theorem deriveStage_not_finalized (facts : ProjectFacts) (ht : project.status ∉ terminalStages)
    (hf : facts.finalized = false) :
    deriveStage project facts false ≠ completed ∧ deriveStage project facts false ≠ cancelled := by
  simp only [deriveStage, if_neg ht, hf]
  split_ifs <;> simp_all

theorem restsOn_completed : NotLater (restsOn stage) completed := by
  cases stage <;> decide

theorem openedAt_completed : NotLater (openedAt gate) completed := by
  cases gate <;> decide

theorem sound_reopenProject (h : Sound r) (hs : r.project.status = completed)
    (hj : ∀ stage phase entered, r.job ≠ some (.running stage phase entered)) :
    Sound (reopenProject r) := by
  have hq : r.reached = completed := by
    have := h.1.status
    rw [standing, hs] at this
    exact eq_completed this
  let project : Project :=
    { r.project with completedAt := false, resumeFrom := some researching }
  have ht : project.status ∉ terminalStages := by simp [project, hs, terminalStages]
  obtain ⟨hn, hc⟩ := deriveStage_not_finalized (collectFacts project r.artefacts) ht rfl
  refine ⟨⟨?_, ?_, ?_, ?_, ?_⟩, ?_⟩
  · exact h.1.onSpine
  · intro review _
    change NotLater _ r.reached
    rw [hq]
    exact openedAt_completed
  · change NotLater _ r.reached
    rw [hq]
    exact restsOn_completed
  · intro hd
    exact absurd (finalized_setStatus (show project.completedAt → _ by simp [project]) hd) hn
  · intro s hs
    refine ⟨?_, ?_, hq⟩
    · simpa [reopenProject, addReview, syncProjectStage, project] using hs.symm
    · simpa [reopenProject, addReview, syncProjectStage, project] using hn
  · change JobBacked _ r.job
    have hw := h.2
    cases hr : r.job with
    | none => trivial
    | some job =>
      rw [hr] at hw
      cases job with
      | queued work => cases work <;> exact hw
      | working round => exact hw
      | running stage phase entered => exact absurd hr (hj stage phase entered)

/-! Whole histories. -/

/-- The plan is not made again once sources were put to the human; the outline is refreshed
after the plan was made, the report reopened after its run has left. -/
def firstTime (r : Runner) : Event → Bool
  | .finish _ =>
    match r.job with
    | some (.running _ (some phase) _) =>
      phase.run != .planBrief || r.reviews.all (·.gate != .sourcePool)
    | _ => true
  | .done =>
    match r.job with
    | some (.working .refresh) => NotLater planning r.reached
    | _ => true
  | .reopen =>
    match r.job with
    | some (.running _ _ _) => false
    | _ => true
  | _ => true

theorem settles_get (hj : r.job = none) : Settles r (resyncStage r) := by
  unfold Settles resyncStage isRunning
  simp [hj]

theorem sound_congr (h : Sound r) (hp : t.project = r.project) (hr : t.reviews = r.reviews)
    (hq : t.reached = r.reached) (hj : t.job = r.job) : Sound t := by
  obtain ⟨⟨h1, h2, h3, h4, h5⟩, hw⟩ := h
  refine ⟨⟨hq ▸ h1, hr ▸ hq ▸ h2, hp ▸ hq ▸ h3, hp ▸ h4, hp ▸ hq ▸ h5⟩, ?_⟩
  rw [hj]
  cases hk : r.job with
  | none => trivial
  | some job =>
    rw [hk] at hw
    cases job with
    | queued work =>
      cases work with
      | full => trivial
      | round round => simpa only [JobBacked, hq] using hw
    | working round => simpa only [JobBacked, hq] using hw
    | running stage phase entered =>
      obtain ⟨h1, h2, h3, h4, h5⟩ := hw
      exact ⟨hq ▸ h1, hp ▸ h2, hp ▸ h3, hp ▸ h4, hp ▸ h5⟩

theorem resynced_iff (he : e ≠ .get) (hd : e ≠ .die) :
    resynced r e t ↔ r.job ≠ none ∧ t.job = none := by
  cases e <;> simp_all [resynced, isRunning, Option.isSome_iff_ne_none]

theorem not_resynced (he : e ≠ .get) (hj : t.job = none → r.job = none) : ¬ resynced r e t := by
  by_cases hd : e = .die
  · simp [hd, resynced]
  · rw [resynced_iff he hd]
    exact fun h => h.1 (hj h.2)

theorem job_spawnLimited {work : Work} (h : (spawnLimited r work).job = none) : r.job = none := by
  unfold spawnLimited at h
  split at h
  · exact h
  · cases h

theorem job_resumeRun (h : (resumeRun r gate action).job = none) : r.job = none := by
  have : (resolveGate r gate action).job = none := job_spawnLimited h
  exact this

/-- What one event does to a sound project: it reads the stage back from a project in step,
or it leaves the project sound. -/
theorem step_cases (h : Sound r) (hf : firstTime r e) (hs : step r e = some t) :
    (resynced r e t ∧ ∃ r', Backed r' ∧ Settles r' t) ∨ ¬ resynced r e t ∧ Sound t := by
  have moved : Moves t → r.job ≠ none → e ≠ .get → e ≠ .die →
      (resynced r e t ∧ ∃ r', Backed r' ∧ Settles r' t) ∨ ¬ resynced r e t ∧ Sound t := by
    rintro (⟨r', hm, ht⟩ | ⟨hn, hm⟩) hj he hd
    · refine .inl ⟨(resynced_iff he hd).mpr ⟨hj, ?_⟩, r', hm, ht⟩
      rw [ht]
    · exact .inr ⟨not_resynced he fun hj => absurd hj hn, hm⟩
  obtain ⟨hb, hj⟩ := h
  cases e with
  | edit artefacts =>
    cases hs
    exact .inr ⟨not_resynced (by simp) id, sound_congr ⟨hb, hj⟩ rfl rfl rfl rfl⟩
  | get =>
    cases hs
    cases hn : r.job with
    | none => exact .inl ⟨by simp [resynced, isRunning, hn], r, hb, settles_get hn⟩
    | some job =>
      rw [resyncStage_running (by simp [hn])]
      exact .inr ⟨by simp [resynced, isRunning, hn], hb, hj⟩
  | run =>
    simp only [step, Option.ite_none_left_eq_some] at hs
    obtain ⟨-, hs⟩ := hs
    cases hs
    exact .inr ⟨not_resynced (by simp) job_spawnLimited, sound_spawnLimited ⟨hb, hj⟩ (by simp)⟩
  | cancel =>
    simp only [step, Option.ite_none_left_eq_some] at hs
    obtain ⟨-, hs⟩ := hs
    split at hs
    · cases hs
      exact .inr ⟨not_resynced (by simp) id, sound_congr ⟨hb, hj⟩ rfl rfl rfl rfl⟩
    · rename_i hn
      cases hs
      have hn : r.job = none := by simpa [isRunning] using hn
      refine .inr ⟨not_resynced (by simp) id, backed_cancelProject hb, ?_⟩
      simp [cancelProject, hn, JobBacked]
  | decide action =>
    obtain ⟨gate, hg, rfl⟩ := Option.map_eq_some_iff.mp hs
    exact .inr ⟨not_resynced (by simp) job_resumeRun, sound_resumeRun ⟨hb, hj⟩ hg⟩
  | collectMore =>
    cases hs
    refine .inr ⟨not_resynced (by simp) job_spawnLimited, sound_spawnLimited ⟨hb, hj⟩ ?_⟩
    intro round hw
    cases hw
    by_cases hg : getPendingGate r = some .sourcePool
    · simpa [hg, RoundBacked] using pending_opened hb hg
    · simp [hg, RoundBacked]
  | refresh =>
    simp only [step, Option.ite_none_left_eq_some] at hs
    obtain ⟨-, hs⟩ := hs
    cases hs
    refine .inr ⟨not_resynced (by simp) job_spawnLimited, sound_spawnLimited ⟨hb, hj⟩ ?_⟩
    intro round hw
    cases hw
    trivial
  | reopen =>
    simp only [step, Option.ite_none_right_eq_some] at hs
    obtain ⟨hc, hs⟩ := hs
    cases hs
    have hn : ∀ stage phase entered, r.job ≠ some (.running stage phase entered) := by
      intro stage phase entered hw
      simp [firstTime, hw] at hf
    exact .inr ⟨not_resynced (by simp) id, sound_reopenProject ⟨hb, hj⟩ hc hn⟩
  | slot =>
    simp only [step] at hs
    split at hs
    · rename_i work hw
      rw [hw] at hj
      split at hs
      · cases hs
        exact moved (moves_leave hb) (by simp [hw]) (by simp) (by simp)
      · cases work with
        | full =>
          cases hs
          exact .inr ⟨not_resynced (by simp) (by rintro ⟨⟩), sound_executeRun hb⟩
        | round round =>
          cases hs
          obtain ⟨h1, h2, h3, h4, h5⟩ := hb
          exact .inr ⟨not_resynced (by simp) (by simp), ⟨h1, h2, h3, h4, h5⟩, hj⟩
    · cases hs
  | enter =>
    simp only [step] at hs
    split at hs
    · rename_i stage entered hw
      rw [hw] at hj
      cases hs
      exact moved (moves_loopHead hb hj) (by simp [hw]) (by simp) (by simp)
    · cases hs
  | finish reopen =>
    simp only [step] at hs
    split at hs
    · rename_i stage phase entered hw
      have ha : phase.run = .planBrief → ∀ review ∈ r.reviews, review.gate ≠ .sourcePool := by
        simpa [firstTime, hw, or_iff_not_imp_left] using hf
      rw [hw] at hj
      cases hs
      exact moved (moves_phaseReturned hb hj ha) (by simp [hw]) (by simp) (by simp)
    · cases hs
  | observe =>
    simp only [step] at hs
    split at hs
    · rename_i hw
      split at hs
      · cases hs
        exact moved (moves_leave (backed_cancelProject hb)) (by simp [hw]) (by simp) (by simp)
      · cases hs
    · cases hs
  | fail =>
    simp only [step] at hs
    split at hs
    · rename_i hw
      cases hs
      exact moved (moves_runFailed hb) (by simp [hw]) (by simp) (by simp)
    · rename_i hw
      cases hs
      exact moved (moves_leave hb) (by simp [hw]) (by simp) (by simp)
    · cases hs
  | done =>
    simp only [step] at hs
    split at hs
    · rename_i round hw
      have ha : round = .refresh → NotLater (openedAt .designBrief) r.reached := by
        rintro rfl
        have : NotLater planning r.reached := by simpa [firstTime, hw] using hf
        exact this
      rw [hw] at hj
      cases hs
      exact moved (moves_roundDone hb hj ha) (by simp [hw]) (by simp) (by simp)
    · cases hs
  | die =>
    simp only [step, Option.ite_none_right_eq_some] at hs
    obtain ⟨-, hs⟩ := hs
    cases hs
    obtain ⟨h1, h2, h3, h4, h5⟩ := hb
    exact .inr ⟨by simp [resynced], ⟨h1, h2, h3, h4, h5⟩, trivial⟩

/-- One event keeps a project sound when what is read back shows no more than was reached. -/
theorem sound_step (h : Sound r) (hf : firstTime r e) (hs : step r e = some t)
    (ha : resynced r e t → Aligned t) : Sound t := by
  rcases step_cases h hf hs with ⟨hr, r', hb, ht⟩ | ⟨-, ht⟩
  · exact hb.settle ht (ha hr)
  · exact ht

/-- What is read back shows no more than was reached when the next run starts no later. -/
theorem aligned_step (h : Sound r) (hf : firstTime r e) (hs : step r e = some t)
    (hn : NotLater (startStage t) t.reached) (hr : resynced r e t) : Aligned t := by
  rcases step_cases h hf hs with ⟨-, r', hb, ht⟩ | ⟨hr', -⟩
  · exact hb.aligned ht hn
  · exact absurd hr hr'

/-- The next run starts no later than the stage of the last phase that returned. -/
def NeverSkips (r : Runner) : Prop := NotLater (startStage r) r.reached

instance (r : Runner) : Decidable (NeverSkips r) := inferInstanceAs (Decidable (NotLater _ _))

open Runs in
/-- Whenever the stage is read back, the artefacts show no phase that has not returned. -/
theorem neverSkips_iff {es : List Event}
    (hf : Along step (fun r e _ => firstTime r e) (Runner.new artefacts) es) :
    Always step NeverSkips (Runner.new artefacts) es ↔
      Along step (fun r e t => resynced r e t → Aligned t) (Runner.new artefacts) es := by
  have keep : ∀ r e t, step r e = some t →
      firstTime r e = true ∧ (resynced r e t → Aligned t) → Sound r → Sound t :=
    fun _ _ _ hs ⟨hf, ha⟩ h => sound_step h hf hs ha
  constructor
  · intro h
    refine along_of_always ?_ keep sound_new hf h
    exact fun _ _ _ hs hf h hn => aligned_step h hf hs hn
  · intro h
    exact (always_of_step keep sound_new (hf.and h)).mono fun _ h => h.1.notLater_startStage

/-- The plan, the sources and the index of a report whose process died among its first
chunks, and the reading back of its stage. -/
def diedInIndex : List Event :=
  [.run, .slot, .enter, .finish false, .decide .other,
   .slot, .enter, .edit ⟨true, 40, 0, 0⟩, .finish false, .decide .other,
   .slot, .enter, .edit ⟨true, 40, 7, 0⟩, .die, .get]

/-- The same report that came through its index and died after three sections. -/
def diedInWrite : List Event :=
  [.run, .slot, .enter, .finish false, .decide .other,
   .slot, .enter, .edit ⟨true, 40, 0, 0⟩, .finish false, .decide .other,
   .slot, .enter, .edit ⟨true, 40, 90, 0⟩, .finish false,
   .enter, .edit ⟨true, 40, 90, 3⟩, .die, .get]

/-- A report that died among its sources, was cancelled in its index and came through. -/
def cameThrough : List Event :=
  [.run, .slot, .enter, .finish false, .decide .other,
   .slot, .enter, .edit ⟨true, 12, 0, 0⟩, .die, .get, .run,
   .slot, .enter, .edit ⟨true, 40, 0, 0⟩, .finish false, .decide .other,
   .slot, .enter, .edit ⟨true, 40, 7, 0⟩, .cancel, .observe, .run,
   .slot, .enter, .edit ⟨true, 40, 90, 0⟩, .finish false,
   .enter, .edit ⟨true, 40, 90, 9⟩, .finish false, .enter, .finish false, .enter]

open Runs in
theorem neverSkips_cameThrough : Always step NeverSkips (Runner.new ⟨true, 0, 0, 0⟩) cameThrough :=
  (neverSkips_iff (by decide)).mpr (by decide)

open Runs in
/-- Both are taken up one phase too late. -/
theorem skips_died_in_phase :
    ¬ Always step NeverSkips (Runner.new ⟨true, 0, 0, 0⟩) diedInIndex ∧
    ¬ Always step NeverSkips (Runner.new ⟨true, 0, 0, 0⟩) diedInWrite := by
  constructor
  · intro h
    exact absurd (h.last rfl) (by decide)
  · intro h
    exact absurd (h.last rfl) (by decide)

end RownRg.Workflows

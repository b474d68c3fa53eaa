import RownRg.Lib.Runs
import RownRg.Workflows.Runner

/-! What a run may do before a human has approved it. -/
namespace RownRg.Workflows

open Derive Pipeline ProjectStage

/-- An answer lets the project through unless it asks for a round at the same gate. -/
def approves : ReviewGate → Action → Bool
  | .designBrief, .replan => false
  | .sourcePool, .collectMore => false
  | _, _ => true

/-- A human answered at this gate and let the project through. -/
def ReviewPoint.approval (review : ReviewPoint) : Bool :=
  match review.decision with
  | some (.decided action) => approves review.gate action
  | _ => false

def approved (reviews : List ReviewPoint) (gate : ReviewGate) : Bool :=
  reviews.any fun review => review.gate = gate && review.approval

/-- The gates that wait for an answer, the newest first. -/
def pendingGates (reviews : List ReviewPoint) : List ReviewGate :=
  (reviews.filter (·.pending)).map (·.gate)

variable {r t : Runner} {e : Event} {reviews : List ReviewPoint} {review : ReviewPoint}
  {gate g : ReviewGate} {d : Decision} {action : Action} {stage : ProjectStage} {phase : Phase}
  {artefacts : Artefacts} {project : Project}

theorem approved_iff : approved reviews g ↔
    ∃ review ∈ reviews, review.gate = g ∧ review.approval := by
  simp [approved]

theorem getPendingGate_eq : getPendingGate r = (pendingGates r.reviews).head? := by
  simp [getPendingGate, pendingGates, List.head?_filter, List.head?_map]

theorem pendingGates_cons :
    pendingGates (review :: reviews) =
      if review.pending then review.gate :: pendingGates reviews else pendingGates reviews := by
  by_cases h : review.pending <;> simp [pendingGates, h]

theorem mem_pendingGates (h : review ∈ reviews) (hp : review.pending) :
    review.gate ∈ pendingGates reviews := by
  simp only [pendingGates, List.mem_map, List.mem_filter]
  exact ⟨review, ⟨h, hp⟩, rfl⟩

theorem exists_of_mem_pendingGates (h : g ∈ pendingGates reviews) :
    ∃ review ∈ reviews, review.gate = g := by
  simp only [pendingGates, List.mem_map, List.mem_filter] at h
  obtain ⟨review, ⟨hm, -⟩, he⟩ := h
  exact ⟨review, hm, he⟩

/-- An answer takes the newest gate off the list. -/
theorem pendingGates_resolveLatest :
    pendingGates (resolveLatest d reviews) = (pendingGates reviews).tail := by
  induction reviews with
  | nil => rfl
  | cons review reviews ih =>
    by_cases h : review.pending
    · simp only [resolveLatest, pendingGates_cons, if_pos h]
      simp
    · simp only [resolveLatest, pendingGates_cons, if_neg h, ih]

theorem pendingGates_resolvePending : pendingGates (resolvePending reviews) = [] := by
  induction reviews with
  | nil => rfl
  | cons review reviews ih =>
    simp only [resolvePending, List.map_cons, pendingGates_cons] at ih ⊢
    by_cases h : review.pending
    · rw [if_pos h, ih]
      simp
    · rw [if_neg h, ih, if_neg h]

/-- Approvals are never taken back. -/
theorem approved_resolveLatest (h : approved reviews g) : approved (resolveLatest d reviews) g := by
  induction reviews with
  | nil => cases h
  | cons review reviews ih =>
    simp only [approved, List.any_cons, Bool.or_eq_true] at h ih
    simp only [resolveLatest]
    split
    · rename_i hp
      rcases h with h | h
      · simp_all [ReviewPoint.approval, ReviewPoint.pending]
      · simpa [approved] using .inr (by simpa using h)
    · rcases h with h | h
      · simpa [approved] using .inl (by simpa using h)
      · simpa [approved] using .inr (by simpa [approved] using ih h)

theorem approved_resolvePending (h : approved reviews g) : approved (resolvePending reviews) g := by
  obtain ⟨review, hm, hg, ha⟩ := approved_iff.1 h
  refine approved_iff.2 ⟨review, List.mem_map.mpr ⟨review, hm, if_neg ?_⟩, hg, ha⟩
  intro hp
  simp_all [ReviewPoint.approval, ReviewPoint.pending]

theorem approved_cons (h : approved reviews g) : approved (review :: reviews) g := by
  simp only [approved, List.any_cons, Bool.or_eq_true] at h ⊢
  exact .inr h

/-- An answer that lets the project through approves the newest gate. -/
theorem approved_answer (hg : (pendingGates reviews).head? = some gate)
    (ha : approves gate action) :
    approved (resolveLatest (.decided action) reviews) gate := by
  induction reviews with
  | nil => cases hg
  | cons review reviews ih =>
    rw [pendingGates_cons] at hg
    simp only [resolveLatest]
    split
    · rename_i hp
      rw [if_pos hp] at hg
      cases hg
      simp [approved, ReviewPoint.approval, ha]
    · rename_i hp
      rw [if_neg hp] at hg
      exact approved_cons (ih hg)

/-! The gates a project has to have behind it. -/

/-- What a status, once it is taken up, lets run without asking again. -/
def owedByStatus : ProjectStage → List ReviewGate
  | researching => [.designBrief]
  | indexing | writing | reviewing | completed => [.designBrief, .sourcePool]
  | _ => []

/-- What a run standing on a stage has had approved. -/
def owedByStage : ProjectStage → List ReviewGate
  | planning => [.designBrief]
  | researching | indexing | writing | reviewing | completed => [.designBrief, .sourcePool]
  | _ => []

/-- The gate in front of a phase. -/
def gateBefore : PhaseRun → Option ReviewGate
  | .collect => some .designBrief
  | .index => some .sourcePool
  | .write => some .sourcePool
  | _ => none

/-- The gate in front of the phase under way. -/
def gateInFront (r : Runner) : Option ReviewGate :=
  match r.job with
  | some (.running _ (some phase) _) => gateBefore phase.run
  | _ => none

/-- The phase under way has its gate approved. -/
def GatesHold (r : Runner) : Prop := ∀ g ∈ gateInFront r, approved r.reviews g

instance (r : Runner) : Decidable (GatesHold r) :=
  inferInstanceAs (Decidable (∀ g ∈ gateInFront r, approved r.reviews g))

/-- The gate a round is going to open again. -/
def Round.reopens : Round → Option ReviewGate
  | .replan => some .designBrief
  | .collectMore true => some .sourcePool
  | _ => none

def Job.reopens : Job → Option ReviewGate
  | .queued (.round round) => round.reopens
  | .working round => round.reopens
  | _ => none

def Approved (reviews : List ReviewPoint) (gates : List ReviewGate) : Prop :=
  ∀ g ∈ gates, approved reviews g

/-- Every gate that was ever opened. -/
def openedGates (reviews : List ReviewPoint) : List ReviewGate := reviews.map (·.gate)

/-- A round opens the brief's gate when no source gate waits for its approval, the source
gate when there was one. -/
def RoundHonoured (reviews : List ReviewPoint) (round : Round) : Prop :=
  (round.reopens = some .designBrief → .sourcePool ∈ openedGates reviews →
    approved reviews .sourcePool) ∧
  (round.reopens = some .sourcePool → .sourcePool ∈ openedGates reviews)

/-- What a job has behind it. A full run starts when every gate ever opened is approved. -/
def JobHonoured (reviews : List ReviewPoint) : Option Job → Prop
  | none => True
  | some (.queued .full) => Approved reviews (openedGates reviews)
  | some (.running stage phase _) =>
    Approved reviews (openedGates reviews) ∧ Approved reviews (owedByStage stage) ∧
      ∀ p ∈ phase, phaseFor stage = some p
  | some (.queued (.round round)) => RoundHonoured reviews round
  | some (.working round) => RoundHonoured reviews round

/-- Whatever a project may take up, the gates before it were approved. -/
structure ProjectHonoured (project : Project) (reviews : List ReviewPoint) : Prop where
  status : Approved reviews (owedByStatus project.status)
  cancelledFrom : ∀ s ∈ project.cancelledFrom, Approved reviews (owedByStatus s)
  resumeFrom : project.resumeFrom ≠ none → ∀ g, approved reviews g
  finalized : project.completedAt → ∀ g, approved reviews g

/-- A gate that was answered without an approval is still to be answered. -/
structure RowsHonoured (reviews : List ReviewPoint) (job : Option Job) : Prop where
  pool : .sourcePool ∈ openedGates reviews → approved reviews .designBrief
  answered : ∀ g ∈ openedGates reviews, approved reviews g ∨ g ∈ pendingGates reviews ∨
    job.bind Job.reopens = some g
  order : approved reviews .sourcePool = false →
    (pendingGates reviews).Pairwise fun newer older => older = .sourcePool → newer = .sourcePool
  job : JobHonoured reviews job

def Honoured (r : Runner) : Prop :=
  ProjectHonoured r.project r.reviews ∧ RowsHonoured r.reviews r.job

theorem honoured_new : Honoured (Runner.new artefacts) := by
  refine ⟨⟨?_, ?_, ?_, ?_⟩, ?_, ?_, ?_, trivial⟩ <;>
    simp [Runner.new, Approved, owedByStatus, pendingGates, openedGates]

theorem approved_all (h : Approved reviews [.designBrief, .sourcePool]) : approved reviews g := by
  cases g with
  | designBrief => exact h _ (by simp)
  | sourcePool => exact h _ (by simp)

theorem owedByStatus_completed (h : Approved reviews (owedByStatus completed)) :
    approved reviews g := approved_all h

/-! What holds of the columns. -/

variable {reviews' : List ReviewPoint} {job : Option Job} {gates : List ReviewGate}

theorem approved_nil : Approved reviews [] := fun _ hg => absurd hg List.not_mem_nil

theorem Approved.mono (h : Approved reviews gates)
    (hm : ∀ g, approved reviews g → approved reviews' g) : Approved reviews' gates :=
  fun g hg => hm g (h g hg)

theorem ProjectHonoured.mono (h : ProjectHonoured project reviews)
    (hm : ∀ g, approved reviews g → approved reviews' g) : ProjectHonoured project reviews' :=
  ⟨h.status.mono hm, fun s hs => (h.cancelledFrom s hs).mono hm,
    fun hr g => hm g (h.resumeFrom hr g), fun hf g => hm g (h.finalized hf g)⟩

theorem ProjectHonoured.setStatus (h : ProjectHonoured project reviews)
    (hs : Approved reviews (owedByStatus stage)) :
    ProjectHonoured (setStatus project stage) reviews := by
  refine ⟨by simpa using hs, by simpa using h.cancelledFrom, by simpa using h.resumeFrom, ?_⟩
  intro hf g
  by_cases hc : stage = completed
  · exact owedByStatus_completed (hc ▸ hs)
  · refine h.finalized ?_ g
    unfold Derive.setStatus at hf
    split at hf
    · exact hf
    · by_cases hp : project.status = completed <;> simp_all

theorem ProjectHonoured.showStatus (h : ProjectHonoured project reviews)
    (hs : Approved reviews (owedByStatus stage)) :
    ProjectHonoured { project with status := stage } reviews :=
  ⟨hs, h.cancelledFrom, h.resumeFrom, h.finalized⟩

theorem ProjectHonoured.cancel (h : ProjectHonoured project reviews) :
    ProjectHonoured (Derive.setStatus { project with cancelledFrom := some project.status } cancelled)
      reviews := by
  have h : ProjectHonoured { project with cancelledFrom := some project.status } reviews := by
    refine ⟨h.status, ?_, h.resumeFrom, h.finalized⟩
    intro s hs
    cases hs
    exact h.status
  exact h.setStatus approved_nil

/-- Chunks and sections come after both approvals, sources after the first. -/
def Earned (artefacts : Artefacts) (reviews : List ReviewPoint) : Prop :=
  (0 < artefacts.nSources → approved reviews .designBrief) ∧
  (0 < artefacts.nChunks ∨ 0 < artefacts.nWritten →
    approved reviews .designBrief ∧ approved reviews .sourcePool)

instance : Decidable (Earned artefacts reviews) := inferInstanceAs (Decidable (_ ∧ _))

theorem ProjectHonoured.sync (h : ProjectHonoured project reviews)
    (he : project.status ∉ terminalStages → Earned artefacts reviews) :
    ProjectHonoured (syncProjectStage project artefacts false) reviews := by
  by_cases ht : project.status ∈ terminalStages
  · rw [syncProjectStage_terminal ht]
    exact h
  obtain ⟨hn, hk⟩ := he ht
  apply h.setStatus
  rw [deriveStage_stopped ht]
  have hb : 0 < artefacts.nChunks ∨ 0 < artefacts.nWritten →
      Approved reviews [.designBrief, .sourcePool] := by
    intro h g _
    obtain ⟨hd, hs⟩ := hk h
    cases g with
    | designBrief => exact hd
    | sourcePool => exact hs
  split_ifs with hf hw hc hs
  · exact fun g _ => h.finalized hf g
  · exact hb (.inr hw)
  · exact hb (.inl hc)
  · intro g hg
    rw [List.mem_singleton.mp hg]
    exact hn hs
  · exact approved_nil
  · exact approved_nil

/-! What holds of the rows. -/

@[simp] theorem openedGates_resolveLatest :
    openedGates (resolveLatest d reviews) = openedGates reviews := gates_resolveLatest

@[simp] theorem openedGates_resolvePending :
    openedGates (resolvePending reviews) = openedGates reviews := gates_resolvePending

theorem openedGates_cons : openedGates (review :: reviews) = review.gate :: openedGates reviews :=
  rfl

theorem mem_openedGates (h : g ∈ pendingGates reviews) : g ∈ openedGates reviews := by
  obtain ⟨review, hm, he⟩ := exists_of_mem_pendingGates h
  exact List.mem_map.mpr ⟨review, hm, he⟩

/-- Rows all of whose gates are approved are in order whatever leaves. -/
theorem rows_of_approved (h : Approved reviews (openedGates reviews))
    (hp : .sourcePool ∈ openedGates reviews → approved reviews .designBrief) :
    RowsHonoured reviews none := by
  refine ⟨hp, fun g hg => .inl (h g hg), ?_, trivial⟩
  intro hs
  apply List.pairwise_of_forall_mem_list
  intro newer _ older ho he
  have := h .sourcePool (he ▸ mem_openedGates ho)
  simp [hs] at this

/-- A job leaves; the gate its round was to open again must not stay unanswered. -/
theorem RowsHonoured.leave {job : Option Job} (h : RowsHonoured reviews job)
    (hr : ∀ g, job.bind Job.reopens = some g → approved reviews g ∨ g ∈ pendingGates reviews) :
    RowsHonoured reviews none := by
  refine ⟨h.pool, ?_, h.order, trivial⟩
  intro g hg
  rcases h.answered g hg with ha | ha | ha
  · exact .inl ha
  · exact .inr (.inl ha)
  · exact (hr g ha).imp id .inl

/-- The source gate is opened after the brief was approved. -/
theorem RowsHonoured.openPool {job : Option Job} (h : RowsHonoured reviews job)
    (hb : approved reviews .designBrief)
    (hr : ∀ g, job.bind Job.reopens = some g → g = .sourcePool) :
    RowsHonoured (⟨.sourcePool, none⟩ :: reviews) none := by
  refine ⟨fun _ => approved_cons hb, ?_, ?_, trivial⟩
  · intro g hg
    rcases List.mem_cons.mp hg with rfl | hg
    · exact .inr (.inl (by simp [pendingGates_cons]))
    · rcases h.answered g hg with ha | ha | ha
      · exact .inl (approved_cons ha)
      · exact .inr (.inl (by simp [pendingGates_cons, ha]))
      · exact .inr (.inl (by simp [pendingGates_cons, hr g ha]))
  · intro hs
    have hs : approved reviews .sourcePool = false := by
      by_contra hn
      simp [approved_cons (Bool.not_eq_false _ ▸ hn)] at hs
    simpa [pendingGates_cons] using h.order hs

/-- The brief's gate is opened while no source gate waits for its approval. -/
theorem RowsHonoured.openBrief {job : Option Job} (h : RowsHonoured reviews job)
    (hp : .sourcePool ∈ openedGates reviews → approved reviews .sourcePool)
    (hr : ∀ g, job.bind Job.reopens = some g → g = .designBrief) :
    RowsHonoured (⟨.designBrief, none⟩ :: reviews) none := by
  refine ⟨?_, ?_, ?_, trivial⟩
  · intro hs
    rcases List.mem_cons.mp hs with hs | hs
    · cases hs
    · exact approved_cons (h.pool hs)
  · intro g hg
    rcases List.mem_cons.mp hg with rfl | hg
    · exact .inr (.inl (by simp [pendingGates_cons]))
    · rcases h.answered g hg with ha | ha | ha
      · exact .inl (approved_cons ha)
      · exact .inr (.inl (by simp [pendingGates_cons, ha]))
      · exact .inr (.inl (by simp [pendingGates_cons, hr g ha]))
  · intro hs
    have hs : approved reviews .sourcePool = false := by
      by_contra hn
      simp [approved_cons (Bool.not_eq_false _ ▸ hn)] at hs
    apply List.pairwise_of_forall_mem_list
    intro newer _ older ho he
    simp only [pendingGates_cons, ReviewPoint.pending_none, if_true] at ho
    rcases List.mem_cons.mp ho with ho | ho
    · rw [he] at ho
      cases ho
    · have := hp (he ▸ mem_openedGates ho)
      simp [hs] at this

theorem JobHonoured.mono (h : JobHonoured reviews job)
    (hg : openedGates reviews' = openedGates reviews)
    (hm : ∀ g, approved reviews g → approved reviews' g) : JobHonoured reviews' job := by
  have round : ∀ round, RoundHonoured reviews round → RoundHonoured reviews' round := by
    rintro round ⟨h1, h2⟩
    unfold RoundHonoured
    rw [hg]
    exact ⟨fun hr hs => hm _ (h1 hr hs), h2⟩
  have full : Approved reviews (openedGates reviews) → Approved reviews' (openedGates reviews') := by
    rw [hg]
    exact fun h => h.mono hm
  cases job with
  | none => trivial
  | some job =>
    cases job with
    | queued work =>
      cases work with
      | full => exact full h
      | round r => exact round r h
    | working r => exact round r h
    | running stage phase entered => exact ⟨full h.1, h.2.1.mono hm, h.2.2⟩

/-- A refresh writes its row already answered; the brief has to be approved before. -/
theorem RowsHonoured.refresh (h : RowsHonoured reviews none)
    (hb : approved reviews .designBrief) :
    RowsHonoured (⟨.designBrief, some .autoRefresh⟩ :: reviews) none := by
  refine ⟨fun _ => approved_cons hb, ?_, ?_, trivial⟩
  · intro g hg
    rcases List.mem_cons.mp hg with rfl | hg
    · exact .inl (approved_cons hb)
    · rcases h.answered g hg with ha | ha | ha
      · exact .inl (approved_cons ha)
      · exact .inr (.inl (by simpa [pendingGates_cons] using ha))
      · cases ha
  · intro hs
    have hn : approved reviews .sourcePool = false := by
      by_contra hn
      rw [approved_cons (by simpa using hn)] at hs
      cases hs
    simpa [pendingGates_cons] using h.order hn

/-- A gate answered with a round is approved already or still to be answered. -/
def answeredStill (reviews : List ReviewPoint) (g : ReviewGate) : Bool :=
  approved reviews g || (pendingGates reviews).contains g

theorem nextWork_full (h : approves gate action) : nextWork gate action = .full := by
  cases gate <;> cases action <;> first | rfl | cases h

theorem nextWork_round (h : approves gate action = false) :
    ∃ round, nextWork gate action = .round round ∧ round.reopens = some gate := by
  cases gate <;> cases action <;> first | exact ⟨_, rfl, rfl⟩ | cases h

variable {job' : Option Job}

theorem eq_cons_of_head (hg : (pendingGates reviews).head? = some gate) :
    ∃ rest, pendingGates reviews = gate :: rest ∧
      ∀ d, pendingGates (resolveLatest d reviews) = rest := by
  obtain ⟨rest, hr⟩ := List.head?_eq_some_iff.mp hg
  exact ⟨rest, hr, fun d => by rw [pendingGates_resolveLatest, hr, List.tail_cons]⟩

/-- The newest gate is answered, by an approval or a round. -/
theorem RowsHonoured.answer (h : RowsHonoured reviews job)
    (hg : (pendingGates reviews).head? = some gate)
    (ha : approves gate action ∨ answeredStill (resolveLatest (.decided action) reviews) gate ∨
      job'.bind Job.reopens = some gate)
    (hk : ∀ g, job.bind Job.reopens = some g → job'.bind Job.reopens = some g)
    (hw : JobHonoured (resolveLatest (.decided action) reviews) job') :
    RowsHonoured (resolveLatest (.decided action) reviews) job' := by
  obtain ⟨rest, hr, ht⟩ := eq_cons_of_head hg
  refine ⟨?_, ?_, ?_, hw⟩
  · rw [openedGates_resolveLatest]
    exact fun hs => approved_resolveLatest (h.pool hs)
  · intro g hm
    rw [openedGates_resolveLatest] at hm
    rcases h.answered g hm with hd | hd | hd
    · exact .inl (approved_resolveLatest hd)
    · rw [hr] at hd
      rcases List.mem_cons.mp hd with rfl | hd
      · rcases ha with ha | ha | ha
        · exact .inl (approved_answer hg ha)
        · simp only [answeredStill, Bool.or_eq_true, List.contains_iff_mem] at ha
          exact ha.imp id .inl
        · exact .inr (.inr ha)
      · rw [ht]
        exact .inr (.inl hd)
    · exact .inr (.inr (hk g hd))
  · intro hs
    have hn : approved reviews .sourcePool = false := by
      by_contra hn
      rw [approved_resolveLatest (by simpa using hn)] at hs
      cases hs
    rw [ht]
    have ho := h.order hn
    rw [hr] at ho
    exact (List.pairwise_cons.mp ho).2

/-- While the brief's gate is the newest, no source gate waits for its approval. -/
theorem RowsHonoured.pool_approved (h : RowsHonoured reviews none)
    (hg : (pendingGates reviews).head? = some .designBrief)
    (hs : .sourcePool ∈ openedGates reviews) : approved reviews .sourcePool := by
  obtain ⟨rest, hr, -⟩ := eq_cons_of_head hg
  by_contra hn
  have ho := h.order (by simpa using hn)
  rw [hr] at ho
  rcases h.answered _ hs with ha | ha | ha
  · exact hn ha
  · rw [hr] at ha
    rcases List.mem_cons.mp ha with ha | ha
    · cases ha
    · cases (List.pairwise_cons.mp ho).1 _ ha rfl
  · cases ha

/-- What a stopped project starts on an answer has its gates behind it. -/
theorem RowsHonoured.nextWork (h : RowsHonoured reviews none)
    (hg : (pendingGates reviews).head? = some gate) :
    JobHonoured (resolveLatest (.decided action) reviews)
      (some (.queued (nextWork gate action))) := by
  have hm : gate ∈ openedGates reviews := by
    obtain ⟨rest, hr, -⟩ := eq_cons_of_head hg
    exact mem_openedGates (hr ▸ List.mem_cons_self)
  cases ha : approves gate action with
  | true =>
    rw [nextWork_full ha]
    intro g hs
    rw [openedGates_resolveLatest] at hs
    by_cases he : g = gate
    · exact he ▸ approved_answer hg ha
    · cases gate <;> cases g
      · exact absurd rfl he
      · exact approved_resolveLatest (h.pool_approved hg hs)
      · exact approved_resolveLatest (h.pool hm)
      · exact absurd rfl he
  | false =>
    obtain ⟨round, hw, hr⟩ := nextWork_round ha
    rw [hw]
    change RoundHonoured _ round
    unfold RoundHonoured
    rw [openedGates_resolveLatest, hr]
    constructor
    · intro he hs
      cases he
      exact approved_resolveLatest (h.pool_approved hg hs)
    · intro he
      cases he
      exact hm

/-- A cancellation answers every gate; none of them may still wait for its approval. -/
theorem RowsHonoured.cancel (h : RowsHonoured reviews none)
    (ha : Approved reviews (pendingGates reviews)) : RowsHonoured (resolvePending reviews) none := by
  apply rows_of_approved
  · intro g hg
    rw [openedGates_resolvePending] at hg
    rcases h.answered g hg with hd | hd | hd
    · exact approved_resolvePending hd
    · exact approved_resolvePending (ha g hd)
    · cases hd
  · rw [openedGates_resolvePending]
    exact fun hs => approved_resolvePending (h.pool hs)

/-! What holds of the phases. -/

theorem owed_running (h : phase ∈ PHASES) (hw : Approved reviews (owedByStage phase.when)) :
    Approved reviews (owedByStatus phase.running) ∧
      ∀ g ∈ gateBefore phase.run, approved reviews g := by
  simp only [PHASES, List.mem_cons, List.not_mem_nil, or_false] at h
  rcases h with rfl | rfl | rfl | rfl | rfl <;>
    simp_all [Approved, owedByStage, owedByStatus, gateBefore]

theorem owed_advanceTo (h : phase ∈ PHASES) (hw : Approved reviews (owedByStage phase.when)) :
    Approved reviews (owedByStatus phase.advanceTo) := by
  simp only [PHASES, List.mem_cons, List.not_mem_nil, or_false] at h
  rcases h with rfl | rfl | rfl | rfl | rfl <;>
    simp_all [Approved, owedByStage, owedByStatus]

variable {reopen entered clear : Bool}

theorem owed_next (h : phase ∈ PHASES) (hn : phase.gate reopen = none)
    (hw : Approved reviews (owedByStage phase.when)) :
    Approved reviews (owedByStage phase.advanceTo) := by
  simp only [PHASES, List.mem_cons, List.not_mem_nil, or_false] at h
  rcases h with rfl | rfl | rfl | rfl | rfl <;> first | exact hw | cases hn

theorem owed_gate (h : phase ∈ PHASES) (hn : phase.gate reopen = some .sourcePool)
    (hw : Approved reviews (owedByStage phase.when)) : approved reviews .designBrief := by
  simp only [PHASES, List.mem_cons, List.not_mem_nil, or_false] at h
  rcases h with rfl | rfl | rfl | rfl | rfl <;> first | exact hw _ (by decide) | cases hn

/-- A stage whose gate was looked up has it approved when every gate opened is. -/
theorem owed_normalize (h : Approved reviews (openedGates reviews))
    (hr : stage = researching → approved reviews .designBrief)
    (ho : stage ≠ planning → stage ≠ researching → Approved reviews (owedByStage stage)) :
    Approved reviews (owedByStage (normalizeResumeStage reviews stage)) := by
  have look : ∀ g, hasResolved reviews g → approved reviews g := by
    intro g hg
    obtain ⟨review, hm, hv⟩ := List.any_eq_true.mp hg
    simp only [Bool.and_eq_true, decide_eq_true_eq] at hv
    exact h g (List.mem_map.mpr ⟨review, hm, hv.1⟩)
  unfold normalizeResumeStage
  split
  · split
    · rename_i hd
      simpa [Approved, owedByStage] using look _ hd
    · exact approved_nil
  · split
    · split
      · rename_i hs hd
        simpa [Approved, owedByStage] using ⟨hr hs, look _ hd⟩
      · rename_i hs _
        simpa [Approved, owedByStage] using hr hs
    · exact ho ‹_› ‹_›

theorem ProjectHonoured.standing (h : ProjectHonoured project reviews) :
    Approved reviews (owedByStatus (standing project)) := by
  unfold Workflows.standing
  split
  · cases hc : project.cancelledFrom with
    | none => exact approved_nil
    | some s => exact h.cancelledFrom s hc
  · exact h.status

/-- A run that starts when every gate opened is approved owes nothing where it starts. -/
theorem ProjectHonoured.startStage (h : ProjectHonoured r.project r.reviews)
    (ha : Approved r.reviews (openedGates r.reviews)) :
    Approved r.reviews (owedByStage (startStage r)) := by
  have hs := h.standing
  cases hf : r.project.resumeFrom with
  | some s =>
    have hb := h.resumeFrom (by simp [hf])
    exact fun g _ => hb g
  | none =>
    apply owed_normalize ha
    · rw [stateFromProject_standing hf]
      cases hq : Workflows.standing r.project <;> simp_all [Approved, owedByStatus]
    · rw [stateFromProject_standing hf]
      cases hq : Workflows.standing r.project <;> simp_all [Approved, owedByStatus, owedByStage]

/-! What each event keeps. -/

/-- What a stopped project shows was approved on the way. -/
def EarnedAt (r : Runner) : Prop :=
  r.project.status ∉ terminalStages → Earned r.artefacts r.reviews

instance : Decidable (EarnedAt r) := inferInstanceAs (Decidable (_ → _))

theorem honoured_leave (hp : ProjectHonoured r.project r.reviews)
    (hr : RowsHonoured r.reviews none) (he : EarnedAt (leave r clear)) :
    Honoured (leave r clear) := by
  have hs : ProjectHonoured (syncProjectStage r.project r.artefacts false) r.reviews := by
    refine hp.sync fun ht => ?_
    cases clear <;> exact he (mt terminal_sync.1 ht)
  cases clear <;> exact ⟨hs, hr⟩

theorem honoured_cancelProject (hp : ProjectHonoured r.project r.reviews) :
    ProjectHonoured (cancelProject r).project (cancelProject r).reviews :=
  hp.cancel.mono fun _ => approved_resolvePending

/-- A full run leaves rows that are all approved. -/
theorem rows_running (h : RowsHonoured r.reviews r.job) {phase : Option Phase}
    (hj : r.job = some (.running stage phase entered)) : RowsHonoured r.reviews none := by
  have hw := h.job
  rw [hj] at hw
  exact rows_of_approved hw.1 h.pool

theorem rows_running_cancel (h : RowsHonoured r.reviews r.job) {phase : Option Phase}
    (hj : r.job = some (.running stage phase entered)) :
    RowsHonoured (cancelProject r).reviews none := by
  have hw := h.job
  rw [hj] at hw
  exact (rows_running h hj).cancel fun g hg => hw.1 g (mem_openedGates hg)

theorem honoured_spawnLimited {work : Work} (hp : ProjectHonoured r.project r.reviews)
    (h : RowsHonoured r.reviews r.job)
    (hw : r.job = none → JobHonoured r.reviews (some (.queued work))) :
    Honoured (spawnLimited r work) := by
  unfold spawnLimited isRunning
  split
  · exact ⟨hp, h⟩
  · rename_i hn
    have hn : r.job = none := by simpa using hn
    refine ⟨hp, h.pool, ?_, h.order, hw hn⟩
    intro g hg
    have := h.answered g hg
    rw [hn] at this
    exact this.imp id fun h => h.imp id (by simp)

theorem honoured_loopHead {entered : Bool} (h : Honoured r)
    (hj : r.job = some (.running stage none entered))
    (he : (loopHead r stage entered).job = none → EarnedAt (loopHead r stage entered)) :
    Honoured (loopHead r stage entered) := by
  obtain ⟨hp, hr⟩ := h
  have hw := hr.job
  rw [hj] at hw
  obtain ⟨ha, ho, -⟩ := hw
  cases hc : r.cancelRequested with
  | true =>
    have hl : loopHead r stage entered = leave (cancelProject r) true := by simp [loopHead, hc]
    rw [hl] at he ⊢
    exact honoured_leave (honoured_cancelProject hp) (rows_running_cancel hr hj) (he rfl)
  | false =>
  cases hf : phaseFor stage with
  | none =>
    have hl : loopHead r stage entered =
        leave { r with project := Derive.setStatus r.project stage } true := by
      simp [loopHead, hc, hf]
    rw [hl] at he ⊢
    refine honoured_leave (hp.setStatus ?_) (rows_running hr hj) (he rfl)
    cases stage <;> simp_all [phaseFor, PHASES, Approved, owedByStatus, owedByStage]
  | some phase =>
    have hl : loopHead r stage entered =
        { showStatus r phase.running with job := some (.running stage (some phase) entered) } := by
      simp [loopHead, hc, hf]
    rw [hl]
    obtain ⟨hm, hw⟩ := phase_mem hf
    refine ⟨hp.showStatus (owed_running hm (hw ▸ ho)).1, hr.pool, ?_, hr.order, ha, ho, ?_⟩
    · exact fun g hg => .inl (ha g hg)
    · intro p hq
      cases hq
      exact hf

theorem honoured_phaseReturned {entered : Bool} (h : Honoured r)
    (hj : r.job = some (.running stage (some phase) entered))
    (he : (phaseReturned r phase entered reopen).job = none →
      EarnedAt (phaseReturned r phase entered reopen)) :
    Honoured (phaseReturned r phase entered reopen) := by
  obtain ⟨hp, hr⟩ := h
  have hw := hr.job
  have ho : ∀ g, r.job.bind Job.reopens = some g → False := by simp [hj, Job.reopens]
  rw [hj] at hw
  obtain ⟨ha, hs, hf⟩ := hw
  obtain ⟨hm, rfl⟩ := phase_mem (hf phase rfl)
  cases hg : phase.gate reopen with
  | some gate =>
    have hl : phaseReturned r phase entered reopen =
        leave (addReview { r with
          reached := phase.advanceTo
          project := Derive.setStatus r.project phase.advanceTo } gate none) true := by
      simp [phaseReturned, hg]
    rw [hl] at he ⊢
    have hq : ProjectHonoured (Derive.setStatus r.project phase.advanceTo)
        (⟨gate, none⟩ :: r.reviews) :=
      (hp.setStatus (owed_advanceTo hm hs)).mono fun _ => approved_cons
    have hv : RowsHonoured (⟨gate, none⟩ :: r.reviews) none := by
      cases gate with
      | designBrief => exact hr.openBrief (ha .sourcePool) fun g hg => (ho g hg).elim
      | sourcePool => exact hr.openPool (owed_gate hm hg hs) fun g hg => (ho g hg).elim
    exact honoured_leave hq hv (he rfl)
  | none =>
    have hl : phaseReturned r phase entered reopen =
        { r with
          reached := phase.advanceTo
          job := some (.running phase.advanceTo none entered) } := by
      simp [phaseReturned, hg]
    rw [hl]
    have hw : JobHonoured r.reviews (some (.running phase.advanceTo none entered)) :=
      ⟨ha, owed_next hm hg hs, by simp⟩
    exact ⟨hp, hr.pool, fun g hg => .inl (ha g hg), hr.order, hw⟩

theorem honoured_roundDone {round : Round} (h : Honoured r) (hj : r.job = some (.working round))
    (hf : round = .refresh → approved r.reviews .designBrief)
    (he : EarnedAt (roundDone r round)) : Honoured (roundDone r round) := by
  obtain ⟨hp, hr⟩ := h
  have hw := hr.job
  rw [hj] at hw
  have ho : r.job.bind Job.reopens = round.reopens := by simp [hj, Job.reopens]
  cases round with
  | replan =>
    refine honoured_leave (hp.mono fun _ => approved_cons) ?_ he
    refine hr.openBrief (hw.1 rfl) fun g hg => ?_
    rw [ho] at hg
    cases hg
    rfl
  | refresh =>
    refine honoured_leave (hp.mono fun _ => approved_cons) ?_ he
    refine RowsHonoured.refresh (hr.leave fun g hg => ?_) (hf rfl)
    rw [ho] at hg
    cases hg
  | collectMore reopenGate =>
    cases reopenGate with
    | false =>
      refine honoured_leave hp (hr.leave fun g hg => ?_) he
      rw [ho] at hg
      cases hg
    | true =>
      refine honoured_leave (hp.mono fun _ => approved_cons) ?_ he
      refine hr.openPool (hr.pool (hw.2 rfl)) fun g hg => ?_
      rw [ho] at hg
      cases hg
      rfl

theorem honoured_reopenProject (h : Honoured r) (hs : r.project.status = completed) :
    Honoured (reopenProject r) := by
  obtain ⟨hp, hr⟩ := h
  have ha : ∀ g, approved r.reviews g := by
    have := hp.status
    rw [hs] at this
    exact fun g => owedByStatus_completed this
  have hc : ∀ g, approved (⟨.sourcePool, none⟩ :: r.reviews) g := fun g => approved_cons (ha g)
  refine ⟨⟨fun g _ => hc g, fun s _ g _ => hc g, fun _ => hc, fun _ => hc⟩, fun _ => hc _,
    fun g _ => .inl (hc g), fun hs => ?_, ?_⟩
  · have := hc .sourcePool
    simp_all [reopenProject, addReview]
  · change JobHonoured _ r.job
    have hw := hr.job
    cases hj : r.job with
    | none => trivial
    | some job =>
      rw [hj] at hw
      cases job with
      | queued work =>
        cases work with
        | full => exact fun g _ => hc g
        | round round => exact ⟨fun _ _ => hc _, fun _ => List.mem_cons_self⟩
      | working round => exact ⟨fun _ _ => hc _, fun _ => List.mem_cons_self⟩
      | running stage phase entered => exact ⟨fun g _ => hc g, fun g _ => hc g, hw.2.2⟩

/-! Whole histories. -/

/-- No gate is closed behind the human's back: a cancellation resolves approved gates only, a
round that was asked for starts and comes through, the outline is refreshed after the brief's
approval. -/
def heeded (r : Runner) : Event → Bool
  | .cancel => isRunning r || (pendingGates r.reviews).all (approved r.reviews)
  | .decide action =>
    match getPendingGate r with
    | some gate => !isRunning r || approves gate action ||
        answeredStill (resolveLatest (.decided action) r.reviews) gate
    | none => true
  | .slot => !r.cancelRequested || roundAnswered
  | .fail => roundAnswered
  | .die => roundAnswered
  | .done =>
    match r.job with
    | some (.working .refresh) => approved r.reviews .designBrief
    | _ => true
  | _ => true
where
  roundAnswered : Bool :=
    match r.job.bind Job.reopens with
    | some gate => answeredStill r.reviews gate
    | none => true

theorem rows_left (h : Honoured r) (ha : heeded.roundAnswered r) :
    RowsHonoured r.reviews none := by
  refine h.2.leave fun g hg => ?_
  simp only [heeded.roundAnswered, hg, answeredStill, Bool.or_eq_true, List.contains_iff_mem] at ha
  exact ha

theorem honoured_resumeRun (h : Honoured r) (hg : getPendingGate r = some gate)
    (ha : r.job = none ∨ approves gate action ∨
      answeredStill (resolveLatest (.decided action) r.reviews) gate) :
    Honoured (resumeRun r gate action) := by
  obtain ⟨hp, hr⟩ := h
  rw [getPendingGate_eq] at hg
  have hq : ProjectHonoured (resolveGate r gate action).project
      (resolveLatest (.decided action) r.reviews) := by
    have hm : ∀ g, approved r.reviews g → approved (resolveLatest (.decided action) r.reviews) g :=
      fun _ => approved_resolveLatest
    unfold resolveGate
    split
    · rename_i hc
      refine (hp.setStatus ?_).mono hm
      have := hp.status
      rw [hc.2] at this
      exact fun g hg => this g (by simp_all [owedByStatus])
    · exact hp.mono hm
  cases hj : r.job with
  | none =>
    have hw : resumeRun r gate action =
        { resolveGate r gate action with job := some (.queued (nextWork gate action)) } := by
      simp [resumeRun, spawnLimited, isRunning, resolveGate, hj]
    rw [hj] at hr
    rw [hw]
    refine ⟨hq, hr.answer hg ?_ (by simp) (hr.nextWork hg)⟩
    cases hb : approves gate action with
    | true => exact .inl rfl
    | false =>
      obtain ⟨round, hn, ho⟩ := nextWork_round hb
      rw [hn]
      exact .inr (.inr ho)
  | some job =>
    have hw : resumeRun r gate action = resolveGate r gate action := by
      simp [resumeRun, spawnLimited, isRunning, resolveGate, hj]
    rw [hw]
    have ha := ha.resolve_left (by simp [hj])
    have hk : JobHonoured (resolveLatest (.decided action) r.reviews) r.job :=
      hr.job.mono openedGates_resolveLatest fun _ => approved_resolveLatest
    refine ⟨hq, hr.answer hg ?_ (fun _ => id) hk⟩
    exact ha.imp id .inl

theorem honoured_executeRun (h : Honoured r) (hj : r.job = some (.queued .full)) :
    Honoured (executeRun r) := by
  obtain ⟨hp, hr⟩ := h
  have ha := hr.job
  rw [hj] at ha
  refine ⟨?_, hr.pool, fun g hg => .inl (ha g hg), hr.order, ha, hp.startStage ha, by simp⟩
  have hq : ProjectHonoured { r.project with resumeFrom := none } r.reviews :=
    ⟨hp.status, hp.cancelledFrom, by simp, hp.finalized⟩
  by_cases hc : r.project.status = created
  · rw [executeRun_created hc]
    exact hq.setStatus fun _ h => nomatch h
  · rw [executeRun_project hc]
    exact hq

/-- One event keeps what was approved in front of what may run. -/
theorem honoured_step (h : Honoured r) (hf : heeded r e) (hs : step r e = some t)
    (he : resynced r e t → EarnedAt t) : Honoured t := by
  have hp := h.1
  have hr := h.2
  have left : r.job ≠ none → e ≠ .get → e ≠ .die → t.job = none → EarnedAt t := by
    intro hj hg hd ht
    apply he
    cases e <;> simp_all [resynced, isRunning, Option.isSome_iff_ne_none]
  cases e with
  | edit artefacts =>
    cases hs
    exact ⟨hp, hr⟩
  | get =>
    cases hs
    cases hj : r.job with
    | none =>
      have hn : isRunning r = false := by simp [isRunning, hj]
      have he := he (by simp [resynced, hn])
      unfold resyncStage at he ⊢
      rw [hn] at he ⊢
      exact ⟨hp.sync fun ht => he (mt terminal_sync.1 ht), hr⟩
    | some job =>
      rw [resyncStage_running (by simp [hj])]
      exact h
  | run =>
    simp only [step, Option.ite_none_left_eq_some] at hs
    obtain ⟨hn, hs⟩ := hs
    cases hs
    refine honoured_spawnLimited hp hr fun hj => ?_
    intro g hg
    have ha := hr.answered g hg
    rw [hj] at ha
    rcases ha with ha | ha | ha
    · exact ha
    · simp only [not_or, getPendingGate_eq] at hn
      cases hq : pendingGates r.reviews <;> simp_all
    · cases ha
  | cancel =>
    simp only [step, Option.ite_none_left_eq_some] at hs
    obtain ⟨-, hs⟩ := hs
    split at hs
    · cases hs
      exact ⟨hp, hr⟩
    · rename_i hn
      cases hs
      have hj : r.job = none := by simpa [isRunning] using hn
      have ha : ∀ g ∈ pendingGates r.reviews, approved r.reviews g := by
        simpa [heeded, isRunning, hj] using hf
      refine ⟨honoured_cancelProject hp, ?_⟩
      change RowsHonoured (resolvePending r.reviews) r.job
      rw [hj] at hr ⊢
      exact hr.cancel ha
  | decide action =>
    obtain ⟨gate, hg, rfl⟩ := Option.map_eq_some_iff.mp hs
    refine honoured_resumeRun h hg ?_
    simpa [heeded, hg, isRunning, or_assoc] using hf
  | collectMore =>
    cases hs
    refine honoured_spawnLimited hp hr fun _ => ⟨?_, ?_⟩
    · cases decide (getPendingGate r = some .sourcePool) <;> simp [Round.reopens]
    · intro hg
      rw [getPendingGate_eq] at hg
      by_cases hq : (pendingGates r.reviews).head? = some .sourcePool
      · exact mem_openedGates (List.mem_of_head? hq)
      · simp [hq, Round.reopens] at hg
  | refresh =>
    simp only [step, Option.ite_none_left_eq_some] at hs
    obtain ⟨-, hs⟩ := hs
    cases hs
    exact honoured_spawnLimited hp hr fun _ => ⟨by simp [Round.reopens], by simp [Round.reopens]⟩
  | reopen =>
    simp only [step, Option.ite_none_right_eq_some] at hs
    obtain ⟨hc, hs⟩ := hs
    cases hs
    exact honoured_reopenProject h hc
  | slot =>
    simp only [step] at hs
    split at hs
    · rename_i work hw
      split at hs
      · rename_i hc
        cases hs
        have ha : heeded.roundAnswered r := by simpa [heeded, hc] using hf
        exact honoured_leave hp (rows_left h ha) (left (by simp [hw]) (by simp) (by simp) job_leave)
      · cases work with
        | full =>
          cases hs
          exact honoured_executeRun h hw
        | round round =>
          cases hs
          have hj := hr.job
          rw [hw] at hj
          refine ⟨hp, hr.pool, ?_, hr.order, hj⟩
          have ha := hr.answered
          rwa [hw] at ha
    · cases hs
  | enter =>
    simp only [step] at hs
    split at hs
    · rename_i stage entered hw
      cases hs
      exact honoured_loopHead h hw fun ht => left (by simp [hw]) (by simp) (by simp) ht
    · cases hs
  | finish reopen =>
    simp only [step] at hs
    split at hs
    · rename_i stage phase entered hw
      cases hs
      exact honoured_phaseReturned h hw fun ht => left (by simp [hw]) (by simp) (by simp) ht
    · cases hs
  | observe =>
    simp only [step] at hs
    split at hs
    · rename_i hw
      split at hs
      · cases hs
        exact honoured_leave (honoured_cancelProject hp) (rows_running_cancel hr hw)
          (left (by simp [hw]) (by simp) (by simp) rfl)
      · cases hs
    · cases hs
  | fail =>
    simp only [step] at hs
    split at hs
    · rename_i entered hw
      cases hs
      have he := left (by simp [hw]) (by simp) (by simp) job_leave
      unfold runFailed at he ⊢
      split at he
      · rw [if_pos ‹_›]
        exact honoured_leave (hp.showStatus approved_nil) (rows_running hr hw) he
      · rw [if_neg ‹_›]
        exact honoured_leave hp (rows_running hr hw) he
    · rename_i hw
      cases hs
      exact honoured_leave hp (rows_left h hf) (left (by simp [hw]) (by simp) (by simp) job_leave)
    · cases hs
  | done =>
    simp only [step] at hs
    split at hs
    · rename_i round hw
      cases hs
      refine honoured_roundDone h hw ?_ (left (by simp [hw]) (by simp) (by simp) ?_)
      · rintro rfl
        simpa [heeded, hw] using hf
      · exact job_roundDone
    · cases hs
  | die =>
    simp only [step, Option.ite_none_right_eq_some] at hs
    obtain ⟨-, hs⟩ := hs
    have hl := rows_left h hf
    cases hs
    exact ⟨hp, hl⟩

theorem Honoured.gatesHold (h : Honoured r) : GatesHold r := by
  intro g hg
  unfold gateInFront at hg
  split at hg
  · rename_i stage phase entered hj
    have hw := h.2.job
    rw [hj] at hw
    obtain ⟨hm, hq⟩ := phase_mem (hw.2.2 phase rfl)
    exact (owed_running hm (hq ▸ hw.2.1)).2 g hg
  · cases hg

open Runs in
/-- Along every history in which gates are closed by answers and the artefacts of a stopped
project were approved on the way, a phase runs behind the approval of its gate only. -/
theorem gatesHold_always {es : List Event}
    (h : Along step (fun r e t => heeded r e ∧ (resynced r e t → EarnedAt t))
      (Runner.new artefacts) es) :
    Always step GatesHold (Runner.new artefacts) es := by
  have keep : ∀ r e t, step r e = some t →
      (heeded r e ∧ (resynced r e t → EarnedAt t)) → Honoured r → Honoured t :=
    fun _ _ _ hs ⟨hf, he⟩ h => honoured_step h hf hs he
  exact (always_of_step keep honoured_new h).mono fun _ h => h.gatesHold

open Runs in
theorem gatesHold_approved :
    Always step GatesHold (Runner.new ⟨true, 0, 0, 0⟩)
      [.run, .slot, .enter, .finish false, .decide .replan, .slot, .done, .decide .other,
       .slot, .enter, .edit ⟨true, 40, 0, 0⟩, .finish false, .decide .collectMore, .slot, .done,
       .decide .other, .slot, .enter, .edit ⟨true, 40, 90, 0⟩, .cancel, .observe, .run,
       .slot, .enter, .finish false, .enter] :=
  gatesHold_always (by decide)

open Runs in
/-- A cancellation at the brief's gate, and an outline saved before the first run, both leave
a resolved gate behind that the next run takes for an approval. -/
theorem gate_bypassed :
    ¬ Always step GatesHold (Runner.new ⟨true, 0, 0, 0⟩)
      [.run, .slot, .enter, .finish false, .cancel, .run, .slot, .enter] ∧
    ¬ Always step GatesHold (Runner.new ⟨true, 0, 0, 0⟩)
      [.refresh, .slot, .done, .run, .slot, .enter] := by
  constructor
  · intro h
    have := h.last rfl
    exact absurd this (by decide)
  · intro h
    have := h.last rfl
    exact absurd this (by decide)

end RownRg.Workflows

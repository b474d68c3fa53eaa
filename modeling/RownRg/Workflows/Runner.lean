import RownRg.Projects.Derive
import RownRg.Workflows.Pipeline

/-! The runner of one project: its jobs, its gates and the requests that reach it. -/
namespace RownRg.Workflows

open Derive Pipeline

/-- What a human can answer at a gate; every other action approves. -/
inductive Action where
  | replan | collectMore | other
  deriving DecidableEq, Repr

/-- The decision column of a resolved review. -/
inductive Decision where
  | decided (action : Action)
  | cancelled
  | autoRefresh
  deriving DecidableEq, Repr

/-- A review is pending until it carries a decision. -/
structure ReviewPoint where
  gate : ReviewGate
  decision : Option Decision
  deriving DecidableEq, Repr

namespace ReviewPoint

def pending (review : ReviewPoint) : Bool := review.decision.isNone

end ReviewPoint

/-- Rounds run beside the spine and never advance it. -/
inductive Round where
  | replan
  | collectMore (reopenGate : Bool)
  | refresh
  deriving DecidableEq, Repr

inductive Work where
  | full
  | round (round : Round)
  deriving DecidableEq, Repr

/-- A job waits for a slot, runs a round, or walks the spine: in memory it holds the stage
it stands on and, while a phase runs, that phase. -/
inductive Job where
  | queued (work : Work)
  | working (round : Round)
  | running (stage : ProjectStage) (phase : Option Phase) (enteredFromCreated : Bool)

/-- A project under its runner, the newest review first. `reached` is the stage of the last
phase whose run returned. -/
structure Runner where
  project : Project
  artefacts : Artefacts
  reviews : List ReviewPoint
  job : Option Job
  cancelRequested : Bool
  reached : ProjectStage

/-- A new project with whatever its form and its uploads gave it. -/
def Runner.new (artefacts : Artefacts) : Runner :=
  { project := ⟨.created, false, none, none⟩
    artefacts := artefacts
    reviews := []
    job := none
    cancelRequested := false
    reached := .created }

/-- The stage a stopped project takes up again. A display stage falls back to the stage
whose phase was running. -/
def stateFromProject (project : Project) : ProjectStage :=
  let status := project.resumeFrom.getD project.status
  let status := if status = .cancelled then project.cancelledFrom.getD .created else status
  if status = .writing then .indexing
  else if status = .indexing then .researching
  else status

def hasResolved (reviews : List ReviewPoint) (gate : ReviewGate) : Bool :=
  reviews.any fun review => review.gate = gate && !review.pending

/-- Goes back one stage when the gate behind the stage was never resolved. -/
def normalizeResumeStage (reviews : List ReviewPoint) (stage : ProjectStage) : ProjectStage :=
  if stage = .planning then
    if hasResolved reviews .designBrief then .planning else .created
  else if stage = .researching then
    if hasResolved reviews .sourcePool then .researching else .planning
  else stage

/-- The stage the next run starts from. -/
def startStage (r : Runner) : ProjectStage :=
  normalizeResumeStage r.reviews (stateFromProject r.project)

def getPendingGate (r : Runner) : Option ReviewGate :=
  (r.reviews.find? (·.pending)).map (·.gate)

def isRunning (r : Runner) : Bool := r.job.isSome

/-- Gives the newest pending review its decision. -/
def resolveLatest (decision : Decision) : List ReviewPoint → List ReviewPoint
  | [] => []
  | review :: reviews =>
    if review.pending then { review with decision := some decision } :: reviews
    else review :: resolveLatest decision reviews

/-- A cancellation resolves every pending review. -/
def resolvePending (reviews : List ReviewPoint) : List ReviewPoint :=
  reviews.map fun review =>
    if review.pending then { review with decision := some .cancelled } else review

def addReview (r : Runner) (gate : ReviewGate) (decision : Option Decision) : Runner :=
  { r with reviews := ⟨gate, decision⟩ :: r.reviews }

/-- The display write of a running phase; it goes past the ORM. -/
def showStatus (r : Runner) (stage : ProjectStage) : Runner :=
  { r with project := { r.project with status := stage } }

def resyncStage (r : Runner) : Runner :=
  { r with project := syncProjectStage r.project r.artefacts (isRunning r) }

/-- A job leaves: the stage is read back and a full run drops the cancel request. -/
def leave (r : Runner) (clearCancelOnExit : Bool) : Runner :=
  let r := resyncStage { r with job := none }
  if clearCancelOnExit then { r with cancelRequested := false } else r

/-- Starts a job unless one is already there. -/
def spawnLimited (r : Runner) (work : Work) : Runner :=
  if isRunning r then r else { r with job := some (.queued work) }

/-- Records where a cancelled project stood and closes its gates. -/
def cancelProject (r : Runner) : Runner :=
  { r with
    project := setStatus { r.project with cancelledFrom := some r.project.status } .cancelled
    reviews := resolvePending r.reviews }

/-- The opening of a run: it takes the resume point and leaves `created`. -/
def executeRun (r : Runner) : Runner :=
  let stage := startStage r
  let entered := r.project.status = .created
  let project := { r.project with resumeFrom := none }
  { r with
    project := if entered then setStatus project .planning else project
    job := some (.running stage none entered) }

/-- The head of the spine's loop: cancelled, done, or into the next phase. -/
def loopHead (r : Runner) (stage : ProjectStage) (entered : Bool) : Runner :=
  if r.cancelRequested then leave (cancelProject r) true
  else
    match phaseFor stage with
    | none => leave { r with project := setStatus r.project stage } true
    | some phase =>
      { showStatus r phase.running with job := some (.running stage (some phase) entered) }

/-- A phase's run returned: its gate stops the run or the loop goes on. -/
def phaseReturned (r : Runner) (phase : Phase) (entered reopen : Bool) : Runner :=
  let r := { r with reached := phase.advanceTo }
  match phase.gate reopen with
  | some gate =>
    leave (addReview { r with project := setStatus r.project phase.advanceTo } gate none) true
  | none => { r with job := some (.running phase.advanceTo none entered) }

/-- A run that raised: one that entered from `created` may fall back to it. -/
def runFailed (r : Runner) (entered : Bool) : Runner :=
  leave (if entered && r.project.status = .researching then showStatus r .created else r) true

/-- A round that came through. -/
def roundDone (r : Runner) : Round → Runner
  | .replan => leave (addReview r .designBrief none) false
  | .collectMore reopenGate =>
    leave (if reopenGate then addReview r .sourcePool none else r) false
  | .refresh => leave (addReview r .designBrief (some .autoRefresh)) false

/-- The answer is written down. A source gate that the rehearsal opened sends the project
back before its index. -/
def resolveGate (r : Runner) (gate : ReviewGate) (action : Action) : Runner :=
  { r with
    reviews := resolveLatest (.decided action) r.reviews
    project :=
      if gate = .sourcePool ∧ r.project.status = .indexing then setStatus r.project .researching
      else r.project }

/-- Two answers ask for a round at the same gate, every other one moves on. -/
def nextWork : ReviewGate → Action → Work
  | .designBrief, .replan => .round .replan
  | .sourcePool, .collectMore => .round (.collectMore true)
  | _, _ => .full

/-- A human answers the newest pending gate. -/
def resumeRun (r : Runner) (gate : ReviewGate) (action : Action) : Runner :=
  spawnLimited (resolveGate r gate action) (nextWork gate action)

/-- A completed report is opened again at its source gate. -/
def reopenProject (r : Runner) : Runner :=
  let project := { r.project with completedAt := false, resumeFrom := some .researching }
  addReview { r with project := syncProjectStage project r.artefacts false } .sourcePool none

/-- What can happen to a project: requests, the moves of its job, and its own artefacts
changing under phases, uploads and edits. -/
inductive Event where
  | edit (artefacts : Artefacts)
  | get
  | run
  | cancel
  | decide (action : Action)
  | collectMore
  | refresh
  | reopen
  | slot
  | enter
  | finish (reopen : Bool)
  | observe
  | fail
  | done
  | die

/-- One event; `none` where a guard refuses it or it cannot occur. -/
def step (r : Runner) : Event → Option Runner
  | .edit artefacts => some { r with artefacts := artefacts }
  | .get => some (resyncStage r)
  | .run =>
    if (getPendingGate r).isSome ∨ isRunning r
        ∨ r.project.status = .completed ∨ r.project.status = .archived then none
    else some (spawnLimited r .full)
  | .cancel =>
    if r.project.status ∈ [ProjectStage.completed, .archived, .cancelled, .created] then none
    else if isRunning r then some { r with cancelRequested := true }
    else some (cancelProject r)
  | .decide action => (getPendingGate r).map fun gate => resumeRun r gate action
  | .collectMore =>
    some (spawnLimited r (.round (.collectMore (getPendingGate r = some .sourcePool))))
  | .refresh =>
    if r.project.status = .archived ∨ isRunning r then none
    else some (spawnLimited r (.round .refresh))
  | .reopen => if r.project.status = .completed then some (reopenProject r) else none
  | .slot =>
    match r.job with
    | some (.queued work) =>
      if r.cancelRequested then some (leave r (work = .full))
      else
        match work with
        | .full => some (executeRun r)
        | .round round => some { r with job := some (.working round) }
    | _ => none
  | .enter =>
    match r.job with
    | some (.running stage none entered) => some (loopHead r stage entered)
    | _ => none
  | .finish reopen =>
    match r.job with
    | some (.running _ (some phase) entered) => some (phaseReturned r phase entered reopen)
    | _ => none
  | .observe =>
    match r.job with
    | some (.running _ (some _) _) =>
      if r.cancelRequested then some (leave (cancelProject r) true) else none
    | _ => none
  | .fail =>
    match r.job with
    | some (.running _ _ entered) => some (runFailed r entered)
    | some (.working _) => some (leave r false)
    | _ => none
  | .done =>
    match r.job with
    | some (.working round) => some (roundDone r round)
    | _ => none
  | .die => if isRunning r then some { r with job := none, cancelRequested := false } else none

/-- The status a cancelled project stood on, else the status itself. -/
def standing (project : Project) : ProjectStage :=
  if project.status = .cancelled then project.cancelledFrom.getD .created else project.status

theorem stateFromProject_resume {project : Project} (h : project.resumeFrom = some .researching) :
    stateFromProject project = .researching := by
  simp [stateFromProject, h]

theorem stateFromProject_standing {project : Project} (h : project.resumeFrom = none) :
    stateFromProject project =
      if standing project = .writing then .indexing
      else if standing project = .indexing then .researching
      else standing project := by
  simp only [stateFromProject, h, Option.getD_none]
  rfl

/-! Answers keep the gates of the rows. -/

variable {reviews : List ReviewPoint} {review : ReviewPoint} {d : Decision}

@[simp] theorem ReviewPoint.pending_some {gate : ReviewGate} :
    ReviewPoint.pending ⟨gate, some d⟩ = false := rfl

@[simp] theorem ReviewPoint.pending_none {gate : ReviewGate} :
    ReviewPoint.pending ⟨gate, none⟩ = true := rfl

theorem gates_resolvePending :
    (resolvePending reviews).map (·.gate) = reviews.map (·.gate) := by
  simp only [resolvePending, List.map_map]
  apply List.map_congr_left
  intro review _
  simp only [Function.comp_apply]
  split <;> rfl

theorem gates_resolveLatest :
    (resolveLatest d reviews).map (·.gate) = reviews.map (·.gate) := by
  induction reviews with
  | nil => rfl
  | cons review reviews ih =>
    simp only [resolveLatest]
    split
    · rfl
    · simpa using ih

theorem resyncStage_running {r : Runner} (hj : r.job.isSome) : resyncStage r = r := by
  simp [resyncStage, isRunning, hj]

@[simp] theorem job_leave {r : Runner} {clear : Bool} : (leave r clear).job = none := by
  cases clear <;> rfl

theorem job_roundDone {r : Runner} {round : Round} : (roundDone r round).job = none := by
  cases round <;> exact job_leave

theorem executeRun_created {r : Runner} (hc : r.project.status = .created) :
    (executeRun r).project = setStatus { r.project with resumeFrom := none } .planning := by
  simp [executeRun, hc]

theorem executeRun_project {r : Runner} (hc : r.project.status ≠ .created) :
    (executeRun r).project = { r.project with resumeFrom := none } := by
  simp [executeRun, hc]

/-- Whether an event reads back the stage of a project that has stopped. -/
def resynced (r : Runner) (e : Event) (t : Runner) : Bool :=
  match e with
  | .get => !isRunning r
  | .die => false
  | _ => isRunning r && !isRunning t

end RownRg.Workflows

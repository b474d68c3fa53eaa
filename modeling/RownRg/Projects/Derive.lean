import RownRg.Core.Types

/-! The stage of a project read back from what it has produced. -/
namespace RownRg

/-- The columns of a project that its stage is read from and written to. -/
structure Project where
  status : ProjectStage
  /-- Whether the completion time is set. -/
  completedAt : Bool
  cancelledFrom : Option ProjectStage
  resumeFrom : Option ProjectStage
  deriving DecidableEq, Repr

/-- What the tables of a project hold. -/
structure Artefacts where
  hasBrief : Bool
  nSources : Nat
  nChunks : Nat
  nWritten : Nat
  deriving DecidableEq, Repr

namespace Derive

structure ProjectFacts extends Artefacts where
  finalized : Bool

def collectFacts (project : Project) (artefacts : Artefacts) : ProjectFacts :=
  { artefacts with finalized := project.completedAt }

def terminalStages : List ProjectStage := [.archived, .cancelled]

def deriveStage (project : Project) (facts : ProjectFacts) (running : Bool) : ProjectStage :=
  if project.status ∈ terminalStages then project.status
  else if running then project.status
  else if facts.finalized then .completed
  else if 0 < facts.nWritten then .reviewing
  else if 0 < facts.nChunks then .writing
  else if 0 < facts.nSources then .researching
  else if facts.hasBrief then .planning
  else .created

/-- The ORM's listener: the completion time follows the status. -/
def setStatus (project : Project) (stage : ProjectStage) : Project :=
  if stage = project.status then project
  else
    { project with
      status := stage
      completedAt :=
        if stage = .completed then true
        else if project.status = .completed then false
        else project.completedAt }

/-- Writes the derived stage back into the column. -/
def syncProjectStage (project : Project) (artefacts : Artefacts) (running : Bool) : Project :=
  setStatus project (deriveStage project (collectFacts project artefacts) running)

variable {project : Project} {artefacts : Artefacts} {stage : ProjectStage}

@[simp] theorem setStatus_status : (setStatus project stage).status = stage := by
  unfold setStatus
  split <;> simp_all

@[simp] theorem setStatus_cancelledFrom :
    (setStatus project stage).cancelledFrom = project.cancelledFrom := by
  unfold setStatus
  split <;> rfl

@[simp] theorem setStatus_resumeFrom :
    (setStatus project stage).resumeFrom = project.resumeFrom := by
  unfold setStatus
  split <;> rfl

@[simp] theorem setStatus_self : setStatus project project.status = project := by
  simp [setStatus]

/-- While a job runs, reading a project back changes nothing. -/
@[simp] theorem syncProjectStage_running :
    syncProjectStage project artefacts true = project := by
  simp [syncProjectStage, deriveStage]

theorem syncProjectStage_terminal (h : project.status ∈ terminalStages) :
    syncProjectStage project artefacts false = project := by
  simp [syncProjectStage, deriveStage, h]

/-- The reading of a stopped project. -/
theorem deriveStage_stopped (h : project.status ∉ terminalStages) :
    deriveStage project (collectFacts project artefacts) false =
      if project.completedAt then .completed
      else if 0 < artefacts.nWritten then .reviewing
      else if 0 < artefacts.nChunks then .writing
      else if 0 < artefacts.nSources then .researching
      else if artefacts.hasBrief then .planning
      else .created := by
  simp only [deriveStage, if_neg h]
  rfl

theorem terminal_sync :
    (syncProjectStage project artefacts false).status ∈ terminalStages ↔
      project.status ∈ terminalStages := by
  by_cases h : project.status ∈ terminalStages
  · rw [syncProjectStage_terminal h]
  · simp only [syncProjectStage, setStatus_status, deriveStage, h, iff_false]
    split_ifs <;> simp_all [terminalStages]

theorem deriveStage_finalized (h : project.status ∉ terminalStages)
    (hc : project.completedAt = true) :
    deriveStage project (collectFacts project artefacts) false = .completed := by
  simp [deriveStage, h, collectFacts, hc]

end Derive

end RownRg

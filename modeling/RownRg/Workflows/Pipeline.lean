import RownRg.Core.Types

/-! The spine: its phases in order and what each one opens when it ends. -/
namespace RownRg.Pipeline

open ProjectStage

/-- The functions a phase runs. -/
inductive PhaseRun where
  | planBrief | collect | index | write | assemble
  deriving DecidableEq, Repr

def designBriefGate (_ : Bool) : Option ReviewGate := some .designBrief

def sourcePoolGate (_ : Bool) : Option ReviewGate := some .sourcePool

/-- Opens the source gate again when the rehearsal asks for it. -/
def rehearsalGate (reopen : Bool) : Option ReviewGate :=
  if reopen then sourcePoolGate reopen else none

/-- One phase. A gate sees the rehearsal's verdict only. -/
structure Phase where
  when : ProjectStage
  run : PhaseRun
  advanceTo : ProjectStage
  running : ProjectStage
  gate : Bool → Option ReviewGate

def PHASES : List Phase :=
  [{ when := created, run := .planBrief, advanceTo := planning, running := planning,
     gate := designBriefGate },
   { when := planning, run := .collect, advanceTo := researching, running := researching,
     gate := sourcePoolGate },
   { when := researching, run := .index, advanceTo := indexing, running := indexing,
     gate := rehearsalGate },
   { when := indexing, run := .write, advanceTo := reviewing, running := writing,
     gate := fun _ => none },
   { when := reviewing, run := .assemble, advanceTo := completed, running := reviewing,
     gate := fun _ => none }]

def phaseFor (stage : ProjectStage) : Option Phase := PHASES.find? (·.when = stage)

/-- The stages a run passes, in order. -/
def spine : List ProjectStage := PHASES.map (·.when) ++ [completed]

/-- The place of a stage on the spine; display and terminal stages have none. -/
def position (stage : ProjectStage) : Option Nat := spine.idxOf? stage

/-- `p` is not later on the spine than `q`; a stage off the spine runs no phase. -/
def NotLater (p q : ProjectStage) : Prop :=
  ∀ i ∈ position p, ∃ j ∈ position q, i ≤ j

instance (p q : ProjectStage) : Decidable (NotLater p q) :=
  inferInstanceAs (Decidable (∀ i ∈ position p, ∃ j ∈ position q, i ≤ j))

variable {p q s stage : ProjectStage} {phase : Phase}

theorem notLater_refl : NotLater p p := fun i hi => ⟨i, hi, Nat.le_refl i⟩

theorem NotLater.trans (hp : NotLater p q) (hq : NotLater q s) : NotLater p s := by
  intro i hi
  obtain ⟨j, hj, hij⟩ := hp i hi
  obtain ⟨k, hk, hjk⟩ := hq j hj
  exact ⟨k, hk, Nat.le_trans hij hjk⟩

theorem eq_completed (h : NotLater completed q) : q = completed := by
  revert h
  cases q <;> decide

theorem phase_mem (h : phaseFor stage = some phase) : phase ∈ PHASES ∧ phase.when = stage := by
  refine ⟨List.mem_of_find?_eq_some h, ?_⟩
  have := List.find?_some h
  simpa using this

theorem phaseFor_completed : phaseFor completed = none := rfl

/-- A phase starts before the stage it leads to. -/
theorem when_notLater (h : phase ∈ PHASES) : NotLater phase.when phase.advanceTo := by
  simp only [PHASES, List.mem_cons, List.not_mem_nil, or_false] at h
  rcases h with rfl | rfl | rfl | rfl | rfl <;> decide

end RownRg.Pipeline

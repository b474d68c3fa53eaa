import Mathlib.Data.Bool.Basic

/-! Stages of a project and the gates a human answers. -/
namespace RownRg

inductive ProjectStage where
  | created | planning | researching | indexing | writing | reviewing | completed
  | archived | cancelled
  deriving DecidableEq, Repr

/-- The gates the spine opens; the enumeration's other members are never opened. -/
inductive ReviewGate where
  | designBrief | sourcePool
  deriving DecidableEq, Repr

end RownRg

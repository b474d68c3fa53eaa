import RownRg.Lib.Text
import Mathlib.Data.Char
import Mathlib.Data.List.Lex

/-! The values that a section fixed, as the ledger keeps them. -/

open PyText

namespace RownRg.Ledger

inductive SourceKind where
  | table
  | explicit
  | prose
  deriving DecidableEq

/-- What a value is limited to; a missing key is `none`. -/
structure Qualifiers where
  /-- `시점` -/
  asOf : Option Text
  /-- `시나리오` -/
  scenario : Option Text
  /-- `열` -/
  column : Option Text
  range : Option (Text × Text)
  deriving DecidableEq

structure Entry where
  metric : Text
  value : Text
  unit : Option Text
  qualifiers : Qualifiers
  sectionRef : Text
  chunkIds : List Text
  sourceKind : SourceKind
  deriving DecidableEq

/-- `[\s·()\-]` -/
def isMetricNoise (c : Char) : Bool := isSpace c || "·()-".toList.contains c

/-- `lower` is `str.lower`. -/
def normMetric (lower : Text → Text) (metric : Text) : Text :=
  lower (metric.filter fun c => !isMetricNoise c)

end RownRg.Ledger

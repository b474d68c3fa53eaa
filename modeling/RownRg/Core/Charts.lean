import RownRg.Core.Citations

/-! Chart fences in a body, and the renumbering of their source lines. -/

open PyText Regex

namespace RownRg.Charts

inductive FenceGroup where
  | body
  deriving DecidableEq

inductive SourceLineGroup where
  | indent
  | nums
  deriving DecidableEq

variable {γ : Type}

/-- `[ \t]*` -/
def blanks : Regex γ := star (oneOf " \t".toList)

def anyChar : Regex γ := cls fun _ => true

/-- A fenced block whose language tag is `chart`, up to the nearest closing fence. -/
def chartFenceRe : Regex FenceGroup :=
  cat [lineStart, lit "```chart".toList, blanks, chr '\n', group .body (lazy anyChar), lineStart,
    lit "```".toList, blanks, lineEnd]

def sourceLineRe : Regex SourceLineGroup :=
  cat [lineStart, group .indent blanks, lit "source:".toList, blanks,
    group .nums (plus (cls fun c => isDigit c || c == ',' || isSpace c)), lineEnd]

/-- `\n{3,}` -/
def blankRunRe : Regex Unit := cat [chr '\n', chr '\n', plus (chr '\n')]

def hasChartFence (md : Text) : Bool := chartFenceRe.found md

/-- The numbers of a source line; `none` where `int` raises `ValueError`. -/
def sourceNumbers (nums : Text) : Option (List Nat) :=
  (((nums.splitOn ',').map strip).filter fun tok => !tok.isEmpty).mapM toNat?

/-- The replacement of a source line: its mapped numbers, or nothing when no number is mapped. -/
def renumberSourceLine (localToGlobal : Nat → Option Nat) (m : Match SourceLineGroup) :
    Option Text := do
  let ns ← sourceNumbers ((m.group .nums).getD [])
  match (ns.filterMap localToGlobal).eraseDups with
  | [] => return []
  | mapped =>
    return (m.group .indent).getD [] ++ "source: ".toList ++ joinWith ", ".toList (mapped.map ofNat)

/-- Renumbers the source lines of one fence and closes the gaps they leave. -/
def renumberFence (localToGlobal : Nat → Option Nat) (fm : Match FenceGroup) : Option Text := do
  let old := (fm.group .body).getD []
  let body ← sourceLineRe.subM (renumberSourceLine localToGlobal) old
  return replaceAll old (blankRunRe.sub (fun _ => "\n\n".toList) body) fm.text

/-- Replaces the `source:` numbers of every chart fence; `none` where the source raises. -/
def renumberChartSources (md : Text) (localToGlobal : Nat → Option Nat) : Option Text :=
  chartFenceRe.subM (renumberFence localToGlobal) md

end RownRg.Charts

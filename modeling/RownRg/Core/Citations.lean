import RownRg.Lib.Scan

/-! The citation grammar: `(출처 n)` marks a paraphrased source and `[n]` a direct quotation. -/

open PyText Regex

namespace RownRg.Citations

/-- The named groups of a mark. -/
inductive MarkGroup where
  | space
  | source
  | quote
  deriving DecidableEq

variable {γ : Type}

/-- `\d+` -/
def digits : Regex γ := plus digit

/-- `\s*` -/
def spaces : Regex γ := star Regex.space

/-- `\d+(?:\s*,\s*\d+)*` -/
def numberList : Regex γ := seq digits (star (cat [spaces, chr ',', spaces, digits]))

/-- A source mark or a quotation mark, with the blanks before it. A bracketed number that is
directly followed by a parenthesis is the label of a link. -/
def markRe : Regex MarkGroup :=
  seq (group .space (star hspace)) (alt
    (cat [lit "(출처".toList, spaces, group .source numberList, spaces, chr ')'])
    (cat [chr '[', group .quote digits, chr ']', notAhead (chr '(')]))

/-- Spellings of a source mark under another label; the list is group 1. -/
def variantMarkRe : Regex Nat :=
  cat [chr '(', anyOf [lit "근거".toList, lit "자료".toList, lit "참고".toList], spaces,
    group 1 numberList, spaces, chr ')']

/-- Rewrites every label variant to the canonical label. -/
def normalizeMarkLabels (content : Text) : Text :=
  variantMarkRe.sub (fun m => "(출처 ".toList ++ (m.group 1).getD [] ++ [')']) content

def numSplitRe : Regex Unit := cat [spaces, chr ',', spaces]

/-- The numbers of one mark: several for a source mark, one for a quotation. -/
def markNumbers (m : Match MarkGroup) : List Nat :=
  match m.group .source with
  | some source => (numSplitRe.split source).map natOf
  | none => [natOf ((m.group .quote).getD [])]

/-- The numbers of the marks in order of first appearance, without repetition. -/
def numbersInOrder (content : Text) : List Nat :=
  ((markRe.finditer content).flatMap markNumbers).eraseDups

/-- The replacement of one mark: its mapped numbers, or nothing when no number is mapped. -/
def renumberMark (localToGlobal : Nat → Option Nat) (m : Match MarkGroup) : Text :=
  match ((markNumbers m).filterMap localToGlobal).eraseDups with
  | [] => []
  | g :: mapped =>
    let space := (m.group .space).getD []
    if (m.group .source).isSome then
      space ++ "(출처 ".toList ++ joinWith ", ".toList ((g :: mapped).map ofNat) ++ [')']
    else space ++ ['['] ++ ofNat g ++ [']']

/-- Replaces the numbers of the marks; unmapped numbers are dropped. -/
def renumber (content : Text) (localToGlobal : Nat → Option Nat) : Text :=
  markRe.sub (renumberMark localToGlobal) content

end RownRg.Citations

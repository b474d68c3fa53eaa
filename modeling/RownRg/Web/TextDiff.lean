import RownRg.Lib.Lcs
import RownRg.Lib.Lexing
import RownRg.Lib.Script
import Mathlib.Data.List.SplitBy

/-! The comparison of two versions of a text: by words and by blocks. -/

open PyText Regex Lcs

namespace RownRg.TextDiff

inductive OpType where
  | same
  | add
  | del
  deriving DecidableEq

structure DiffOp where
  type : OpType
  text : Text
  deriving DecidableEq

inductive BlockOp where
  | same (text : Text)
  | add (text : Text)
  | del (text : Text)
  | change (before after : Text)
  deriving DecidableEq

/-- `MAX_TOKENS` -/
def maxTokens : Nat := 1500

/-- `text.split(re)` where the pattern captures all it matches: the matches stand in the result. -/
def splitCaptured : Text → List (Piece Unit) → List Text
  | t, [] => [t]
  | t, .plain c :: ps => splitCaptured (t ++ [c]) ps
  | t, .hit m :: ps => t :: m.text :: splitCaptured [] ps

/-- `\s+` -/
def spaces : Regex Unit := plus (cls Script.isSpace)

def tokens (text : Text) : List Text :=
  (splitCaptured [] (spaces.pieces text)).filter fun t => t.length > 0

section

variable {α : Type} [DecidableEq α]

/-- One row of the table, from right to left; `below` is the row after it. -/
def dpRow (x : α) : List α → List Nat → List Nat
  | [], _ => [0]
  | y :: ys, below =>
    let rest := dpRow x ys below.tail
    (if x = y then below.tail.headD 0 + 1 else max (below.headD 0) (rest.headD 0)) :: rest

/-- The table, from its last row upwards. -/
def dpTable (ys : List α) : List α → List (List Nat)
  | [] => [List.replicate (ys.length + 1) 0]
  | x :: xs =>
    let below := dpTable ys xs
    dpRow x ys (below.headD []) :: below

/-- `dp[i][j]` -/
def dp (xs ys : List α) (i j : Nat) : Nat := ((dpTable ys xs).getD i []).getD j 0

/-- The walk over the table from a place on; the lists are what is left there. -/
def walk (dp : Nat → Nat → Nat) : Nat → Nat → List α → List α → List (Edit α)
  | i, j, x :: xs, y :: ys =>
    if x = y then .same x :: walk dp (i + 1) (j + 1) xs ys
    else if dp (i + 1) j ≥ dp i (j + 1) then .del x :: walk dp (i + 1) j xs (y :: ys)
    else .add y :: walk dp i (j + 1) (x :: xs) ys
  | _, _, xs, ys => xs.map .del ++ ys.map .add
termination_by _ _ xs ys => xs.length + ys.length

def edits (xs ys : List α) : List (Edit α) := walk (dp xs ys) 0 0 xs ys

end

def push (ops : List DiffOp) (type : OpType) (text : Text) : List DiffOp :=
  match ops.getLast? with
  | none => ops ++ [⟨type, text⟩]
  | some last =>
    if last.type = type then ops.dropLast ++ [{ last with text := last.text ++ text }]
    else ops ++ [⟨type, text⟩]

def pushEdit (ops : List DiffOp) : Edit Text → List DiffOp
  | .same t => push ops .same t
  | .del t => push ops .del t
  | .add t => push ops .add t

/-- The comparison by words. -/
def diffWords (a b : Text) : List DiffOp :=
  if a = b then (if a.isEmpty then [] else [⟨.same, a⟩])
  else
    let ta := tokens a
    let tb := tokens b
    if ta.length > maxTokens || tb.length > maxTokens then [⟨.del, a⟩, ⟨.add, b⟩]
    else (edits ta tb).foldl pushEdit []

/-- `\n{2,}` -/
def emptyLines : Regex Unit := seq (chr '\n') (plus (chr '\n'))

def splitBlocks (content : Text) : List Text :=
  ((emptyLines.split content).map Script.trim).filter fun b => b.length > 0

/-- The texts of the deletions in front, and what follows them. -/
def takeDels : List (Edit Text) → List Text × List (Edit Text)
  | .del t :: raw => let r := takeDels raw; (t :: r.1, r.2)
  | raw => ([], raw)

def takeAdds : List (Edit Text) → List Text × List (Edit Text)
  | .add t :: raw => let r := takeAdds raw; (t :: r.1, r.2)
  | raw => ([], raw)

/-- Deletions and additions side by side are changes; what is left over stays. -/
def pairUp : List Text → List Text → List BlockOp
  | d :: dels, a :: adds => .change d a :: pairUp dels adds
  | dels, adds => dels.map .del ++ adds.map .add

theorem length_takeDels (raw : List (Edit Text)) : (takeDels raw).2.length ≤ raw.length := by
  induction raw with
  | nil => exact le_rfl
  | cons e raw ih =>
    cases e with
    | del t =>
      simp only [takeDels, List.length_cons]
      omega
    | same t | add t => exact le_rfl

theorem length_takeAdds (raw : List (Edit Text)) : (takeAdds raw).2.length ≤ raw.length := by
  induction raw with
  | nil => exact le_rfl
  | cons e raw ih =>
    cases e with
    | add t =>
      simp only [takeAdds, List.length_cons]
      omega
    | same t | del t => exact le_rfl

/-- The loop over the edits of the blocks. -/
def regroup : List (Edit Text) → List BlockOp
  | [] => []
  | .same t :: raw => .same t :: regroup raw
  | .add t :: raw => .add t :: regroup raw
  | .del t :: raw =>
    let dels := takeDels raw
    let adds := takeAdds dels.2
    pairUp (t :: dels.1) adds.1 ++ regroup adds.2
termination_by raw => raw.length
decreasing_by
  · simp
  · simp
  · have hdels := length_takeDels raw
    have hadds := length_takeAdds (takeDels raw).2
    simp only [List.length_cons]
    omega

/-- The comparison by blocks. -/
def diffBlocks (before after : Text) : List BlockOp :=
  regroup (edits (splitBlocks before) (splitBlocks after))

end RownRg.TextDiff

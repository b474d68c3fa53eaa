import RownRg.Core.Charts
import RownRg.Core.State
import RownRg.Lib.Pairing

/-! From the numbers a section was written with to the source numbers of the whole report. -/

open PyText RownRg.Citations

namespace RownRg.Sections

variable {ι : Type} [DecidableEq ι]

/-- Local number to source number: the numbers of the body in order of first appearance pair off
with the cited chunks. -/
def localToGlobal (content : Text) (citedChunkIds : List ι) (chunkToGlobal : ι → Option Nat) :
    List (Nat × Nat) :=
  ((numbersInOrder content).zip citedChunkIds).filterMap fun x =>
    (chunkToGlobal x.2).map fun g => (x.1, g)

/-- Rewrites the body to source numbers; `none` where the chart pass raises. -/
def renumberContent (content : Text) (citedChunkIds : List ι) (chunkToGlobal : ι → Option Nat) :
    Option Text :=
  let mapping := localToGlobal content citedChunkIds chunkToGlobal
  Charts.renumberChartSources (renumber content fun n => mapping.lookup n) fun n => mapping.lookup n

/-- `out.setdefault(g, [])`, then the chunk is appended once. -/
def addChunk (out : List (Nat × List ι)) (g : Nat) (cid : ι) : List (Nat × List ι) :=
  if out.any fun x => x.1 = g then
    out.map fun x => if x.1 = g then (g, if cid ∈ x.2 then x.2 else x.2 ++ [cid]) else x
  else out ++ [(g, [cid])]

/-- Source number to the chunks it stands for, taken before the body is rewritten. -/
def citationChunkMap (content : Text) (citedChunkIds : List ι) (chunkToGlobal : ι → Option Nat) :
    List (Nat × List ι) :=
  ((numbersInOrder content).zip citedChunkIds).foldl (fun out x =>
    match chunkToGlobal x.2 with
    | none => out
    | some g => addChunk out g x.2) []

omit [DecidableEq ι]

variable {content : Text} {cited : List ι} {chunkToGlobal : ι → Option Nat}

theorem nodup_numbersInOrder (content : Text) : (numbersInOrder content).Nodup :=
  FirstSeen.nodup _

/-- A number goes to the source of the chunk at its position. -/
theorem lookup_localToGlobal (n : Nat) :
    (localToGlobal content cited chunkToGlobal).lookup n =
      (((numbersInOrder content).zip cited).lookup n).bind chunkToGlobal :=
  Pairing.lookup_filterMap_zip cited (nodup_numbersInOrder content)

end RownRg.Sections

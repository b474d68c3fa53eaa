import RownRg.Sections.Renumber

/-! Which chunks stand behind the numbers of one section. -/

open PyText RownRg.Citations

namespace RownRg.Sections

variable {ι : Type} {content : Text} {sourceIds : List ι} {sectionMeta : SectionMeta ι} {n : Nat}

/-- Number to chunks, and whether the numbers can be traced to chunks at all. A recorded map is the
answer; before assembly the numbers pair off with the stored ids; an assembled section without a
record is given up. -/
def markerChunkIds (content : Text) (sourceIds : List ι) (sectionMeta : SectionMeta ι)
    (renumbered : Bool) : List (Nat × List ι) × Bool :=
  let out := sectionMeta.citationChunks.filter fun x => !x.2.isEmpty
  if !out.isEmpty then (out, true)
  else if renumbered then ([], false)
  else
    let positional := ((numbersInOrder content).zip sourceIds).map fun x => (x.1, [x.2])
    (positional, !positional.isEmpty)

/-- Without a record the evidence screen reads the stored ids by position. -/
theorem lookup_markerChunkIds (h : sectionMeta.citationChunks = []) (n : Nat) :
    (markerChunkIds content sourceIds sectionMeta false).1.lookup n =
      (((numbersInOrder content).zip sourceIds).lookup n).map fun c => [c] := by
  have hmap := Pairing.lookup_filterMap_zip (a := n) (h := fun c => some [c]) sourceIds
    (nodup_numbersInOrder content)
  simpa [markerChunkIds, h, Option.map_eq_bind, Function.comp_def] using hmap

end RownRg.Sections

import RownRg.Core.State
import RownRg.Lib.Runs
import RownRg.Web.RefLabels

/-! The outline editor: sections move, come and go, and references are renumbered with them. -/

open PyText

namespace RownRg.Web

structure DraftSection where
  id : Text
  title : Text
  direction : Text
  keyPoints : List Text
  analysts : List Text
  buildsOn : List Text

structure DraftChapter where
  id : Text
  title : Text
  sections : List DraftSection

abbrev Draft := List DraftChapter

/-- `Map.get` of what was set: the entry set last, and `undefined` or an empty text count as none. -/
def get {α : Type} [DecidableEq α] (entries : List (α × Text)) (key : α) : Option Text :=
  (lastFor key entries).filter fun x => !x.isEmpty

/-- The labels of all items, and the items of all labels. -/
structure RefIndex where
  idByLabel : List (Text × Text)
  chapterIdByNum : List (Text × Text)
  labelById : List (Text × Text)
  numByChapterId : List (Text × Text)

/-- The sections with the numbers of their chapter and their own, both from one. -/
def places (d : Draft) : List (Nat × Nat × DraftSection) :=
  (d.zipIdx 1).flatMap fun x => (x.1.sections.zipIdx 1).map fun y => (x.2, y.2, y.1)

def refIndex (d : Draft) : RefIndex where
  idByLabel := (places d).map fun x => (BuildsOn.sectionLabel x.1 x.2.1, x.2.2.id)
  chapterIdByNum := (d.zipIdx 1).map fun x => (ofNat x.2, x.1.id)
  labelById := (places d).map fun x => (x.2.2.id, BuildsOn.sectionLabel x.1 x.2.1)
  numByChapterId := (d.zipIdx 1).map fun x => (x.1.id, ofNat x.2)

/-- One reference, renumbered; it stays as it is when its target is gone. -/
def remapRef (old new : RefIndex) (raw : Text) : Text :=
  match parseRefLabel raw with
  | none => raw
  | some ref =>
    match ref.sectionNumber with
    | none =>
      match (get old.chapterIdByNum (ofNat ref.chapter)).bind (get new.numByChapterId) with
      | some num => num ++ ".*".toList
      | none => raw
    | some n =>
      match (get old.idByLabel (BuildsOn.sectionLabel ref.chapter n)).bind (get new.labelById) with
      | none => raw
      | some label =>
        let parts := label.splitOn '.'
        formatRefLabel ⟨natOf (parts.getD 0 []), some (natOf (parts.getD 1 [])), ref.metric⟩

def withRemappedRefs (before after : Draft) : Draft :=
  let old := refIndex before
  let new := refIndex after
  after.map fun ch =>
    { ch with sections := ch.sections.map fun s =>
        { s with buildsOn := s.buildsOn.map (remapRef old new) } }

/-- `array.splice(at, 0, item)` -/
def insertAt {α : Type} (xs : List α) (i : Nat) (x : α) : List α := xs.take i ++ x :: xs.drop i

/-- The item and its neighbour change places, if there is one. -/
def move {α : Type} (xs : List α) (i : Nat) (down : Bool) : List α :=
  if down then
    match xs[i]?, xs[i + 1]? with
    | some x, some y => (xs.set i y).set (i + 1) x
    | _, _ => xs
  else
    match i with
    | 0 => xs
    | i + 1 =>
      match xs[i]?, xs[i + 1]? with
      | some x, some y => (xs.set i y).set (i + 1) x
      | _, _ => xs

def moveSectionTo (d : Draft) (ci si toCi toSi : Nat) : Draft :=
  match d[ci]?.bind (·.sections[si]?) with
  | none => d
  | some moving =>
    let next := d.modify ci fun ch => { ch with sections := ch.sections.eraseIdx si }
    let at' := if ci = toCi ∧ si < toSi then toSi - 1 else toSi
    next.modify toCi fun ch =>
      { ch with sections := insertAt ch.sections (min at' ch.sections.length) moving }

def moveChapterTo (d : Draft) (i dest : Nat) : Draft :=
  match d[i]? with
  | none => d
  | some moving => insertAt (d.eraseIdx i) (if i < dest then dest - 1 else dest) moving

def emptySection (id : Text) : DraftSection := ⟨id, [], [], [[]], [], []⟩

/-- What changes the structure; ids of new items come with the edit. -/
inductive Edit where
  | moveSection (ci si toCi toSi : Nat)
  | moveChapter (i dest : Nat)
  | shiftSection (ci si : Nat) (down : Bool)
  | removeSection (ci si : Nat)
  | addSection (ci : Nat) (id : Text)
  | shiftChapter (i : Nat) (down : Bool)
  | removeChapter (i : Nat)
  | duplicateChapter (i : Nat) (id : Text) (sectionIds : List Text)
  | addChapter (id sectionId : Text)

def copyOf (ch : DraftChapter) (id : Text) (sectionIds : List Text) : DraftChapter where
  id := id
  title := if (Script.trim ch.title).isEmpty then [] else ch.title ++ " (복사)".toList
  sections := (ch.sections.zip sectionIds).map fun x => { x.1 with id := x.2 }

/-- The draft as an edit leaves it, with the references still as they were. -/
def edited (d : Draft) : Edit → Draft
  | .moveSection ci si toCi toSi => moveSectionTo d ci si toCi toSi
  | .moveChapter i dest => moveChapterTo d i dest
  | .shiftSection ci si down =>
    d.modify ci fun ch => { ch with sections := move ch.sections si down }
  | .removeSection ci si => d.modify ci fun ch => { ch with sections := ch.sections.eraseIdx si }
  | .addSection ci id =>
    d.modify ci fun ch => { ch with sections := ch.sections ++ [emptySection id] }
  | .shiftChapter i down => move d i down
  | .removeChapter i => d.eraseIdx i
  | .duplicateChapter i id sectionIds =>
    match d[i]? with
    | none => d
    | some ch => d.take (i + 1) ++ copyOf ch id sectionIds :: d.drop (i + 1)
  | .addChapter id sectionId => d ++ [⟨id, [], [emptySection sectionId]⟩]

def chapterIds (d : Draft) : List Text := d.map (·.id)

def sectionIds (d : Draft) : List Text := d.flatMap fun ch => ch.sections.map (·.id)

/-- The ids of new items were never there, and there are as many as are needed. -/
def Edit.Fresh (d : Draft) : Edit → Prop
  | .addSection _ id => id ∉ sectionIds d
  | .duplicateChapter i id ids => id ∉ chapterIds d ∧ ids.Nodup ∧ (∀ x ∈ ids, x ∉ sectionIds d) ∧
      ids.length = (d[i]?.elim 0 fun ch => ch.sections.length)
  | .addChapter id sectionId => id ∉ chapterIds d ∧ sectionId ∉ sectionIds d
  | .moveSection _ _ toCi _ => toCi < d.length
  | _ => True

instance decidableFresh (d : Draft) (e : Edit) : Decidable (e.Fresh d) := by
  cases e <;> unfold Edit.Fresh <;> infer_instance

/-- Every edit of the structure goes through the renumbering. -/
def step (d : Draft) (e : Edit) : Option Draft :=
  if e.Fresh d then some (withRemappedRefs d (edited d e)) else none

end RownRg.Web

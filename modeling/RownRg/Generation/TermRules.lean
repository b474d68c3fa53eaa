import Mathlib.Data.List.Sort
import RownRg.Lib.Dedup
import RownRg.Lib.Text

/-! The rules for terms that a writer is given: which notation each term is to have. -/

open PyText

namespace RownRg.Terms

/-- An entry of the glossary or of the mined terms; an empty text is a missing field. -/
structure Entry where
  ko : Text
  en : Text
  abbr : Text
  definition : Text
  sourceId : Text
  sourceTitle : Text
  glossary : Bool
  deriving DecidableEq

structure Chunk where
  content : Text
  sourceId : Text
  isSummary : Bool
  deriving DecidableEq

/-- `_MAX_INJECTED` -/
def maxInjected : Nat := 12

/-- `_MIN_EN_MATCH` -/
def minEnMatch : Nat := 4

/-- `_MIN_ABSORB_CHARS` -/
def minAbsorbChars : Nat := 4

/-- `_HEADER` -/
def header : Text :=
  ("용어 규칙 — 아래 용어는 근거 자료에 정의·병기 표기가 있는 것들이다. " ++
    "서술·번역 시 반드시 따르고, 자료마다 정의가 다르면 인용하는 그 자료의 정의를 따르라:").toList

/-- `_TAIL` -/
def tail : Text :=
  ("위 목록에 없는 전문 용어도 뜻을 임의로 확정해 옮기지 마라 — 확신이 없으면 " ++
    "원어를 병기하고 문맥이 뒷받침하는 범위까지만 번역하라.").toList

/-- `a or b` -/
def orElse (a b : Text) : Text := if a = [] then b else a

/-- `ko.replace(" ", "")` -/
def bareOf (t : Text) : Text := t.filter (· ≠ ' ')

def Entry.bare (e : Entry) : Text := bareOf e.ko

/-- A Korean notation beside a foreign name. -/
def Entry.Prescribes (e : Entry) : Prop := e.ko ≠ [] ∧ (e.en ≠ [] ∨ e.abbr ≠ [])

instance instDecidablePrescribes (e : Entry) : Decidable e.Prescribes :=
  inferInstanceAs (Decidable (_ ∧ _))

/-- The entry without its Korean notation. -/
def Entry.muted (e : Entry) : Entry := { e with ko := [] }

/-- `_appears` -/
def appears (lower : Text → Text) (e : Entry) (text lowered : Text) : Bool :=
  (minEnMatch ≤ (strip e.en).length && contains (lower (strip e.en)) lowered) ||
    (2 ≤ (strip e.abbr).length && contains (strip e.abbr) text) ||
    (2 ≤ (strip e.ko).length && contains (strip e.ko) text)

/-- `_label` -/
def label (e : Entry) : Text :=
  let base := orElse (orElse e.en e.ko) e.abbr
  if e.abbr ≠ [] ∧ base ≠ e.abbr then base ++ '(' :: e.abbr ++ [')'] else base

/-- The names between the parentheses of the first appearance. -/
def inner (e : Entry) : Text := joinWith ", ".toList ([e.en, e.abbr].filter (· ≠ []))

/-- `ko(en, abbr)` -/
def firstForm (e : Entry) : Text := e.ko ++ '(' :: inner e ++ [')']

/-- `_pair_clause` -/
def pairClause (e : Entry) : Text :=
  if e.Prescribes then
    "한글 표기는 \"".toList ++ e.ko ++ "\" — 첫 등장 시 \"".toList ++ firstForm e ++
      "\", 이후 \"".toList ++ orElse e.abbr e.ko ++ ['"']
  else if e.en ≠ [] ∧ e.abbr ≠ [] then
    "한글 표기를 새로 만들지 마라 — 첫 등장 시 \"".toList ++ e.en ++ '(' :: e.abbr ++
      ")\", 이후 \"".toList ++ e.abbr ++ ['"']
  else []

def definitionClause (e : Entry) : Text :=
  orElse (strip e.sourceTitle) "근거 자료".toList ++ "의 정의 = \"".toList ++ e.definition ++
    "\" — 이 의미로 서술·번역하라".toList

def clauses (e : Entry) : List Text :=
  (if e.definition ≠ [] then [definitionClause e] else []) ++
    (if pairClause e ≠ [] then [pairClause e] else [])

/-- `_line` -/
def line (e : Entry) : Text :=
  "- ".toList ++ label e ++ ": ".toList ++ joinWith " · ".toList (clauses e)

/-- The line says something. -/
def directs (e : Entry) : Bool :=
  !(": ".toList.isSuffixOf (line e) || [':'].isSuffixOf (line e))

/-- `term_key` -/
def termKey (e : Entry) : Text := orElse (orElse e.en e.abbr) e.ko

/-- `" ".join(raw.split()).lower()` -/
def normalized (lower : Text → Text) (raw : Text) : Text :=
  lower (joinWith [' '] ((raw.splitOnP isSpace).filter (· ≠ [])))

/-- `_pair_conflict_key` -/
def pairConflictKey (lower : Text → Text) (e : Entry) : Option Text :=
  if e.Prescribes then some (normalized lower (orElse e.en e.abbr)) else none

/-! Notations that differ in blanks or in what stands before them. -/

/-- Whether the longer notation is taken for the shorter one. -/
def absorbs (rep bare : Text) : Bool :=
  bare = rep || (minAbsorbChars ≤ rep.length && rep.isSuffixOf bare)

/-- One notation: `reps` and `remap` after it. -/
def absorbStep (st : List Text × List (Text × Text)) (bare : Text) :
    List Text × List (Text × Text) :=
  match st.1.find? (absorbs · bare) with
  | some rep => (st.1, st.2 ++ [(bare, rep)])
  | none => (st.1 ++ [bare], st.2 ++ [(bare, bare)])

def byLength (bares : List Text) : List Text :=
  bares.insertionSort fun a b => a.length ≤ b.length

/-- `_absorb_bares`: the representative of each notation. -/
def absorbBares (votes : List Text) : List (Text × Text) :=
  ((byLength votes.eraseDups).foldl absorbStep ([], [])).2

def repOf (remap : List (Text × Text)) (bare : Text) : Option Text :=
  (remap.find? fun x => x.1 = bare).map Prod.snd

/-- `merged`: the representatives with their votes. -/
def merged (votes : List Text) : List (Text × Nat) :=
  let reps := votes.filterMap (repOf (absorbBares votes))
  reps.eraseDups.map fun rep => (rep, reps.count rep)

/-- The majority, when it has two votes and more than any other. -/
def winner (counts : List (Text × Nat)) : Option Text :=
  match counts.insertionSort fun x y => y.2 ≤ x.2 with
  | first :: second :: _ => if 2 ≤ first.2 ∧ second.2 < first.2 then some first.1 else none
  | _ => none

variable (lower : Text → Text)

def votesFor (entries : List Entry) (key : Text) : List Text :=
  (entries.filter fun e => pairConflictKey lower e = some key).map Entry.bare

/-- `_pair_conflicts` at a key: the representatives and the winner. -/
def pairConflicts (entries : List Entry) (key : Text) :
    Option (List (Text × Text) × Option Text) :=
  let votes := votesFor lower entries key
  if (merged votes).length < 2 then none else some (absorbBares votes, winner (merged votes))

/-- `_rank` -/
def rank (packSources : List Text) (e : Entry) : Int :=
  if e.glossary then -1
  else if e.definition ≠ [] then (if e.sourceId ∈ packSources then 0 else 1)
  else if e.Prescribes then 2 else 3

/-- `glossary_ko` at a key. -/
def glossaryKo (entries : List Entry) (key : Text) : Option Text :=
  (entries.find? fun e => e.glossary && pairConflictKey lower e = some key).map Entry.bare

def mined (entries : List Entry) : List Entry := entries.filter fun e => !e.glossary

/-- Whether the notation of an entry is left as it is. -/
def keeps (entries : List Entry) (e : Entry) : Bool :=
  if e.glossary then true
  else match pairConflictKey lower e with
  | none => true
  | some key =>
    match glossaryKo lower entries key with
    | some ko => e.bare = ko
    | none =>
      match pairConflicts lower (mined entries) key with
      | none => true
      | some (remap, won) => won.isSome && repOf remap e.bare = won

/-- What becomes of an entry that appears: without its notation it keeps its definition. -/
def adjust (entries : List Entry) (e : Entry) : Option Entry :=
  if keeps lower entries e then some e
  else if e.definition ≠ [] then some e.muted
  else none

def citable (chunks : List Chunk) : List Chunk := chunks.filter fun c => !c.isSummary

def packText (chunks : List Chunk) : Text := joinWith ['\n'] ((citable chunks).map Chunk.content)

/-- The entries that appear in the pack, when there is something to cite. -/
def hits (entries : List Entry) (chunks : List Chunk) : List Entry :=
  if entries = [] ∨ citable chunks = [] then []
  else entries.filter fun e => appears lower e (packText chunks) (lower (packText chunks))

def adjusted (entries : List Entry) (chunks : List Chunk) : List Entry :=
  (hits lower entries chunks).filterMap (adjust lower entries)

def ranked (entries : List Entry) (chunks : List Chunk) : List Entry :=
  (adjusted lower entries chunks).insertionSort fun e f =>
    rank ((citable chunks).map Chunk.sourceId) e ≤ rank ((citable chunks).map Chunk.sourceId) f

/-- The entries that get a line: those that say something, each line once, up to the limit. -/
def injected (entries : List Entry) (chunks : List Chunk) : List Entry :=
  (FirstSeen.pushNew line ((ranked lower entries chunks).filter directs) []).take maxInjected

def injectedLines (entries : List Entry) (chunks : List Chunk) : List Text :=
  (injected lower entries chunks).map line

/-- `format_term_injection` -/
def formatTermInjection (entries : List Entry) (chunks : List Chunk) : Text × List Text :=
  if injected lower entries chunks = [] then ([], [])
  else (joinWith ['\n'] (header :: injectedLines lower entries chunks ++ [tail]),
    (injected lower entries chunks).map termKey)

end RownRg.Terms

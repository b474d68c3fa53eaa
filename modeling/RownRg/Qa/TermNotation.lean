import RownRg.Generation.TermRules
import RownRg.Lib.Spots

/-! The notations of a report against the table of terms. -/

open PyText Regex

namespace RownRg.Terms

inductive PairGroup where
  | ko
  | inner
  deriving DecidableEq

def isHangul (c : Char) : Bool := '가' ≤ c && c ≤ '힣'

def isLatin (c : Char) : Bool := ('A' ≤ c && c ≤ 'Z') || ('a' ≤ c && c ≤ 'z')

def isLatinDigit (c : Char) : Bool := isLatin c || ('0' ≤ c && c ≤ '9')

/-- `_KO_PAREN_RE` -/
def koParenRe : Regex PairGroup :=
  cat [group .ko (cat [
      upTo (cat [cls isHangul, plus (cls fun c => isHangul c || isLatinDigit c), chr ' ']) 3,
      cls isHangul, star (cls fun c => isHangul c || isLatinDigit c)]),
    chr '(',
    group .inner (seq (cls isLatin) (between (cls fun c => c != ')' && c != '\n' && !isHangul c) 2 90)),
    chr ')']

/-- `_KO_FRAGMENT_RE` -/
def koFragmentRe : Regex Unit :=
  cat [anyOf (oneOf "을를이가은는와과에의로".toList ::
    (["으로", "에서", "하는", "되는", "같은", "또는", "동시에", "위한", "따른", "넘어", "따라", "대해",
      "대한", "통한", "관한", "인한", "아니라", "이라도", "이른바", "불리는", "비롯한", "아닌", "중인",
      "위해", "및", "년까지", "년부터"].map fun w => lit w.toList)), space]

/-- `_MAX_ABBR_CHARS` -/
def maxAbbrChars : Nat := 20

/-- `_looks_abbr`, of a name in Latin letters. -/
def looksAbbr (token : Text) : Bool :=
  !token.contains ' ' && 2 ≤ token.length && token.length ≤ maxAbbrChars &&
    token.countP (fun c => 'a' ≤ c && c ≤ 'z') ≤ 1

/-- `[A-Za-z0-9&/\-.'’ ]` -/
def isNameChar (c : Char) : Bool := isLatinDigit c || "&/-.'’ ".toList.contains c

/-- What is between the parentheses: the name that counts and the abbreviation. -/
def namesOf (inner : Text) : Option (Text × Option Text) :=
  let parts := (((strip inner).splitOn ',').map strip).filter (· ≠ [])
  if parts.any fun p => !p.all isNameChar then none
  else match parts with
  | [en, abbr] => if looksAbbr abbr then some (en, some abbr) else none
  | [name] => if looksAbbr name then some (name, some name) else some (name, none)
  | _ => none

/-- The notation behind the last piece that belongs to the sentence. -/
def withoutFragments (ko : Text) : Text :=
  match (koFragmentRe.spots ko).getLast? with
  | some spot => strip spot.2.2
  | none => ko

/-- `extract_pairs` -/
def extractPairs (content : Text) : List (Text × Text × Option Text) :=
  (koParenRe.finditer content).filterMap fun m =>
    (namesOf ((m.group .inner).getD [])).bind fun names =>
      let ko := withoutFragments ((m.group .ko).getD [])
      if ko = [] then none else some (ko, names)

/-- One representative of `_collapse_variants`: without blanks, as written, and where. -/
structure Variant where
  bare : Text
  ko : Text
  refs : List Text
  deriving DecidableEq

/-- One notation: it goes to the first representative that stands for it. -/
def collapseStep (reps : List Variant) (x : Text × List Text) : List Variant :=
  match reps.findIdx? fun v => absorbs v.bare (bareOf x.1) with
  | some i => reps.modify i fun v => { v with refs := v.refs ++ x.2.filter (· ∉ v.refs) }
  | none => reps ++ [⟨bareOf x.1, x.1, x.2⟩]

/-- `_collapse_variants` -/
def collapseVariants (kos : List (Text × List Text)) : List (Text × List Text) :=
  ((kos.insertionSort fun x y => (bareOf x.1).length ≤ (bareOf y.1).length).foldl collapseStep []).map
    fun v => (v.ko, v.refs)

structure Section where
  chapter : Nat
  ref : Text
  content : Text
  deriving DecidableEq

/-- A notation of the report, with the name it belongs to and its place. -/
structure Use where
  key : Text
  ko : Text
  chapter : Nat
  ref : Text
  deriving DecidableEq

structure Finding where
  chapterNumber : Nat
  severity : Text
  category : Text
  sectionRef : Text
  detail : Text
  deriving DecidableEq

/-- `_MAX_SAMPLES` -/
def maxSamples : Nat := 5

variable (lower : Text → Text)

def uses (sections : List Section) : List Use :=
  sections.flatMap fun s => (extractPairs s.content).map fun p =>
    ⟨normalized lower p.2.1, p.1, s.chapter, s.ref⟩

def keysOf (us : List Use) : List Text := (us.map Use.key).eraseDups

/-- The notations of a name, in the order of first sight. -/
def kosOf (us : List Use) (key : Text) : List Text :=
  ((us.filter fun u => u.key = key).map Use.ko).eraseDups

def refsOf (us : List Use) (key ko : Text) : List Text :=
  ((us.filter fun u => u.key = key && u.ko = ko).map Use.ref).eraseDups

/-- `first_at` -/
def firstAt (us : List Use) (key : Text) : Nat × Text :=
  ((us.find? fun u => u.key = key).map fun u => (u.chapter, u.ref)).getD (0, [])

/-- `by_key`: the entries under a name, English or short. -/
def byKey (entries : List Entry) (key : Text) : List Entry :=
  entries.flatMap fun e =>
    (if e.en ≠ [] ∧ normalized lower e.en = key then [e] else []) ++
      (if e.abbr ≠ [] ∧ normalized lower e.abbr = key then [e] else [])

/-- The entries with a notation under a name; the glossary alone where it has one. -/
def ruler (entries : List Entry) (key : Text) : List Entry :=
  let cands := (byKey lower entries key).filter fun e => e.ko ≠ []
  if cands.filter Entry.glossary ≠ [] then cands.filter Entry.glossary else cands

def tableKos (cands : List Entry) : List Text := (cands.map fun e => strip e.ko).eraseDups

def quoted (t : Text) : Text := '"' :: t ++ ['"']

def conflictDetail (cands : List Entry) (kos : List Text) : Text :=
  let srcs := joinWith " · ".toList ((cands.take maxSamples).map fun e =>
    quoted e.ko ++ '(' :: orElse (strip e.sourceTitle) ['?'] ++ [')'])
  let label := ((cands.head?).map fun e => orElse e.en e.abbr).getD []
  label ++ "의 한글 표기가 자료 간에 갈린다: ".toList ++ srcs ++ " - 본문은 ".toList ++
    joinWith " / ".toList ((kos.take 3).map quoted) ++ " 사용 중, 정본 표기 확인 필요".toList

/-- The order in which `sorted` puts two texts. -/
def textBefore : Text → Text → Bool
  | [], _ => true
  | _ :: _, [] => false
  | a :: s, b :: t => a < b || (a == b && textBefore s t)

def mismatchDetail (cands : List Entry) (ko : Text) (refs : List Text) : Text :=
  let label := ((cands.head?).map fun e => orElse e.en e.abbr).getD []
  let src := ((cands.head?).map fun e => strip e.sourceTitle).getD []
  "본문 ".toList ++ quoted (ko ++ '(' :: label ++ [')']) ++ " ↔ 용어표 ".toList ++
    quoted (joinWith " / ".toList ((tableKos cands).insertionSort fun a b => textBefore a b)) ++
    (if src ≠ [] then '(' :: src ++ [')'] else []) ++ " - 표기 통일 확인 필요, ".toList ++
    ofNat refs.length ++ "개 절: ".toList ++ joinWith ", ".toList (refs.take maxSamples) ++
    (if maxSamples < refs.length then " …".toList else [])

def warning (place : Nat × Text) (category detail : Text) : Finding :=
  ⟨place.1, "warning".toList, category, place.2, detail⟩

/-- Whether the notations come down to one. -/
def OneNotation (kos : List Text) : Prop := (collapseVariants (kos.map (·, []))).length ≤ 1

instance instDecidableOneNotation (kos : List Text) : Decidable (OneNotation kos) :=
  inferInstanceAs (Decidable (_ ≤ _))

/-- What one name of the report is reported for, against the entries under it. -/
def keyFindings (us : List Use) (entries : List Entry) (key : Text) : List Finding :=
  let cands := ruler lower entries key
  if cands = [] then []
  else if ¬ OneNotation (tableKos cands) then
    [warning (firstAt us key) "용어표 상충".toList (conflictDetail cands (kosOf us key))]
  else
    let tableBares := (tableKos cands).map bareOf
    ((kosOf us key).filter fun ko => !(tableBares.any fun t => absorbs t (bareOf ko))).map fun ko =>
      warning ((firstAt us key).1, (refsOf us key ko).headD []) "용어 표기 불일치".toList
        (mismatchDetail cands ko (refsOf us key ko))

/-- The first check of `term_notation_findings`: each finding with the name it is about. -/
def tableFindings (sections : List Section) (entries : List Entry) : List (Text × Finding) :=
  (keysOf (uses lower sections)).flatMap fun key =>
    (keyFindings lower (uses lower sections) entries key).map fun f => (key, f)

/-- `_MAX_VARIANCE_ROWS` -/
def maxVarianceRows : Nat := 12

/-- `_MAX_REVIEW_TERMS` -/
def maxReviewTerms : Nat := 8

/-- The notations of a name that remain after the variants are brought together. -/
def collapsedOf (us : List Use) (key : Text) : List (Text × List Text) :=
  collapseVariants ((kosOf us key).map fun ko => (ko, refsOf us key ko))

def varianceDetail (collapsed : List (Text × List Text)) : Text :=
  "같은 원어의 한글 표기가 ".toList ++ ofNat collapsed.length ++ "가지: ".toList ++
    joinWith " · ".toList ((collapsed.insertionSort fun x y => textBefore x.1 y.1).map fun x =>
      quoted x.1 ++ '(' :: joinWith ", ".toList (x.2.take 2) ++ [')']) ++ " - 하나로 통일 필요".toList

/-- The second check: names with more than one notation in the report. -/
def varianceFindings (us : List Use) : List Finding :=
  let keys := (keysOf us).filter fun key => 2 ≤ (collapsedOf us key).length
  let rows := keys.insertionSort fun key key' =>
    (collapsedOf us key').length ≤ (collapsedOf us key).length
  ((rows.take maxVarianceRows).map fun key =>
    warning (firstAt us key) "용어 표기 요동".toList (varianceDetail (collapsedOf us key))) ++
  if maxVarianceRows < rows.length then
    [warning (0, []) "용어 표기 요동".toList
      ("그 외 표기 요동 용어 ".toList ++ ofNat (rows.length - maxVarianceRows) ++
        "개 - 변형이 많은 순으로 위에 실었다".toList)]
  else []

def namesUnder (e : Entry) : List Text := ([e.en, e.abbr].filter (· ≠ [])).map (normalized lower)

/-- `defined` at a name. -/
def definedAs (entries : List Entry) (key : Text) : Option Text :=
  if key ∈ (entries.filter Entry.glossary).flatMap (namesUnder lower) then none
  else (entries.find? fun e => e.definition ≠ [] && key ∈ namesUnder lower e).map fun e =>
    orElse e.en e.abbr

def flagged (us : List Use) (entries : List Entry) (key : Text) : Bool :=
  keyFindings lower us entries key ≠ [] || 2 ≤ (collapsedOf us key).length

/-- The third check: one row with the notations of the terms that the sources define. -/
def reviewFindings (us : List Use) (entries : List Entry) : List Finding :=
  let keys := (keysOf us).filter fun key =>
    (definedAs lower entries key).isSome && !flagged lower us entries key
  let review := keys.flatMap fun key => (kosOf us key).map fun ko =>
    quoted (ko ++ '(' :: (definedAs lower entries key).getD [] ++ [')']) ++ " [".toList ++
      (refsOf us key ko).headD [] ++ [']']
  if review = [] then []
  else [warning (((keys.head?).map (firstAt us)).getD (0, [])) "정의 용어 표기 검토".toList
    ("자료가 정의한 용어의 본문 표기 ".toList ++ ofNat review.length ++
      "건 - 뜻이 자료 정의와 맞는지 확인: ".toList ++
      joinWith " · ".toList (review.take maxReviewTerms) ++
      (if maxReviewTerms < review.length then " …".toList else []))]

/-- `term_notation_findings` -/
def termNotationFindings (sections : List Section) (entries : List Entry) : List Finding :=
  (tableFindings lower sections entries).map Prod.snd ++ varianceFindings (uses lower sections) ++
    reviewFindings lower (uses lower sections) entries

/-! The notation that was commanded. -/

variable {lower : Text → Text} {entries : List Entry} {chunks : List Chunk} {e f : Entry}
  {us : List Use} {key ko : Text} {s : Section}

/-- Nothing is reported for the name of an entry when its first form is all that is written. -/
def Silent (lower : Text → Text) (entries : List Entry) (e : Entry) : Prop :=
  ∀ chapter ref, ∀ x ∈ tableFindings lower [⟨chapter, ref, firstForm e⟩] entries,
    pairConflictKey lower e ≠ some x.1

/-- The notations that are read from the first form, under a name. -/
def readBack (lower : Text → Text) (e : Entry) (key : Text) : List Text :=
  (((extractPairs (firstForm e)).filter fun p => normalized lower p.2.1 = key).map Prod.fst).eraseDups

theorem kosOf_form : kosOf (uses lower [⟨n, ref, firstForm e⟩]) key = readBack lower e key := by
  simp only [kosOf, uses, readBack, List.flatMap_singleton, List.filter_map, List.map_map]
  rfl

end RownRg.Terms

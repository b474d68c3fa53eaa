import RownRg.Core.Citations
import RownRg.Lib.Stretch
import RownRg.Qa.Numbers

/-! The claims of a body: candidate lines, sentences and what counts of them. -/

open PyText Regex RownRg.Citations

namespace RownRg.Gate

/-- `_SENTENCE_SPLIT_RE` -/
def sentenceSplitRe : Regex Unit := seq (behind fun c => ".!?".toList.contains c) (plus space)

/-- `_DATE_DOTS_RE` -/
def dateDotsRe : Regex Unit :=
  cat [between digit 4 4, star space, chr '.', star space, between digit 1 2, star space, chr '.',
    star space, opt (cat [between digit 1 2, star space, chr '.'])]

/-- A place within a date. -/
def inDate (text : Text) (n : Nat) : Bool :=
  (dateDotsRe.spots text).any fun spot =>
    spot.1.length ≤ n && n < spot.1.length + spot.2.1.text.length

/-- `_split_sentences` -/
def splitSentences (text : Text) : List Text :=
  cutFrom (inDate text) 0 [] (sentenceSplitRe.pieces text)

/-- `_NON_CLAIM_LINE_RE` -/
def nonClaimLineRe : Regex Unit :=
  cat [textStart, star space, anyOf [seq (between (chr '#') 1 6) space, chr '|', chr '>',
    cat [cat [oneOf "-*_".toList, oneOf "-*_".toList, plus (oneOf "-*_".toList)], star space,
      textEnd]]]

/-- `_CAPTION_LINE_RE` -/
def captionLineRe : Regex Unit :=
  cat [textStart, star space, alt
    (cat [alt (lit "표".toList) (lit "그림".toList), star space,
      star (cls fun c => isDigit c || "-. ".toList.contains c), chr ':'])
    (lit "(단위".toList)]

/-- `[-*•‣◦○□▪ㅇㅁ]` -/
def bulletMark : Regex Unit := oneOf "-*•‣◦○□▪ㅇㅁ".toList

/-- `_SOURCE_ONLY_LINE_RE` -/
def sourceOnlyLineRe : Regex Unit :=
  cat [textStart, star space, opt (cat [opt (chr '\\'), bulletMark, star space]),
    opt (cat [lit "출처".toList, star space, chr ':', star space]),
    plus (cat [oneOf "（(".toList, star space,
      anyOf [lit "출처".toList, lit "자료".toList, lit "참고".toList], star space, digit,
      star (cls fun c => isDigit c || isSpace c || c == ','), oneOf ")）".toList, star space]),
    textEnd]

def isHangul (c : Char) : Bool := 0xAC00 ≤ c.toNat && c.toNat ≤ 0xD7A3

/-- `_BULLET_RE` -/
def bulletRe : Regex Unit :=
  cat [textStart, star space, anyOf [bulletMark, seq (plus digit) (oneOf ".)".toList),
    seq (cls isHangul) (oneOf ".)".toList)], plus space]

/-- `_SECTION_NUMBER_RE` -/
def sectionNumberRe : Regex Unit :=
  cat [textStart, plus digit, star (seq (chr '.') (plus digit)), space]

/-- `_MIN_CLAIM_CHARS` -/
def minClaimChars : Nat := 25

/-- `_CLAIM_TAILS` -/
def claimTails : List Text :=
  ["다", "음", "임", "함", "됨", "짐", "옴", "남", "듦", "필요", "전망", "예상", "우려", "가능",
    "요구", "시급", "중요"].map String.toList

/-- `_SENTENCE_END_RE` -/
def sentenceEndRe : Regex Unit := cat [oneOf ".!?".toList, star space, textEnd]

/-- `_TRAILING_PAREN_RE` -/
def trailingParenRe : Regex Unit :=
  cat [chr '(', between (noneOf "()".toList) 1 30, chr ')', textEnd]

/-- The lines outside code fences, stripped, without the blank ones. -/
def bodyLinesFrom : Bool → List Text → List Text
  | _, [] => []
  | inFence, raw :: lines =>
    let line := strip raw
    if "```".toList.isPrefixOf line then bodyLinesFrom (!inFence) lines
    else if inFence || line.isEmpty then bodyLinesFrom inFence lines
    else line :: bodyLinesFrom inFence lines

def bodyLines (content : Text) : List Text := bodyLinesFrom false (splitLines content)

/-- A heading, a table row, a quotation, a rule, a caption or a line of sources. -/
def structural (line : Text) : Bool :=
  (nonClaimLineRe.matchStart line).isSome || (captionLineRe.matchStart line).isSome ||
    (sourceOnlyLineRe.matchStart line).isSome

def withoutMarks (unit : Text) : Text := strip (markRe.sub (fun _ => []) unit)

variable (isAlnum : Char → Bool)

/-- `_short_but_checkable` -/
def shortButCheckable (unit bare : Text) : Bool :=
  if (sectionNumberRe.matchStart bare).isSome then false
  else markRe.found unit || !(significantNumbers isAlnum bare).isEmpty

/-- The candidates a line yields, each with its text without marks. -/
def unitsOfLine (line : Text) : List (Text × Text) :=
  if structural line then []
  else
    let body := bulletRe.sub (fun _ => []) line
    ((splitSentences body).map fun unit => (strip unit, withoutMarks (strip unit))).filter
      fun x => minClaimChars ≤ x.2.length || shortButCheckable isAlnum x.1 x.2

/-- `_candidate_units` -/
def candidateUnits (content : Text) : List (Text × Text) :=
  (bodyLines content).flatMap (unitsOfLine isAlnum)

/-- `_ends_with_m_nominal` -/
def endsWithMNominal (bare : Text) : Bool :=
  bare.getLast?.any fun c => isHangul c && [10, 16].contains ((c.toNat - 0xAC00) % 28)

def endsLikeClaim (t : Text) : Bool :=
  sentenceEndRe.found t || claimTails.any fun tail => tail.isSuffixOf t

/-- `_is_claim` -/
def isClaim (bare : Text) (cited : Bool) : Bool :=
  if cited && bare.any isHangul then true
  else if endsLikeClaim bare then true
  else
    let stripped := rstrip (trailingParenRe.sub (fun _ => []) bare)
    if stripped ≠ bare && endsLikeClaim stripped then true
    else if endsWithMNominal bare then true
    else bare.any isHangul && !(significantNumbers isAlnum bare).isEmpty

/-- `claim_units` -/
def claimUnits (content : Text) : List Text :=
  ((candidateUnits isAlnum content).filter fun x => isClaim isAlnum x.2 (markRe.found x.1)).map
    Prod.fst

structure LineAccounting where
  bodyLines : Nat
  countedLines : Nat
  claims : Nat
  uncovered : Nat
  deriving DecidableEq

/-- The line holds a unit or lies within one. -/
def touches (units : List (Text × Text)) (line : Text) : Bool :=
  units.any fun x => contains x.1 line || contains line x.1

/-- `line_accounting` -/
def lineAccounting (content : Text) : LineAccounting :=
  let units := candidateUnits isAlnum content
  let claims := units.countP fun x => isClaim isAlnum x.2 (markRe.found x.1)
  { bodyLines := (bodyLines content).length
    countedLines := (bodyLines content).countP (touches units)
    claims
    uncovered := units.length - claims }

variable {isAlnum} {line content : Text} {x : Text × Text}

theorem anchored_bulletRe : bulletRe.Anchored := by
  intro x t hx
  have hrun : bulletRe.run ⟨x, t, []⟩ = [] := by
    cases x with
    | nil => exact absurd rfl hx
    | cons c x => rfl
  simp [first, hrun]

/-- What a line yields is a stretch of it. -/
theorem infix_of_mem_unitsOfLine (h : x ∈ unitsOfLine isAlnum line) : x.1 <:+: line := by
  unfold unitsOfLine at h
  split at h
  · cases h
  · obtain ⟨hx, -⟩ := List.mem_filter.mp h
    obtain ⟨unit, hunit, rfl⟩ := List.mem_map.mp hx
    have hsentence := infix_of_cutFrom hunit
    rw [List.nil_append, render_pieces] at hsentence
    have hbody := (sub_anchored anchored_bulletRe line).isInfix
    obtain ⟨a, b, -, -, hstrip⟩ := exists_strip unit
    have hinner : strip unit <:+: unit := ⟨a, b, by simpa using hstrip.symm⟩
    exact hinner.trans (hsentence.trans hbody)

theorem touches_of_yields (hline : line ∈ bodyLines content)
    (h : unitsOfLine isAlnum line ≠ []) : touches (candidateUnits isAlnum content) line := by
  obtain ⟨x, hx⟩ := List.exists_mem_of_ne_nil _ h
  refine List.any_eq_true.mpr ⟨x, List.mem_flatMap.mpr ⟨line, hline, hx⟩, ?_⟩
  rw [Bool.or_eq_true]
  exact .inl (contains_iff.2 (infix_of_mem_unitsOfLine hx))

theorem countP_eq_iff {α : Type} {p q : α → Bool} {l : List α} (h : ∀ a ∈ l, q a → p a) :
    l.countP p = l.countP q ↔ ∀ a ∈ l, p a → q a := by
  induction l with
  | nil => simp
  | cons a l ih =>
    obtain ⟨ha, hl⟩ := List.forall_mem_cons.mp h
    have hmono := List.countP_mono_left hl
    rw [List.forall_mem_cons, ← ih hl]
    cases hq : q a with
    | true => simp [hq, ha hq]
    | false =>
      cases hp : p a with
      | true =>
        simp only [List.countP_cons, hp, hq, if_true, Bool.false_eq_true, if_false]
        constructor
        · intro heq
          omega
        · intro himp
          exact absurd (himp.1 trivial) id
      | false => simp [hp, hq]

theorem not_touches_iff {units : List (Text × Text)} :
    touches units line = false ↔ ∀ x ∈ units, ¬ x.1 <:+: line ∧ ¬ line <:+: x.1 := by
  simp only [touches, List.any_eq_false, Bool.or_eq_true, not_or, contains_iff]

/-- The counted lines are those that yield a candidate exactly where no other line holds a candidate
or lies within one. -/
theorem countedLines_iff (isAlnum : Char → Bool) (content : Text) :
    (lineAccounting isAlnum content).countedLines =
      (bodyLines content).countP (fun line => unitsOfLine isAlnum line ≠ []) ↔
    ∀ line ∈ bodyLines content, unitsOfLine isAlnum line = [] →
      ∀ x ∈ candidateUnits isAlnum content, ¬ x.1 <:+: line ∧ ¬ line <:+: x.1 := by
  have hyields : ∀ line ∈ bodyLines content, decide (unitsOfLine isAlnum line ≠ []) = true →
      touches (candidateUnits isAlnum content) line := by
    intro line hline h
    exact touches_of_yields hline (of_decide_eq_true h)
  refine (countP_eq_iff hyields).trans ⟨fun h line hline hnone => ?_, fun h line hline hit => ?_⟩
  · rw [← not_touches_iff, Bool.eq_false_iff]
    intro hit
    exact of_decide_eq_true (h line hline hit) hnone
  · refine decide_eq_true fun hnone => ?_
    have hmiss := not_touches_iff.2 (h line hline hnone)
    rw [hmiss] at hit
    cases hit

/-- A heading of one word is counted because the sentence below it holds the word. -/
theorem countedLines_headword :
    ¬ ∀ (isAlnum : Char → Bool) (content : Text),
      (lineAccounting isAlnum content).countedLines =
        (bodyLines content).countP fun line => unitsOfLine isAlnum line ≠ [] := by
  intro h
  have hcount := h Char.isAlphanum
    "시장\n국내 시장은 지난 몇 해 동안 꾸준히 성장해 온 것으로 나타남".toList
  exact absurd hcount (by decide)

end RownRg.Gate

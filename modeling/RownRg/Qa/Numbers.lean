import RownRg.Lib.Spots

/-! The numbers of a text that count as claims. -/

open PyText Regex

namespace RownRg.Gate

/-- `_NUMBER_RE` -/
def numberRe : Regex Unit :=
  cat [digit, star (cls fun c => isDigit c || c == ','), opt (cat [chr '.', plus digit]),
    opt (chr '%')]

/-- `text.rstrip("%")` -/
def rstripPercent (t : Text) : Text := (t.reverse.dropWhile (· == '%')).reverse

/-- `_normalize_number` -/
def normalizeNumber (token : Text) : Text :=
  rstripPercent (token.filter fun c => c ≠ ',' && c ≠ ' ')

/-- `_is_year` -/
def isYear (token : Text) : Bool :=
  if token.contains '.' || token.contains '%' then false
  else
    let digits := token.filter (· ≠ ',')
    digits.length = 4 && digits.all isDigit && 1900 ≤ natOf digits && natOf digits ≤ 2099

/-- `_YEAR_MONTH_RE` -/
def yearMonthRe : Regex Unit :=
  cat [textStart, alt (lit "19".toList) (lit "20".toList), digit, digit, chr '.',
    alt (seq (chr '1') (oneOf "012".toList)) (seq (opt (chr '0')) (oneOf "123456789".toList)),
    textEnd]

/-- `_DATE_PREFIXES` -/
def datePrefixes : Text := "’'‘′`".toList

def asciiLetter (c : Char) : Bool := ('a' ≤ c && c ≤ 'z') || ('A' ≤ c && c ≤ 'Z')

/-- The next character is one of a few, and the number is no percentage. -/
def followedBy (marks rest : Text) (percent : Bool) : Bool :=
  rest.head?.any (marks.contains ·) && !percent

variable (isAlnum : Char → Bool)

/-- A hyphen ties the number to a letter or a digit. -/
def hyphenated : Text → Bool
  | p :: q :: _ => "-–".toList.contains p && isAlnum q
  | _ => false

/-- `02263167`, but not `0.3` -/
def leadingZero : Text → Bool
  | '0' :: c :: _ => c ≠ '.' && c ≠ ','
  | _ => false

/-- Whether a number is a claim, by the text around it. -/
def isSignificant (spot : Text × Match Unit × Text) : Bool :=
  let before := spot.1
  let token := spot.2.1.text
  let rest := spot.2.2
  let percent := token.getLast? = some '%'
  let digits := (normalizeNumber token).filter (· ≠ '.')
  if followedBy "절장항".toList rest percent then false
  else if isYear token then false
  else if (yearMonthRe.matchStart token).isSome then false
  else if followedBy datePrefixes before percent then false
  else if before.head?.any asciiLetter then false
  else if followedBy "년월일".toList rest percent then false
  else if hyphenated isAlnum before && !percent then false
  else if leadingZero token then false
  else if followedBy "권호".toList rest percent then false
  else token.contains '.' || token.contains '%' || 2 ≤ digits.length

/-- `_significant_numbers`; `isAlnum` is `str.isalnum`. -/
def significantNumbers (text : Text) : List Text :=
  ((numberRe.spots text).filter (isSignificant isAlnum)).map fun spot => spot.2.1.text

end RownRg.Gate

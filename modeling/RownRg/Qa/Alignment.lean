import RownRg.Lib.Double
import RownRg.Qa.ClaimUnits

/-! The tokens of a text and how far two texts share them. -/

open PyText Regex RownRg.Gate

namespace RownRg.Alignment

/-- `_LATIN_TOKEN_RE` -/
def latinTokenRe : Regex Unit :=
  cat [cls asciiLetter, cat [tailChar, tailChar, star tailChar]]
where
  tailChar : Regex Unit := cls fun c => asciiLetter c || ('0' ≤ c && c ≤ '9') || c == '-'

/-- `_HANGUL_RUN_RE` -/
def hangulRunRe : Regex Unit := cat [cls isHangul, cls isHangul, star (cls isHangul)]

/-- A token with its weight: numbers 3, Latin words 1.5, pairs of Hangul 1. -/
abbrev Token : Type := Text × ℚ

def numberTokens (text : Text) : List Token :=
  ((numberRe.finditer text).map fun m => rstripPercent (m.text.filter (· ≠ ','))).filterMap
    fun token =>
      if token ≠ [] ∧ (2 ≤ (token.filter (· ≠ '.')).length ∨ '.' ∈ token) then
        some ('n' :: ':' :: token, 3)
      else none

def latinTokens (text : Text) : List Token :=
  (latinTokenRe.finditer text).map fun m => ('l' :: ':' :: m.text.map Char.toLower, 3 / 2)

def hangulTokens (text : Text) : List Token :=
  (hangulRunRe.finditer text).flatMap fun m =>
    (m.text.zip m.text.tail).map fun x => (['k', ':', x.1, x.2], 1)

/-- `_weighted_tokens`; the kind of a token settles its weight. -/
def weightedTokens (text : Text) : List Token :=
  (numberTokens text ++ latinTokens text ++ hangulTokens text).eraseDups

def weight (tokens : List Token) : ℚ := (tokens.map Prod.snd).sum

/-- `token_similarity`: what both share, against the one it fills more of. -/
def tokenSimilarity (a b : List Token) : Double :=
  if a = [] ∨ b = [] then .finite 0
  else
    let small := if a.length ≤ b.length then a else b
    let large := if a.length ≤ b.length then b else a
    let hit := weight (small.filter fun x => large.any fun y => y.1 = x.1)
    .max (.round (hit / weight a)) (.round (hit / weight b))

end RownRg.Alignment

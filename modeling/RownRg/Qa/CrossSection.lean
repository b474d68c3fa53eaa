import RownRg.Ledger.Selection
import RownRg.Lib.Dedup
import RownRg.Qa.Alignment
import Mathlib.Data.Char
import Mathlib.Data.List.Lex
import Mathlib.Data.Prod.Lex

/-! The claims that stand in two sections of a report. -/

open PyText Regex RownRg.Citations RownRg.Gate RownRg.Alignment RownRg.Ledger

namespace RownRg.CrossSection

/-- `DUPLICATE_THRESHOLD` -/
def duplicateThreshold : Double := .round (4 / 5)

/-- `MIN_UNIT_CHARS` -/
def minUnitChars : Nat := 30

/-- `_MAX_PAIRS` -/
def maxPairs : Nat := 400000

/-- `max(_MIN_MAX_DF, int(n * _MAX_DF_RATIO))` -/
def maxDf (n : Nat) : Nat := max 3 (n / 20)

/-- `_SOURCE_MARK_RE` -/
def sourceMarkRe : Regex Unit :=
  cat [star hspace, lit "(출처".toList, spaces, numberList, spaces, chr ')']

def stripSourceMarks (content : Text) : Text := sourceMarkRe.sub (fun _ => []) content

/-- `_POINTER_TAIL_RE` -/
def pointerTailRe : Regex Unit :=
  cat [between digit 1 2, star space, chr '.', star space, between digit 1 2, star space, chr '절',
    star space, lit "참조".toList, star space, star (cls fun c => c == ')' || c == '.' || isSpace c),
    textEnd]

/-- A reference in brackets behind a sentence. -/
def addedReferenceRe : Regex Unit :=
  cat [chr '(', star (noneOf "()".toList), chr '절', star space, lit "참조".toList,
    star (noneOf "()".toList), chr ')', star space, textEnd]

/-- `_is_pointer` -/
def isPointer (unit : Text) : Bool :=
  let bare := strip (stripSourceMarks unit)
  pointerTailRe.found (strip (addedReferenceRe.sub (fun _ => []) bare))

structure DuplicatePair where
  score : Double
  firstRef : Text
  firstText : Text
  secondRef : Text
  secondText : Text
  deriving DecidableEq

/-- The order in which a set is gone through. -/
structure SetOrder where
  order : List (Nat × Nat) → List (Nat × Nat)
  perm : ∀ l, (order l).Perm l

/-- `_units_by_section` -/
def unitsBySection (isAlnum : Char → Bool) (sections : List (Text × Text)) : List (Text × Text) :=
  sections.flatMap fun s => ((claimUnits isAlnum s.2).filter fun unit =>
    decide (minUnitChars ≤ unit.length) && !isPointer unit).map fun unit => (s.1, unit)

variable (tokenSets : List (List Token))

def hasToken (token : Text) (i : Nat) : Bool :=
  (tokenSets[i]?.getD []).any fun x => x.1 = token

/-- The units that hold a token. -/
def posting (token : Text) : List Nat :=
  (List.range tokenSets.length).filter (hasToken tokenSets token)

def postings : List (List Nat) :=
  ((tokenSets.flatten.map Prod.fst).eraseDups).map (posting tokenSets)

/-- `(ids[a], ids[b])` for `a < b` -/
def pairsOf : List Nat → List (Nat × Nat)
  | [] => []
  | a :: ids => ids.map (fun b => (a, b)) ++ pairsOf ids

/-- The pairs that share a rare token, each once. -/
def rarePairs : List (Nat × Nat) :=
  (((postings tokenSets).filter fun ids =>
    decide (2 ≤ ids.length ∧ ids.length ≤ maxDf tokenSets.length)).flatMap pairsOf).eraseDups

/-- `_candidate_pairs` -/
def candidatePairs : List (Nat × Nat) := (rarePairs tokenSets).take maxPairs

variable (units : List (Text × Text)) (threshold : Double)

/-- `round(score, 3)` -/
def threeDigits : Double → Double
  | .finite q => .round (roundEven (q * 1000) / 1000)
  | x => x

def similarity (x : Nat × Nat) : Double :=
  tokenSimilarity (tokenSets[x.1]?.getD []) (tokenSets[x.2]?.getD [])

def refAt (i : Nat) : Text := (units[i]?.getD ([], [])).1

def textAt (i : Nat) : Text := (units[i]?.getD ([], [])).2

/-- The units are similar and stand in different sections. -/
def duplicates (x : Nat × Nat) : Bool :=
  refAt units x.1 ≠ refAt units x.2 && threshold.le (similarity tokenSets x)

/-- The unit of the section that comes first in the outline comes first. -/
def toPair (x : Nat × Nat) : DuplicatePair :=
  let y := if toLex (sectionLabelKey (refAt units x.1)) ≤ toLex (sectionLabelKey (refAt units x.2))
    then x else (x.2, x.1)
  ⟨threeDigits (similarity tokenSets x), refAt units y.1, textAt units y.1, refAt units y.2,
    textAt units y.2⟩

/-- `(-score, first_ref, second_ref)` in order -/
def sortsBefore (p q : DuplicatePair) : Bool :=
  q.score.lt p.score || (q.score.eq p.score &&
    decide (p.firstRef < q.firstRef ∨ p.firstRef = q.firstRef ∧ p.secondRef ≤ q.secondRef))

/-- `duplicate_pairs` -/
def duplicatePairs (isAlnum : Char → Bool) (set : SetOrder) (sections : List (Text × Text))
    (threshold : Double) : List DuplicatePair :=
  let units := unitsBySection isAlnum sections
  if units.length < 2 then []
  else
    let tokenSets := units.map fun x => weightedTokens x.2
    (((set.order (candidatePairs tokenSets)).filter (duplicates tokenSets units threshold)).map
      (toPair tokenSets units)).mergeSort sortsBefore

/-- What an exhaustive comparison gives: every two similar units of different sections. -/
def similarPairs (isAlnum : Char → Bool) (sections : List (Text × Text)) (threshold : Double) :
    List DuplicatePair :=
  let units := unitsBySection isAlnum sections
  let tokenSets := units.map fun x => weightedTokens x.2
  ((pairsOf (List.range units.length)).filter (duplicates tokenSets units threshold)).map
    (toPair tokenSets units)

/-- The number of units that hold a token. -/
def documentFrequency (token : Text) : Nat := (posting tokenSets token).length

/-- Two units have a token in common that few units hold. -/
def ShareRareToken (x : Nat × Nat) : Prop :=
  ∃ token, hasToken tokenSets token x.1 ∧ hasToken tokenSets token x.2 ∧
    documentFrequency tokenSets token ≤ maxDf tokenSets.length

variable {tokenSets units threshold} {ids : List Nat} {x : Nat × Nat} {i j n : Nat} {token : Text}
  {isAlnum : Char → Bool} {set : SetOrder} {sections : List (Text × Text)}

theorem mem_pairsOf (hids : ids.Pairwise (· < ·)) :
    (i, j) ∈ pairsOf ids ↔ i ∈ ids ∧ j ∈ ids ∧ i < j := by
  induction ids with
  | nil => simp [pairsOf]
  | cons a ids ih =>
    obtain ⟨ha, hids⟩ := List.pairwise_cons.mp hids
    rw [pairsOf, List.mem_append, ih hids]
    constructor
    · rintro (h | ⟨hi, hj, hlt⟩)
      · obtain ⟨b, hb, heq⟩ := List.mem_map.mp h
        obtain ⟨rfl, rfl⟩ := Prod.mk.inj heq
        exact ⟨List.mem_cons_self, List.mem_cons_of_mem _ hb, ha b hb⟩
      · exact ⟨List.mem_cons_of_mem _ hi, List.mem_cons_of_mem _ hj, hlt⟩
    · rintro ⟨hi, hj, hlt⟩
      obtain rfl | hi' := List.mem_cons.mp hi
      · obtain rfl | hj' := List.mem_cons.mp hj
        · exact absurd hlt (Nat.lt_irrefl _)
        · exact .inl (List.mem_map.mpr ⟨j, hj', rfl⟩)
      · obtain rfl | hj' := List.mem_cons.mp hj
        · exact absurd (ha i hi') (Nat.lt_asymm hlt)
        · exact .inr ⟨hi', hj', hlt⟩

theorem nodup_pairsOf (hids : ids.Pairwise (· < ·)) : (pairsOf ids).Nodup := by
  induction ids with
  | nil => exact List.nodup_nil
  | cons a ids ih =>
    obtain ⟨ha, hids⟩ := List.pairwise_cons.mp hids
    refine List.Nodup.append ?_ (ih hids) fun x hx hx' => ?_
    · have hdistinct : ids.Nodup := hids.imp Nat.ne_of_lt
      exact hdistinct.map fun b c h => (Prod.mk.inj h).2
    · obtain ⟨b, hb, rfl⟩ := List.mem_map.mp hx
      exact absurd (ha a ((mem_pairsOf hids).1 hx').1) (Nat.lt_irrefl _)

theorem mem_posting : i ∈ posting tokenSets token ↔ i < tokenSets.length ∧
    hasToken tokenSets token i := by
  rw [posting, List.mem_filter, List.mem_range]

theorem pairwise_posting : (posting tokenSets token).Pairwise (· < ·) :=
  List.pairwise_lt_range.filter _

theorem mem_postings_of_hasToken (h : hasToken tokenSets token i) :
    posting tokenSets token ∈ postings tokenSets := by
  obtain ⟨y, hy, htoken⟩ := List.any_eq_true.mp h
  obtain rfl : y.1 = token := of_decide_eq_true htoken
  refine List.mem_map_of_mem (List.mem_eraseDups.mpr (List.mem_map_of_mem ?_))
  cases hset : tokenSets[i]? with
  | none => simp [hset] at hy
  | some tokens =>
    rw [hset] at hy
    exact List.mem_flatten.mpr ⟨tokens, List.mem_of_getElem? hset, hy⟩

theorem mem_rarePairs : x ∈ rarePairs tokenSets ↔
    x.1 < x.2 ∧ x.2 < tokenSets.length ∧ ShareRareToken tokenSets x := by
  rw [rarePairs, List.mem_eraseDups, List.mem_flatMap]
  constructor
  · rintro ⟨ids, hids, hx⟩
    obtain ⟨hids, hfew⟩ := List.mem_filter.mp hids
    obtain ⟨token, -, rfl⟩ := List.mem_map.mp hids
    obtain ⟨hi, hj, hlt⟩ := (mem_pairsOf pairwise_posting).1 hx
    rw [mem_posting] at hi hj
    exact ⟨hlt, hj.1, token, hi.2, hj.2, (of_decide_eq_true hfew).2⟩
  · rintro ⟨hlt, hj, token, hti, htj, hfew⟩
    have hmi : x.1 ∈ posting tokenSets token := mem_posting.2 ⟨by omega, hti⟩
    have hmj : x.2 ∈ posting tokenSets token := mem_posting.2 ⟨hj, htj⟩
    have htwo : 2 ≤ (posting tokenSets token).length := by
      have hsub : [x.1, x.2] ⊆ posting tokenSets token := by
        simp [hmi, hmj]
      exact (List.subperm_of_subset (by simp; omega) hsub).length_le
    refine ⟨_, List.mem_filter.mpr ⟨mem_postings_of_hasToken hti, decide_eq_true ⟨htwo, hfew⟩⟩, ?_⟩
    exact (mem_pairsOf pairwise_posting).2 ⟨hmi, hmj, hlt⟩

theorem mem_allPairs : x ∈ pairsOf (List.range n) ↔ x.1 < x.2 ∧ x.2 < n := by
  rw [mem_pairsOf List.pairwise_lt_range, List.mem_range, List.mem_range]
  omega

/-- The similar pairs among the candidates are all of them exactly where each is a candidate. -/
theorem filter_perm_iff {α : Type} {p : α → Bool} {l l' : List α} (hl : l.Nodup) (hl' : l'.Nodup)
    (hsub : l ⊆ l') :
    (l.filter p).length = (l'.filter p).length ↔ ∀ a ∈ l', p a → a ∈ l := by
  have hfsub : l.filter p ⊆ l'.filter p := List.filter_subset _ hsub
  have hsubperm := List.subperm_of_subset (hl.filter p) hfsub
  constructor
  · intro hlength a ha hp
    have hperm := hsubperm.perm_of_length_le (Nat.le_of_eq hlength.symm)
    exact List.mem_of_mem_filter (hperm.mem_iff.mpr (List.mem_filter.mpr ⟨ha, hp⟩))
  · intro hall
    refine Nat.le_antisymm hsubperm.length_le ?_
    refine (List.subperm_of_subset (hl'.filter p) fun a ha => ?_).length_le
    obtain ⟨ha, hp⟩ := List.mem_filter.mp ha
    exact List.mem_filter.mpr ⟨hall a ha hp, hp⟩

theorem nodup_rarePairs : (rarePairs tokenSets).Nodup := by
  have hbeq : (instBEqProd : BEq (Nat × Nat)) = instBEqOfDecidableEq := lawful_beq_subsingleton _ _
  rw [rarePairs, hbeq]
  exact FirstSeen.nodup _

theorem rarePairs_subset (tokenSets : List (List Token)) : rarePairs tokenSets ⊆ pairsOf (List.range tokenSets.length) := by
  intro x hx
  obtain ⟨hlt, hj, -⟩ := mem_rarePairs.1 hx
  exact mem_allPairs.2 ⟨hlt, hj⟩

/-- Without a cut the result is made of the similar pairs among the candidates. -/
theorem duplicatePairs_perm (set : SetOrder) (threshold : Double) (hcut : (rarePairs ((unitsBySection isAlnum sections).map fun x =>
      weightedTokens x.2)).length ≤ maxPairs) :
    (duplicatePairs isAlnum set sections threshold).Perm
      (((rarePairs ((unitsBySection isAlnum sections).map fun x => weightedTokens x.2)).filter
        (duplicates ((unitsBySection isAlnum sections).map fun x => weightedTokens x.2)
          (unitsBySection isAlnum sections) threshold)).map
        (toPair ((unitsBySection isAlnum sections).map fun x => weightedTokens x.2)
          (unitsBySection isAlnum sections))) := by
  rw [duplicatePairs]
  dsimp only
  split
  · rename_i hfew
    have hnone : rarePairs ((unitsBySection isAlnum sections).map fun x => weightedTokens x.2) =
        [] := by
      refine List.eq_nil_iff_forall_not_mem.mpr fun x hx => ?_
      obtain ⟨hlt, hj, -⟩ := mem_rarePairs.1 hx
      rw [List.length_map] at hj
      omega
    rw [hnone]
    exact List.Perm.refl _
  · refine (List.mergeSort_perm _ _).trans (((List.Perm.filter _ ?_)).map _)
    rw [candidatePairs, List.take_of_length_le hcut]
    exact set.perm _

/-- The detector finds what an exhaustive comparison finds exactly where every two similar units of
different sections have a rare token in common. -/
theorem duplicatePairs_iff (isAlnum : Char → Bool) (set : SetOrder) (sections : List (Text × Text))
    (threshold : Double) (hcut : (rarePairs ((unitsBySection isAlnum sections).map fun x =>
      weightedTokens x.2)).length ≤ maxPairs) :
    (duplicatePairs isAlnum set sections threshold).Perm
      (similarPairs isAlnum sections threshold) ↔
    ∀ x ∈ pairsOf (List.range (unitsBySection isAlnum sections).length),
      duplicates ((unitsBySection isAlnum sections).map fun x => weightedTokens x.2)
        (unitsBySection isAlnum sections) threshold x →
      ShareRareToken ((unitsBySection isAlnum sections).map fun x => weightedTokens x.2) x := by
  have hperm := duplicatePairs_perm set threshold hcut
  have hn : ((unitsBySection isAlnum sections).map fun x => weightedTokens x.2).length =
      (unitsBySection isAlnum sections).length := List.length_map _
  have hsub := rarePairs_subset ((unitsBySection isAlnum sections).map fun x => weightedTokens x.2)
  rw [hn] at hsub
  have hall : (pairsOf (List.range (unitsBySection isAlnum sections).length)).Nodup :=
    nodup_pairsOf List.pairwise_lt_range
  constructor
  · intro h x hx hdup
    have hlength := (hperm.symm.trans h).length_eq
    rw [similarPairs, List.length_map, List.length_map] at hlength
    exact (mem_rarePairs.1 ((filter_perm_iff nodup_rarePairs hall hsub).1 hlength x hx hdup)).2.2
  · intro h
    refine hperm.trans (List.Perm.map _ ?_)
    refine (List.perm_ext_iff_of_nodup (List.Nodup.filter _ nodup_rarePairs) (hall.filter _)).mpr fun x => ?_
    rw [List.mem_filter, List.mem_filter]
    constructor
    · rintro ⟨hx, hdup⟩
      exact ⟨hsub hx, hdup⟩
    · rintro ⟨hx, hdup⟩
      obtain ⟨hlt, hj⟩ := mem_allPairs.1 hx
      exact ⟨mem_rarePairs.2 ⟨hlt, by omega, h x hx hdup⟩, hdup⟩

/-- So many sections of one chapter with one and the same sentence. -/
def copies (n : Nat) : List (Text × Text) :=
  (List.range' 1 n).map fun k =>
    ('1' :: '.' :: ofNat k, "국내 시장은 지난 몇 해 동안 꾸준히 성장해 온 것으로 나타났음".toList)

/-- The order in which the pairs came into the set. -/
def insertionOrder : SetOrder := ⟨id, List.Perm.refl⟩

theorem duplicatePairs_iff_pair : (duplicatePairs Char.isAlphanum insertionOrder (copies 2)
    duplicateThreshold).Perm (similarPairs Char.isAlphanum (copies 2) duplicateThreshold) := by
  have hunits : (rarePairs ((unitsBySection Char.isAlphanum (copies 2)).map fun x =>
        weightedTokens x.2)).length ≤ maxPairs ∧
      pairsOf (List.range (unitsBySection Char.isAlphanum (copies 2)).length) = [(0, 1)] ∧
      rarePairs ((unitsBySection Char.isAlphanum (copies 2)).map fun x => weightedTokens x.2) =
        [(0, 1)] := by
    decide
  obtain ⟨hcut, hall, hrare⟩ := hunits
  refine (duplicatePairs_iff Char.isAlphanum insertionOrder (copies 2) duplicateThreshold
    hcut).2 fun x hx _ => ?_
  rw [hall] at hx
  exact (mem_rarePairs.1 (hrare ▸ hx)).2.2

/-- A sentence that stands in four sections is reported for none of them. -/
theorem duplicatePairs_copies :
    ¬ ∀ (isAlnum : Char → Bool) (set : SetOrder) (sections : List (Text × Text))
      (threshold : Double),
      (rarePairs ((unitsBySection isAlnum sections).map fun x => weightedTokens x.2)).length ≤
        maxPairs →
      (duplicatePairs isAlnum set sections threshold).Perm
        (similarPairs isAlnum sections threshold) := by
  intro h
  have hlength := (h Char.isAlphanum insertionOrder (copies 4) duplicateThreshold
    (by decide)).length_eq
  exact absurd hlength (by decide +kernel)

end RownRg.CrossSection

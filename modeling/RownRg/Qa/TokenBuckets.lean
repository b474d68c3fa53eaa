import RownRg.Lib.Double
import RownRg.Qa.Numbers

/-! The numbers without evidence: those a verdict has refuted and those only words failed for. -/

open PyText Regex RownRg.Gate

namespace RownRg.TokenBuckets

/-- `ALIGNED_THRESHOLD` -/
def alignedThreshold : Double := .round (3 / 10)

/-- `WEAK_THRESHOLD` -/
def weakThreshold : Double := .round (15 / 100)

/-- `DENSE_THRESHOLD` -/
def denseThreshold : Double := .round (78 / 100)

structure EvidenceSpan where
  score : Double
  comparable : Bool
  denseScore : Option Double

structure ClaimAlignment where
  claim : Text
  numbers : List Nat
  span : Option EvidenceSpan
  ungrounded : List Text
  evidenceComparable : Bool

inductive Status where
  | uncited
  | unmatched
  | crosslingual
  | aligned
  | weak
  deriving DecidableEq

def EvidenceSpan.status (span : EvidenceSpan) (evidenceComparable : Bool) : Status :=
  if span.denseScore.any denseThreshold.le then .aligned
  else if !span.comparable then .crosslingual
  else if alignedThreshold.le span.score then .aligned
  else if weakThreshold.le span.score then .weak
  else if evidenceComparable then .unmatched
  else .crosslingual

/-- `ClaimAlignment.status` -/
def ClaimAlignment.status (c : ClaimAlignment) : Status :=
  if c.numbers.isEmpty then .uncited
  else
    match c.span with
    | none => if c.evidenceComparable then .unmatched else .crosslingual
    | some span => span.status c.evidenceComparable

/-- `str.isdigit`: the decimal digits, and digits set in circles, brackets or above the line. -/
def isDigitStr (c : Char) : Bool :=
  isDigit c || [(0xB2, 0xB3), (0xB9, 0xB9), (0x1369, 0x1371), (0x19DA, 0x19DA), (0x2070, 0x2070),
    (0x2074, 0x2079), (0x2080, 0x2089), (0x2460, 0x2468), (0x2474, 0x247C), (0x2488, 0x2490),
    (0x24EA, 0x24EA), (0x24F5, 0x24FD), (0x24FF, 0x24FF), (0x2776, 0x277E), (0x2780, 0x2788),
    (0x278A, 0x2792), (0x10A40, 0x10A43), (0x10E60, 0x10E68), (0x11052, 0x1105A),
    (0x1F100, 0x1F10A)].any fun range => range.1 ≤ c.toNat && c.toNat ≤ range.2

/-- `_YEAR_TOKEN_RE` -/
def yearTokenRe : Regex Unit := cat [alt (lit ['1', '9']) (lit ['2', '0']), digit, digit]

/-- A year, not a piece of a longer number. -/
def standsAlone (spot : Text × Match Unit × Text) : Bool :=
  !(spot.1.head?.any fun c => isDigitStr c || c == '.') && !spot.2.2.head?.any isDigitStr

/-- `claim_years` -/
def claimYears (text : Text) : List Text :=
  (((yearTokenRe.spots text).filter standsAlone).map fun spot => spot.2.1.text).eraseDups

/-- What the loop has collected; the years are a dictionary by the number without its marks. -/
structure Buckets where
  confirmed : List Text
  lexical : List Text
  years : List (Text × List Text)
  deriving DecidableEq

def Buckets.put (b : Buckets) (refuted : Bool) (token : Text) : Buckets :=
  if token ∈ b.confirmed ∨ token ∈ b.lexical then b
  else if refuted then { b with confirmed := b.confirmed ++ [token] }
  else { b with lexical := b.lexical ++ [token] }

/-- `years[norm] = …`: the years known so far and those of this claim. -/
def setYears (norm : Text) (stated : List Text) : List (Text × List Text) → List (Text × List Text)
  | [] => [(norm, stated.eraseDups)]
  | entry :: years =>
    if entry.1 = norm then (norm, (entry.2 ++ stated).eraseDups) :: years
    else entry :: setYears norm stated years

def Buckets.addYears (b : Buckets) (refuted : Bool) (claim token : Text) : Buckets :=
  let norm := normalizeNumber token
  let stated := claimYears claim
  if refuted && !norm.isEmpty && !stated.isEmpty then
    { b with years := setYears norm stated b.years }
  else b

/-- What one claim adds; `supported` and `refuted` say whether a verdict names it. -/
def Buckets.addClaim (b : Buckets) (claim : ClaimAlignment) (supported refuted : Bool) : Buckets :=
  if supported then b
  else if claim.status = .crosslingual ∧ !refuted then b
  else claim.ungrounded.foldl
    (fun b token => (b.put refuted token).addYears refuted claim.claim token) b

/-- `enumerate(claims)`, each with the verdicts on its place. -/
def judged (claims : List ClaimAlignment) (supported refuted : List Nat) :
    List (ClaimAlignment × Bool × Bool) :=
  claims.zipIdx.map fun x => (x.1, supported.contains x.2, refuted.contains x.2)

/-- `ungrounded_token_buckets` -/
def ungroundedTokenBuckets (claims : List ClaimAlignment) (comparable : Bool)
    (supported refuted : List Nat) : Buckets :=
  (if comparable then judged claims supported refuted else []).foldl
    (fun b x => b.addClaim x.1 x.2.1 x.2.2) ⟨[], [], []⟩

/-- The verdicts let the claim count. -/
def Counts (x : ClaimAlignment × Bool × Bool) : Prop :=
  x.2.1 = false ∧ ¬ (x.1.status = .crosslingual ∧ !x.2.2)

instance decidableCounts (x : ClaimAlignment × Bool × Bool) : Decidable (Counts x) :=
  inferInstanceAs (Decidable (_ ∧ _))

/-- The claims that count, with their verdicts. -/
def counted (claims : List ClaimAlignment) (comparable : Bool) (supported refuted : List Nat) :
    List (ClaimAlignment × Bool × Bool) :=
  (if comparable then judged claims supported refuted else []).filter fun x => Counts x

/-- What the two lists are meant to hold, in whichever order the claims come. -/
structure Separated (claims : List ClaimAlignment) (comparable : Bool)
    (supported refuted : List Nat) : Prop where
  disjoint : (ungroundedTokenBuckets claims comparable supported refuted).confirmed.Disjoint
    (ungroundedTokenBuckets claims comparable supported refuted).lexical
  union : ∀ t, t ∈ (ungroundedTokenBuckets claims comparable supported refuted).confirmed ∨
      t ∈ (ungroundedTokenBuckets claims comparable supported refuted).lexical ↔
    ∃ x ∈ counted claims comparable supported refuted, t ∈ x.1.ungrounded
  confirmed : ∀ t, t ∈ (ungroundedTokenBuckets claims comparable supported refuted).confirmed ↔
    comparable ∧ ∃ x ∈ judged claims supported refuted, x.2.2 ∧ t ∈ x.1.ungrounded
  order : ∀ claims' supported' refuted', supported'.Disjoint refuted' →
    (judged claims' supported' refuted').Perm (judged claims supported refuted) →
    ∀ t, (t ∈ (ungroundedTokenBuckets claims' comparable supported' refuted').confirmed ↔
        t ∈ (ungroundedTokenBuckets claims comparable supported refuted).confirmed) ∧
      (t ∈ (ungroundedTokenBuckets claims' comparable supported' refuted').lexical ↔
        t ∈ (ungroundedTokenBuckets claims comparable supported refuted).lexical)

/-- No number of a refuted claim stands in a claim that counts without being refuted. -/
def NoneShared (claims : List ClaimAlignment) (comparable : Bool) (supported refuted : List Nat) :
    Prop :=
  ∀ x ∈ counted claims comparable supported refuted, x.2.2 →
    ∀ y ∈ counted claims comparable supported refuted, y.2.2 = false →
      ∀ t ∈ x.1.ungrounded, t ∉ y.1.ungrounded

variable {b : Buckets} {seen : List (Bool × Text)} {refuted : Bool} {token t claim : Text}
  {xs ys : List (ClaimAlignment × Bool × Bool)} {x : ClaimAlignment × Bool × Bool}

/-- The lists after these tokens, each with whether its claim was refuted. -/
structure Holds (seen : List (Bool × Text)) (b : Buckets) : Prop where
  mem : ∀ t, t ∈ b.confirmed ∨ t ∈ b.lexical ↔ ∃ r, (r, t) ∈ seen
  confirmed : ∀ t ∈ b.confirmed, (true, t) ∈ seen
  lexical : ∀ t ∈ b.lexical, (false, t) ∈ seen
  disjoint : b.confirmed.Disjoint b.lexical

theorem holds_start : Holds [] ⟨[], [], []⟩ :=
  ⟨by simp, by simp, by simp, List.disjoint_nil_left _⟩

theorem Holds.put (h : Holds seen b) (refuted : Bool) (token : Text) :
    Holds (seen ++ [(refuted, token)]) (b.put refuted token) := by
  unfold Buckets.put
  split
  · rename_i hold
    refine ⟨fun t => ?_, fun t ht => ?_, fun t ht => ?_, h.disjoint⟩
    · rw [h.mem t]
      constructor
      · rintro ⟨r, hr⟩
        exact ⟨r, List.mem_append_left _ hr⟩
      · rintro ⟨r, hr⟩
        rcases List.mem_append.mp hr with hr | hr
        · exact ⟨r, hr⟩
        · obtain ⟨rfl, rfl⟩ := Prod.mk.inj (List.mem_singleton.mp hr)
          exact (h.mem t).1 hold
    · exact List.mem_append_left _ (h.confirmed t ht)
    · exact List.mem_append_left _ (h.lexical t ht)
  · rename_i hnew
    push Not at hnew
    obtain ⟨hconfirmed, hlexical⟩ := hnew
    have hmem : ∀ t, (t ∈ b.confirmed ∨ t ∈ b.lexical) ∨ t = token ↔
        ∃ r, (r, t) ∈ seen ++ [(refuted, token)] := by
      intro t
      rw [h.mem t]
      simp [exists_or]
    cases refuted with
    | true =>
      refine ⟨fun t => ?_, fun t ht => ?_, fun t ht => ?_, ?_⟩
      · rw [← hmem t]
        simp
        grind
      · rcases List.mem_append.mp ht with ht | ht
        · exact List.mem_append_left _ (h.confirmed t ht)
        · obtain rfl := List.mem_singleton.mp ht
          simp
      · exact List.mem_append_left _ (h.lexical t ht)
      · refine List.disjoint_append_left.mpr ⟨h.disjoint, ?_⟩
        exact List.singleton_disjoint.mpr hlexical
    | false =>
      refine ⟨fun t => ?_, fun t ht => ?_, fun t ht => ?_, ?_⟩
      · rw [← hmem t]
        simp
        grind
      · exact List.mem_append_left _ (h.confirmed t ht)
      · rcases List.mem_append.mp ht with ht | ht
        · exact List.mem_append_left _ (h.lexical t ht)
        · obtain rfl := List.mem_singleton.mp ht
          simp
      · refine List.disjoint_append_right.mpr ⟨h.disjoint, ?_⟩
        exact List.disjoint_singleton.mpr hconfirmed

theorem addYears_lists (b : Buckets) (refuted : Bool) (claim token : Text) :
    (b.addYears refuted claim token).confirmed = b.confirmed ∧
      (b.addYears refuted claim token).lexical = b.lexical := by
  unfold Buckets.addYears
  dsimp only
  split <;> exact ⟨rfl, rfl⟩

theorem Holds.addYears (h : Holds seen b) (refuted : Bool) (claim token : Text) :
    Holds seen (b.addYears refuted claim token) := by
  obtain ⟨hconfirmed, hlexical⟩ := addYears_lists b refuted claim token
  refine ⟨?_, ?_, ?_, ?_⟩
  · rw [hconfirmed, hlexical]
    exact h.mem
  · rw [hconfirmed]
    exact h.confirmed
  · rw [hlexical]
    exact h.lexical
  · rw [hconfirmed, hlexical]
    exact h.disjoint

/-- The tokens of a claim, each with whether the claim was refuted. -/
def tokensOf (x : ClaimAlignment × Bool × Bool) : List (Bool × Text) :=
  if Counts x then x.1.ungrounded.map fun t => (x.2.2, t) else []

theorem addClaim_eq (b : Buckets) (x : ClaimAlignment × Bool × Bool) :
    b.addClaim x.1 x.2.1 x.2.2 = if Counts x then x.1.ungrounded.foldl
      (fun b token => (b.put x.2.2 token).addYears x.2.2 x.1.claim token) b else b := by
  unfold Buckets.addClaim
  split
  · rename_i hsupported
    have hnot : ¬ Counts x := fun h => by simp [h.1] at hsupported
    rw [if_neg hnot]
  · rename_i hsupported
    split
    · rename_i hcross
      have hnot : ¬ Counts x := fun h => h.2 hcross
      rw [if_neg hnot]
    · rename_i hcross
      have hcounts : Counts x := ⟨Bool.eq_false_of_not_eq_true hsupported, hcross⟩
      rw [if_pos hcounts]

theorem Holds.addClaim (h : Holds seen b) (x : ClaimAlignment × Bool × Bool) :
    Holds (seen ++ tokensOf x) (b.addClaim x.1 x.2.1 x.2.2) := by
  rw [addClaim_eq, tokensOf]
  split
  · generalize x.1.ungrounded = tokens
    induction tokens generalizing b seen with
    | nil => simpa using h
    | cons token tokens ih =>
      have hstep := ih ((h.put x.2.2 token).addYears x.2.2 x.1.claim token)
      rw [List.append_assoc] at hstep
      exact hstep
  · rw [List.append_nil]
    exact h

theorem holds_run (h : Holds seen b) (xs : List (ClaimAlignment × Bool × Bool)) :
    Holds (seen ++ xs.flatMap tokensOf)
      (xs.foldl (fun b x => b.addClaim x.1 x.2.1 x.2.2) b) := by
  induction xs generalizing b seen with
  | nil => simpa using h
  | cons x xs ih =>
    have hstep := ih (h.addClaim x)
    rw [List.append_assoc] at hstep
    exact hstep

/-- The run over all claims. -/
theorem holds_buckets (claims : List ClaimAlignment) (comparable : Bool)
    (supported refuted : List Nat) :
    Holds ((counted claims comparable supported refuted).flatMap tokensOf)
      (ungroundedTokenBuckets claims comparable supported refuted) := by
  have hrun := holds_run holds_start (if comparable then judged claims supported refuted else [])
  have hskip : (if comparable then judged claims supported refuted else []).flatMap tokensOf =
      (counted claims comparable supported refuted).flatMap tokensOf := by
    unfold counted
    generalize (if comparable = true then judged claims supported refuted else []) = xs
    induction xs with
    | nil => rfl
    | cons x xs ih =>
      rw [List.filter_cons, List.flatMap_cons, ih]
      by_cases hx : Counts x
      · rw [if_pos (decide_eq_true hx), List.flatMap_cons]
      · have hnone : tokensOf x = [] := if_neg hx
        rw [if_neg fun h => hx (of_decide_eq_true h), hnone, List.nil_append]
  rw [List.nil_append, hskip] at hrun
  exact hrun

theorem mem_counted {claims : List ClaimAlignment} {comparable : Bool} {supported refuted : List Nat} :
    x ∈ counted claims comparable supported refuted ↔
      comparable ∧ x ∈ judged claims supported refuted ∧ Counts x := by
  unfold counted
  rw [List.mem_filter, decide_eq_true_iff]
  cases comparable <;> simp

theorem mem_tokens {claims : List ClaimAlignment} {comparable : Bool} {supported refuted : List Nat}
    {r : Bool} : (r, t) ∈ (counted claims comparable supported refuted).flatMap tokensOf ↔
      ∃ x ∈ counted claims comparable supported refuted, x.2.2 = r ∧ t ∈ x.1.ungrounded := by
  rw [List.mem_flatMap]
  refine exists_congr fun x => and_congr_right fun hx => ?_
  rw [tokensOf, if_pos (mem_counted.1 hx).2.2, List.mem_map]
  simp only [Prod.mk.injEq]
  constructor
  · rintro ⟨token, htoken, hr, rfl⟩
    exact ⟨hr, htoken⟩
  · rintro ⟨hr, ht⟩
    exact ⟨t, ht, hr, rfl⟩

/-- A refuted claim counts, as no verdict is both. -/
theorem counts_of_refuted {claims : List ClaimAlignment} {supported refuted : List Nat}
    (hdisjoint : supported.Disjoint refuted) (hx : x ∈ judged claims supported refuted)
    (hrefuted : x.2.2) : Counts x := by
  obtain ⟨y, -, rfl⟩ := List.mem_map.mp hx
  have hmem : y.2 ∈ refuted := List.contains_iff_mem.mp hrefuted
  refine ⟨?_, fun h => by simp_all⟩
  by_contra hsupported
  rw [Bool.not_eq_false] at hsupported
  exact hdisjoint (List.contains_iff_mem.mp hsupported) hmem

/-- Where no number is shared each list holds the numbers of its claims. -/
theorem mem_lists {claims : List ClaimAlignment} {comparable : Bool} {supported refuted : List Nat}
    (h : NoneShared claims comparable supported refuted) :
    (t ∈ (ungroundedTokenBuckets claims comparable supported refuted).confirmed ↔
      ∃ x ∈ counted claims comparable supported refuted, x.2.2 = true ∧ t ∈ x.1.ungrounded) ∧
    (t ∈ (ungroundedTokenBuckets claims comparable supported refuted).lexical ↔
      ∃ x ∈ counted claims comparable supported refuted, x.2.2 = false ∧ t ∈ x.1.ungrounded) := by
  have hholds := holds_buckets claims comparable supported refuted
  constructor
  · constructor
    · exact fun ht => mem_tokens.1 (hholds.confirmed t ht)
    · intro hx
      rcases (hholds.mem t).2 ⟨true, mem_tokens.2 hx⟩ with ht | ht
      · exact ht
      · obtain ⟨x, hx, hrefuted, htx⟩ := hx
        obtain ⟨y, hy, hopen, hty⟩ := mem_tokens.1 (hholds.lexical t ht)
        exact absurd hty (h x hx hrefuted y hy hopen t htx)
  · constructor
    · exact fun ht => mem_tokens.1 (hholds.lexical t ht)
    · intro hy
      rcases (hholds.mem t).2 ⟨false, mem_tokens.2 hy⟩ with ht | ht
      · obtain ⟨y, hy, hopen, hty⟩ := hy
        obtain ⟨x, hx, hrefuted, htx⟩ := mem_tokens.1 (hholds.confirmed t ht)
        exact absurd hty (h x hx hrefuted y hy hopen t htx)
      · exact ht

theorem NoneShared.perm {claims claims' : List ClaimAlignment} {comparable : Bool}
    {supported refuted supported' refuted' : List Nat}
    (hperm : (judged claims' supported' refuted').Perm (judged claims supported refuted))
    (h : NoneShared claims comparable supported refuted) :
    NoneShared claims' comparable supported' refuted' := by
  have hmem : ∀ x, x ∈ counted claims' comparable supported' refuted' ↔
      x ∈ counted claims comparable supported refuted := by
    intro x
    rw [mem_counted, mem_counted, hperm.mem_iff]
  intro x hx hrefuted y hy
  exact h x ((hmem x).1 hx) hrefuted y ((hmem y).1 hy)

/-! Every order of judged claims comes from lists of claims and verdicts. -/

def placesWhere (f : ClaimAlignment × Bool × Bool → Bool)
    (xs : List (ClaimAlignment × Bool × Bool)) : List Nat :=
  (xs.zipIdx.filter fun x => f x.1).map Prod.snd

theorem mem_placesWhere {f : ClaimAlignment × Bool × Bool → Bool} {i : Nat} :
    i ∈ placesWhere f xs ↔ ∃ x, xs[i]? = some x ∧ f x := by
  rw [placesWhere, List.mem_map]
  constructor
  · rintro ⟨⟨x, j⟩, hx, rfl⟩
    obtain ⟨hx, hf⟩ := List.mem_filter.mp hx
    exact ⟨x, List.mk_mem_zipIdx_iff_getElem?.mp hx, hf⟩
  · rintro ⟨x, hx, hf⟩
    exact ⟨(x, i), List.mem_filter.mpr ⟨List.mk_mem_zipIdx_iff_getElem?.mpr hx, hf⟩, rfl⟩

theorem judged_places (xs : List (ClaimAlignment × Bool × Bool)) :
    judged (xs.map Prod.fst) (placesWhere (·.2.1) xs) (placesWhere (·.2.2) xs) = xs := by
  refine List.ext_getElem? fun i => ?_
  unfold judged
  rw [List.getElem?_map, List.getElem?_zipIdx, List.getElem?_map]
  cases hx : xs[i]? with
  | none => rfl
  | some x =>
    have hplaces : ∀ f : ClaimAlignment × Bool × Bool → Bool, (placesWhere f xs).contains i = f x := by
      intro f
      rw [Bool.eq_iff_iff, List.contains_iff_mem, mem_placesWhere, hx]
      simp
    have hfirst := hplaces (·.2.1)
    have hsecond := hplaces (·.2.2)
    simp only [Option.map_some, Nat.zero_add, hfirst, hsecond]

theorem disjoint_places (h : ∀ x ∈ xs, ¬ (x.2.1 ∧ x.2.2)) :
    (placesWhere (·.2.1) xs).Disjoint (placesWhere (·.2.2) xs) := by
  intro i hsupported hrefuted
  obtain ⟨x, hx, hsupported⟩ := mem_placesWhere.1 hsupported
  obtain ⟨y, hy, hrefuted⟩ := mem_placesWhere.1 hrefuted
  obtain rfl : x = y := Option.some.inj (hx.symm.trans hy)
  exact h x (List.mem_of_getElem? hx) ⟨hsupported, hrefuted⟩

theorem mem_lexical_put (h : t ∈ b.lexical) : t ∈ (b.put refuted token).lexical := by
  unfold Buckets.put
  split
  · exact h
  · split
    · exact h
    · exact List.mem_append_left _ h

theorem mem_lexical_addClaim (h : t ∈ b.lexical) (x : ClaimAlignment × Bool × Bool) :
    t ∈ (b.addClaim x.1 x.2.1 x.2.2).lexical := by
  rw [addClaim_eq]
  split
  · generalize x.1.ungrounded = tokens
    induction tokens generalizing b with
    | nil => exact h
    | cons token tokens ih =>
      refine ih ?_
      rw [(addYears_lists _ x.2.2 x.1.claim token).2]
      exact mem_lexical_put h
  · exact h

theorem mem_lexical_run (h : t ∈ b.lexical) (xs : List (ClaimAlignment × Bool × Bool)) :
    t ∈ (xs.foldl (fun b x => b.addClaim x.1 x.2.1 x.2.2) b).lexical := by
  induction xs generalizing b with
  | nil => exact h
  | cons x xs ih => exact ih (mem_lexical_addClaim h x)

/-- With a claim in front that is not refuted, its numbers stay among the lexical ones. -/
theorem mem_lexical_of_front (claims : List ClaimAlignment) (supported refuted : List Nat)
    (hjudged : judged claims supported refuted = x :: xs) (hcounts : Counts x)
    (hopen : x.2.2 = false) (ht : t ∈ x.1.ungrounded) :
    t ∈ (ungroundedTokenBuckets claims true supported refuted).lexical := by
  have hfirst := Holds.addClaim holds_start x
  have htoken : (false, t) ∈ tokensOf x := by
    rw [tokensOf, if_pos hcounts, ← hopen]
    exact List.mem_map_of_mem ht
  have hlexical : t ∈ (Buckets.addClaim ⟨[], [], []⟩ x.1 x.2.1 x.2.2).lexical := by
    rcases (hfirst.mem t).2 ⟨false, htoken⟩ with hconfirmed | hlexical
    · have htrue := hfirst.confirmed t hconfirmed
      rw [List.nil_append, tokensOf, if_pos hcounts, hopen] at htrue
      obtain ⟨token, -, heq⟩ := List.mem_map.mp htrue
      exact absurd (Prod.mk.inj heq).1 Bool.false_ne_true
    · exact hlexical
  unfold ungroundedTokenBuckets
  rw [if_pos rfl, hjudged]
  exact mem_lexical_run hlexical xs

/-- The two lists hold what they are meant to exactly where no number of a refuted claim stands
in a claim that counts without being refuted. -/
theorem separated_iff (claims : List ClaimAlignment) (comparable : Bool)
    (supported refuted : List Nat) (hdisjoint : supported.Disjoint refuted) :
    Separated claims comparable supported refuted ↔
      NoneShared claims comparable supported refuted := by
  have hholds := holds_buckets claims comparable supported refuted
  constructor
  · intro h x hx hrefuted y hy hopen t htx hty
    obtain ⟨rfl, hyjudged, hycounts⟩ := mem_counted.1 hy
    obtain ⟨-, hxjudged, -⟩ := mem_counted.1 hx
    have hconfirmed := (h.confirmed t).2 ⟨rfl, x, hxjudged, hrefuted, htx⟩
    -- the same claims with the one that is not refuted in front
    obtain ⟨before, behind, hsplit⟩ := List.append_of_mem hyjudged
    let xs := y :: (before ++ behind)
    have hperm : xs.Perm (judged claims supported refuted) := by
      rw [hsplit]
      exact List.perm_middle.symm
    have hplaces := judged_places xs
    have hnotboth : ∀ z ∈ xs, ¬ (z.2.1 ∧ z.2.2) := by
      rintro z hz ⟨hsupported, hz'⟩
      have hcounts := counts_of_refuted hdisjoint (hperm.mem_iff.mp hz) hz'
      exact absurd hsupported (by simp [hcounts.1])
    have hdis := disjoint_places hnotboth
    have horder := h.order _ _ _ hdis (by rw [hplaces]; exact hperm) t
    have hlexical := mem_lexical_of_front _ _ _ hplaces hycounts hopen hty
    have hboth := horder.1.2 hconfirmed
    exact (holds_buckets _ true _ _).disjoint hboth hlexical
  · intro h
    refine ⟨hholds.disjoint, fun t => ?_, fun t => ?_, fun claims' supported' refuted' _ hperm t => ?_⟩
    · rw [hholds.mem t]
      constructor
      · rintro ⟨r, hr⟩
        obtain ⟨x, hx, -, ht⟩ := mem_tokens.1 hr
        exact ⟨x, hx, ht⟩
      · rintro ⟨x, hx, ht⟩
        exact ⟨x.2.2, mem_tokens.2 ⟨x, hx, rfl, ht⟩⟩
    · rw [(mem_lists h).1]
      constructor
      · rintro ⟨x, hx, hrefuted, ht⟩
        obtain ⟨hcomparable, hjudged, -⟩ := mem_counted.1 hx
        exact ⟨hcomparable, x, hjudged, hrefuted, ht⟩
      · rintro ⟨hcomparable, x, hx, hrefuted, ht⟩
        have hcounts := counts_of_refuted hdisjoint hx hrefuted
        exact ⟨x, mem_counted.2 ⟨hcomparable, hx, hcounts⟩, hrefuted, ht⟩
    · have hmem : ∀ x, x ∈ counted claims' comparable supported' refuted' ↔
          x ∈ counted claims comparable supported refuted := by
        intro x
        rw [mem_counted, mem_counted, hperm.mem_iff]
      have h' := h.perm hperm
      constructor
      · rw [(mem_lists h).1, (mem_lists h').1]
        exact exists_congr fun x => and_congr_left fun _ => hmem x
      · rw [(mem_lists h).2, (mem_lists h').2]
        exact exists_congr fun x => and_congr_left fun _ => hmem x

/-- A claim with one number that the evidence does not have. -/
def claimOf (token : Text) : ClaimAlignment :=
  ⟨token, [1], none, [token], true⟩

theorem separated_iff_two : Separated [claimOf "72%".toList, claimOf "35%".toList] true [] [1] := by
  refine (separated_iff _ true [] [1] (List.disjoint_nil_left _)).2 ?_
  have hcounted : (counted [claimOf "72%".toList, claimOf "35%".toList] true [] [1]).map
      (fun x => (x.1.ungrounded, x.2.2)) = [(["72%".toList], false), (["35%".toList], true)] := by
    decide
  intro x hx hrefuted y hy hopen t htx hty
  have hx' := List.mem_map_of_mem (f := fun x : ClaimAlignment × Bool × Bool =>
    (x.1.ungrounded, x.2.2)) hx
  have hy' := List.mem_map_of_mem (f := fun x : ClaimAlignment × Bool × Bool =>
    (x.1.ungrounded, x.2.2)) hy
  rw [hcounted, hrefuted] at hx'
  rw [hcounted, hopen] at hy'
  have htx' : x.1.ungrounded = ["35%".toList] := by simpa using hx'
  have hty' : y.1.ungrounded = ["72%".toList] := by simpa using hy'
  rw [htx'] at htx
  rw [hty'] at hty
  exact absurd ((List.mem_singleton.mp htx).symm.trans (List.mem_singleton.mp hty)) (by decide)

/-- A sentence without a verdict has the number first, the verdict on the second one is lost. -/
theorem refuted_number_left_lexical :
    ¬ ∀ (claims : List ClaimAlignment) (comparable : Bool) (supported refuted : List Nat),
      supported.Disjoint refuted → Separated claims comparable supported refuted := by
  intro h
  have hsep := h [claimOf "72%".toList, claimOf "72%".toList] true [] [1]
    (List.disjoint_nil_left _)
  have hrun : (ungroundedTokenBuckets [claimOf "72%".toList, claimOf "72%".toList] true []
      [1]).confirmed = [] ∧ ∃ x ∈ judged [claimOf "72%".toList, claimOf "72%".toList] [] [1],
        x.2.2 ∧ "72%".toList ∈ x.1.ungrounded := by
    refine ⟨by decide, (claimOf "72%".toList, false, true), ?_, rfl, List.mem_singleton_self _⟩
    exact List.mem_cons_of_mem _ (List.mem_singleton_self _)
  obtain ⟨hnone, hx⟩ := hrun
  have hmem := (hsep.confirmed "72%".toList).2 ⟨rfl, hx⟩
  rw [hnone] at hmem
  exact List.not_mem_nil hmem

end RownRg.TokenBuckets

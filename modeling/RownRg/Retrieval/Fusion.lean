import Mathlib.Data.List.Sort
import RownRg.Lib.Fallible
import RownRg.Lib.Pairing
import RownRg.Lib.Rounding
import RownRg.Retrieval.Interleave

/-! Two rankings of chunks fused into one by the reciprocals of the ranks. -/

open PyText

namespace RownRg.Retrieval

variable {ι : Type} [DecidableEq ι] {k rank i j n topK : Nat} {id a b : ι} {p q : ℚ}
  {scores : List (ι × Double)} {seen semantic keyword : List ι}
  {ranking semanticHits keywordHits out : List (Hit ι Double)}

/-- `1.0 / (k + rank + 1)` -/
def rrfScore (k rank : Nat) : Double :=
  Double.div (.finite 1) (Double.round ((k + rank + 1 : Nat) : ℚ))

/-- `scores.get(chunk_id, 0.0)` -/
def scoreOf (scores : List (ι × Double)) (id : ι) : Double :=
  (scores.lookup id).getD (.finite 0)

/-- A new key stands behind the others, a known one keeps its place. -/
def setScore (scores : List (ι × Double)) (id : ι) (score : Double) : List (ι × Double) :=
  if id ∈ scores.map Prod.fst then scores.map fun e => if e.1 = id then (id, score) else e
  else scores ++ [(id, score)]

/-- The dictionaries of `_fuse` and of `merge_rankings`. -/
structure Fusion (ι : Type) where
  scores : List (ι × Double)
  firstSeen : List (ι × Hit ι Double)

variable {st : Fusion ι}

def countHit (k : Nat) (st : Fusion ι) (ranked : Hit ι Double × Nat) : Fusion ι :=
  let (hit, rank) := ranked
  { scores := setScore st.scores hit.chunkId
      (Double.add (scoreOf st.scores hit.chunkId) (rrfScore k rank))
    firstSeen :=
      if hit.chunkId ∈ st.firstSeen.map Prod.fst then st.firstSeen
      else st.firstSeen ++ [(hit.chunkId, hit)] }

def countRanking (k : Nat) (st : Fusion ι) (ranking : List (Hit ι Double)) : Fusion ι :=
  ranking.zipIdx.foldl (countHit k) st

def countRankings (k : Nat) (rankings : List (List (Hit ι Double))) : Fusion ι :=
  rankings.foldl (countRanking k) ⟨[], []⟩

/-- `_fuse`; a chunk that was not seen is a `KeyError`. -/
def fuse (k : Nat) (semanticHits keywordHits : List (Hit ι Double)) :
    Option (List (Hit ι Double)) := do
  let st := countRankings k [semanticHits, keywordHits]
  let merged ← st.scores.mapM fun e =>
    (st.firstSeen.lookup e.1).map fun hit => { hit with chunkId := e.1, score := e.2 }
  pure (merged.insertionSort fun x y => !Double.lt x.score y.score)

/-- `merge_rankings`: the hits keep the scores they had. -/
def mergeRankings (k : Nat) (primary secondary : List (Hit ι Double)) :
    Option (List (Hit ι Double)) :=
  let st := countRankings k [primary, secondary]
  let key (id : ι) : Double := Double.neg (scoreOf st.scores id)
  ((st.scores.map Prod.fst).insertionSort fun x y => !Double.lt (key y) (key x)).mapM
    fun id => st.firstSeen.lookup id

/-- `max(top_k, int(top_k * _FAN_OUT_RATIO))`; `none` where it raises `OverflowError`. -/
def fanTopK (topK : Nat) : Option Nat :=
  match Double.mul (Double.round topK) (.finite (3 / 2)) with
  | .finite q => some (max topK ⌊q⌋₊)
  | _ => none

/-- `HybridSearchClient.search` over what the two backends give for the query. -/
def hybridSearch (k : Nat) (semantic keyword : Nat → List (Hit ι Double)) (query : Text)
    (topK : Nat) : Option (List (Hit ι Double)) :=
  if (strip query).isEmpty then some []
  else do
    let fan ← fanTopK topK
    let fused ← fuse k (semantic fan) (keyword fan)
    pure (fused.take topK)

/-! The values of the scores. -/

/-- The value of a score; every score is a number. -/
def rrfValue (k rank : Nat) : ℚ :=
  match rrfScore k rank with
  | .finite q => q
  | _ => 0

theorem one_le_magnitude (n : Nat) : 1 ≤ Double.magnitude ((n + 1 : Nat) : ℚ) := by
  have hone : Double.magnitude 1 = 1 := by
    simpa using Double.magnitude_of_digits (m := 1) (e := 0) (by norm_num) (by norm_num)
  refine Double.le_magnitude (by norm_num) ?_ hone
  exact_mod_cast Nat.le_add_left 1 n

theorem inv_magnitude_le_one (n : Nat) : 1 / Double.magnitude ((n + 1 : Nat) : ℚ) ≤ 1 := by
  rw [div_le_one (lt_of_lt_of_le one_pos (one_le_magnitude n))]
  exact one_le_magnitude n

theorem magnitude_le_one (hp : 0 ≤ p) (h : p ≤ 1) : Double.magnitude p ≤ 1 := by
  refine Double.magnitude_le hp h ?_
  simpa using Double.magnitude_of_digits (m := 1) (e := 0) (by norm_num) (by norm_num)

theorem magnitude_le_two (hp : 0 ≤ p) (h : p ≤ 2) : Double.magnitude p ≤ 2 := by
  refine Double.magnitude_le hp h ?_
  simpa using Double.magnitude_of_digits (m := 2) (e := 0) (by norm_num) (by norm_num)

theorem round_small (hp : 0 ≤ p) (h : p ≤ 2) : Double.round p = .finite (Double.magnitude p) :=
  Double.round_of_magnitude hp (lt_of_le_of_lt (magnitude_le_two hp h)
    (lt_of_lt_of_le (by norm_num : (2 : ℚ) < 2 ^ 2) (pow_le_pow_right₀ (by norm_num) (by norm_num))))

/-- A rank that is a float gives the rounded reciprocal, a greater one nothing. -/
theorem rrfScore_eq (k rank : Nat) : rrfScore k rank = .finite
    (if 2 ^ 1024 ≤ Double.magnitude ((k + rank + 1 : Nat) : ℚ) then 0
      else Double.magnitude (1 / Double.magnitude ((k + rank + 1 : Nat) : ℚ))) := by
  have hnonneg : (0 : ℚ) ≤ ((k + rank + 1 : Nat) : ℚ) := Nat.cast_nonneg _
  unfold rrfScore
  by_cases h : 2 ^ 1024 ≤ Double.magnitude ((k + rank + 1 : Nat) : ℚ)
  · rw [if_pos h, Double.round_eq_inf hnonneg h]
    rfl
  · rw [if_neg h, Double.round_of_magnitude hnonneg (not_le.mp h), Double.div]
    refine round_small ?_ ((inv_magnitude_le_one (k + rank)).trans (by norm_num))
    exact div_nonneg zero_le_one (Double.magnitude_nonneg _)

theorem rrfScore_value (k rank : Nat) : rrfScore k rank = .finite (rrfValue k rank) := by
  unfold rrfValue
  rw [rrfScore_eq]

theorem rrfValue_eq (k rank : Nat) : rrfValue k rank =
    if 2 ^ 1024 ≤ Double.magnitude ((k + rank + 1 : Nat) : ℚ) then 0
      else Double.magnitude (1 / Double.magnitude ((k + rank + 1 : Nat) : ℚ)) := by
  unfold rrfValue
  rw [rrfScore_eq]

theorem rrfValue_nonneg (k rank : Nat) : 0 ≤ rrfValue k rank := by
  rw [rrfValue_eq]
  split
  · exact le_rfl
  · exact Double.magnitude_nonneg _

theorem rrfValue_le_one (k rank : Nat) : rrfValue k rank ≤ 1 := by
  rw [rrfValue_eq]
  split
  · exact zero_le_one
  · exact magnitude_le_one (div_nonneg zero_le_one (Double.magnitude_nonneg _))
      (inv_magnitude_le_one (k + rank))

/-- An earlier rank counts no less. -/
theorem rrfValue_anti (k : Nat) (h : i ≤ j) : rrfValue k j ≤ rrfValue k i := by
  have hcast : ((k + i + 1 : Nat) : ℚ) ≤ ((k + j + 1 : Nat) : ℚ) := by exact_mod_cast by omega
  have hmono := Double.magnitude_mono (Nat.cast_nonneg _) hcast
  rw [rrfValue_eq k j]
  split
  · exact rrfValue_nonneg k i
  · rename_i hj
    rw [rrfValue_eq, if_neg fun hi => hj (hi.trans hmono)]
    refine Double.magnitude_mono (div_nonneg zero_le_one (Double.magnitude_nonneg _)) ?_
    exact one_div_le_one_div_of_le (lt_of_lt_of_le one_pos (one_le_magnitude (k + i))) hmono

theorem add_value (hp : 0 ≤ p) (hp' : p ≤ 1) (k rank : Nat) :
    Double.add (.finite p) (rrfScore k rank) =
      .finite (Double.magnitude (p + rrfValue k rank)) := by
  rw [rrfScore_value]
  have h := rrfValue_le_one k rank
  exact round_small (add_nonneg hp (rrfValue_nonneg k rank)) (by linarith)

/-- What a chunk's place in one ranking leaves of its score. -/
def afterRanking (k : Nat) (ranking : List ι) (id : ι) (p : ℚ) : ℚ :=
  if id ∈ ranking then Double.magnitude (p + rrfValue k (ranking.idxOf id)) else p

/-- The score of a chunk by its places in both rankings. -/
def rrfTotal (k : Nat) (semantic keyword : List ι) (id : ι) : ℚ :=
  afterRanking k keyword id (afterRanking k semantic id 0)

/-- The chunks by their scores, the ones with the same score as they were first seen. -/
def rrfOrder (k : Nat) (semantic keyword : List ι) : List ι :=
  (((semantic ++ keyword.filter (· ∉ semantic)).map fun id =>
    (id, rrfTotal k semantic keyword id)).insertionSort fun x y => y.2 ≤ x.2).map Prod.fst

/-! What the loops leave in the dictionaries. -/

theorem keys_setScore (scores : List (ι × Double)) (id : ι) (x : Double) :
    (setScore scores id x).map Prod.fst =
      if id ∈ scores.map Prod.fst then scores.map Prod.fst else scores.map Prod.fst ++ [id] := by
  unfold setScore
  split
  · rw [List.map_map]
    refine List.map_congr_left fun e _ => ?_
    by_cases he : e.1 = id <;> simp [he]
  · simp

theorem scoreOf_setScore (scores : List (ι × Double)) (id j : ι) (x : Double) :
    scoreOf (setScore scores id x) j = if j = id then x else scoreOf scores j := by
  unfold scoreOf setScore
  split
  · rename_i hid
    induction scores with
    | nil => simp at hid
    | cons e scores ih =>
      rw [List.map_cons, Pairing.lookup_cons, Pairing.lookup_cons]
      by_cases he : e.1 = id
      · rw [if_pos he]
        by_cases hj : j = id
        · simp [hj]
        · have hje : j ≠ e.1 := fun h => hj (h.trans he)
          rw [if_neg hj, if_neg hje, if_neg hj]
          by_cases hrest : id ∈ scores.map Prod.fst
          · rw [ih hrest, if_neg hj]
          · have hsame : (scores.map fun e => if e.1 = id then (id, x) else e) = scores := by
              refine (List.map_congr_left fun e he => if_neg fun h => hrest ?_).trans (List.map_id _)
              exact List.mem_map.mpr ⟨e, he, h⟩
            rw [hsame]
      · rw [if_neg he]
        have hrest : id ∈ scores.map Prod.fst := by
          rcases List.mem_cons.mp hid with h | h
          · exact absurd h.symm he
          · exact h
        by_cases hj : j = e.1
        · have hje : j ≠ id := fun h => he (hj.symm.trans h)
          rw [if_pos hj, if_neg hje, if_pos hj]
        · rw [if_neg hj, if_neg hj, ih hrest]
  · rename_i hid
    rw [List.lookup_append]
    by_cases hj : j = id
    · have hnone : scores.lookup j = none := by
        rw [← Option.not_isSome_iff_eq_none, Pairing.lookup_isSome, hj]
        exact hid
      rw [hnone, Option.none_or, Pairing.lookup_cons, if_pos hj, if_pos hj]
      rfl
    · have hlast : [(id, x)].lookup j = none := by rw [Pairing.lookup_cons, if_neg hj]; rfl
      rw [hlast, Option.or_none, if_neg hj]

/-- The chunks that were read, in the order in which they were first seen. -/
structure Read (seen : List ι) (st : Fusion ι) : Prop where
  scored : st.scores.map Prod.fst = seen
  first : st.firstSeen.map Prod.fst = seen
  own : ∀ e ∈ st.firstSeen, e.2.chunkId = e.1

theorem Read.countHit (h : Read seen st) (hit : Hit ι Double) (rank : Nat) :
    Read (if hit.chunkId ∈ seen then seen else seen ++ [hit.chunkId])
      (countHit k st (hit, rank)) := by
  refine ⟨?_, ?_, ?_⟩
  · simp only [Retrieval.countHit]
    rw [keys_setScore, h.scored]
  · simp only [Retrieval.countHit, h.first]
    split
    · exact h.first
    · simp [h.first]
  · intro e he
    simp only [Retrieval.countHit] at he
    split at he
    · exact h.own e he
    · rcases List.mem_append.mp he with he | he
      · exact h.own e he
      · rw [List.mem_singleton.mp he]

theorem Read.countRanking (h : Read seen st) (hnodup : (ranking.map Hit.chunkId).Nodup) (n : Nat) :
    Read (seen ++ (ranking.map Hit.chunkId).filter (· ∉ seen))
      ((ranking.zipIdx n).foldl (Retrieval.countHit k) st) := by
  induction ranking generalizing seen st n with
  | nil => simpa using h
  | cons hit ranking ih =>
    rw [List.map_cons] at hnodup
    obtain ⟨hhit, hrest⟩ := List.nodup_cons.mp hnodup
    have hnext := ih (h.countHit (k := k) hit n) hrest (n + 1)
    rw [List.zipIdx_cons, List.foldl_cons]
    by_cases hid : hit.chunkId ∈ seen
    · rw [if_pos hid] at hnext
      rwa [List.map_cons, List.filter_cons_of_neg (by simpa using hid)]
    · rw [if_neg hid] at hnext
      have hsame : (ranking.map Hit.chunkId).filter (· ∉ seen ++ [hit.chunkId]) =
          (ranking.map Hit.chunkId).filter (· ∉ seen) := by
        refine List.filter_congr fun id hmem => ?_
        have hne : id ≠ hit.chunkId := fun h => hhit (h ▸ hmem)
        simp [hne]
      rw [hsame, List.append_assoc] at hnext
      rwa [List.map_cons, List.filter_cons_of_pos (by simpa using hid)]

theorem scoreOf_countRanking (hnodup : (ranking.map Hit.chunkId).Nodup) (st : Fusion ι) (n : Nat) :
    scoreOf ((ranking.zipIdx n).foldl (Retrieval.countHit k) st).scores id =
      if id ∈ ranking.map Hit.chunkId then
        Double.add (scoreOf st.scores id) (rrfScore k (n + (ranking.map Hit.chunkId).idxOf id))
      else scoreOf st.scores id := by
  induction ranking generalizing st n with
  | nil => rfl
  | cons hit ranking ih =>
    rw [List.map_cons] at hnodup ⊢
    obtain ⟨hhit, hrest⟩ := List.nodup_cons.mp hnodup
    rw [List.zipIdx_cons, List.foldl_cons, ih hrest]
    simp only [countHit, scoreOf_setScore]
    by_cases hid : id = hit.chunkId
    · subst hid
      rw [if_neg hhit, if_pos rfl, if_pos List.mem_cons_self, List.idxOf_cons_self, Nat.add_zero]
    · have hmem : id ∈ hit.chunkId :: ranking.map Hit.chunkId ↔ id ∈ ranking.map Hit.chunkId := by
        simp [hid]
      have hplace : n + 1 + (ranking.map Hit.chunkId).idxOf id =
          n + (hit.chunkId :: ranking.map Hit.chunkId).idxOf id := by
        rw [List.idxOf_cons_ne _ fun h => hid h.symm]
        omega
      simp only [hmem, if_neg hid, hplace]

theorem afterRanking_nonneg (hp : 0 ≤ p) (ranking : List ι) (id : ι) :
    0 ≤ afterRanking k ranking id p := by
  unfold afterRanking
  split
  · exact Double.magnitude_nonneg _
  · exact hp

theorem afterRanking_zero_le_one (ranking : List ι) (id : ι) : afterRanking k ranking id 0 ≤ 1 := by
  unfold afterRanking
  split
  · rw [zero_add]
    exact magnitude_le_one (rrfValue_nonneg _ _) (rrfValue_le_one _ _)
  · exact zero_le_one

theorem scoreOf_ranking (hnodup : (ranking.map Hit.chunkId).Nodup)
    (hscore : scoreOf st.scores id = .finite p) (hp : 0 ≤ p) (hp' : p ≤ 1) :
    scoreOf (countRanking k st ranking).scores id =
      .finite (afterRanking k (ranking.map Hit.chunkId) id p) := by
  unfold countRanking afterRanking
  rw [scoreOf_countRanking hnodup, hscore, Nat.zero_add]
  split
  · exact add_value hp hp' k _
  · rfl

/-- The dictionaries after both loops. -/
theorem countRankings_spec (hs : (semanticHits.map Hit.chunkId).Nodup)
    (hk : (keywordHits.map Hit.chunkId).Nodup) :
    let semantic := semanticHits.map Hit.chunkId
    let keyword := keywordHits.map Hit.chunkId
    Read (semantic ++ keyword.filter (· ∉ semantic))
      (countRankings k [semanticHits, keywordHits]) ∧
      ∀ id, scoreOf (countRankings k [semanticHits, keywordHits]).scores id =
        .finite (rrfTotal k semantic keyword id) := by
  have hstart : Read ([] : List ι) ⟨[], []⟩ := ⟨rfl, rfl, by simp⟩
  have hfirst : Read (semanticHits.map Hit.chunkId) (countRanking k ⟨[], []⟩ semanticHits) := by
    have h := hstart.countRanking (k := k) hs 0
    rwa [List.nil_append, List.filter_eq_self.mpr (by simp)] at h
  refine ⟨hfirst.countRanking hk 0, fun id => ?_⟩
  have hzero : scoreOf (countRanking k ⟨[], []⟩ semanticHits).scores id =
      .finite (afterRanking k (semanticHits.map Hit.chunkId) id 0) :=
    scoreOf_ranking hs rfl le_rfl zero_le_one
  exact scoreOf_ranking hk hzero (afterRanking_nonneg le_rfl _ _) (afterRanking_zero_le_one _ _)

/-! The order of the chunks. -/

/-- The number a score stands for. -/
def valueOf : Double → ℚ
  | .finite q => q
  | _ => 0

theorem not_lt_iff {x y : Double} (hx : x = .finite (valueOf x)) (hy : y = .finite (valueOf y)) :
    (!Double.lt x y) = true ↔ valueOf y ≤ valueOf x := by
  obtain ⟨p, rfl⟩ : ∃ p, x = .finite p := ⟨_, hx⟩
  obtain ⟨q, rfl⟩ : ∃ q, y = .finite q := ⟨_, hy⟩
  simp [Double.lt, valueOf]

/-- A dictionary read with its keys, each of which it has. -/
theorem map_filterMap_of {α β γ : Type} {f : α → Option β} {g : β → γ} {e : α → γ} {xs : List α}
    (h : ∀ x ∈ xs, (f x).map g = some (e x)) : (xs.filterMap f).map g = xs.map e := by
  rw [List.map_filterMap, ← List.filterMap_eq_map]
  exact List.filterMap_congr h

theorem nodup_seen (hs : semantic.Nodup) (hk : keyword.Nodup) :
    (semantic ++ keyword.filter (· ∉ semantic)).Nodup := by
  rw [List.nodup_append]
  refine ⟨hs, hk.filter _, fun a ha b hb hab => ?_⟩
  simp only [List.mem_filter, decide_eq_true_eq] at hb
  exact hb.2 (hab ▸ ha)

/-- The fused list has every chunk once, in the order of the exact sums of the rounded scores. -/
theorem fuse_spec (hs : (semanticHits.map Hit.chunkId).Nodup)
    (hk : (keywordHits.map Hit.chunkId).Nodup) :
    ∃ out, fuse k semanticHits keywordHits = some out ∧ out.map Hit.chunkId =
      rrfOrder k (semanticHits.map Hit.chunkId) (keywordHits.map Hit.chunkId) := by
  obtain ⟨hread, hscore⟩ := countRankings_spec (k := k) hs hk
  unfold fuse
  generalize countRankings k [semanticHits, keywordHits] = st at hread hscore
  have hnodup : (st.scores.map Prod.fst).Nodup := hread.scored ▸ nodup_seen hs hk
  have hvalue : ∀ e ∈ st.scores, e.2 = .finite
      (rrfTotal k (semanticHits.map Hit.chunkId) (keywordHits.map Hit.chunkId) e.1) := by
    intro e he
    have h := hscore e.1
    rwa [scoreOf, (Pairing.lookup_eq_some hnodup).mpr (show (e.1, e.2) ∈ st.scores from he),
      Option.getD_some] at h
  have hseen : ∀ e ∈ st.scores, ∃ hit, st.firstSeen.lookup e.1 = some hit := by
    intro e he
    rw [← Option.isSome_iff_exists, Pairing.lookup_isSome, hread.first, ← hread.scored]
    exact List.mem_map.mpr ⟨e, he, rfl⟩
  have hmerged : st.scores.mapM (fun e => (st.firstSeen.lookup e.1).map fun hit =>
        { hit with chunkId := e.1, score := e.2 }) =
      some (st.scores.filterMap fun e => (st.firstSeen.lookup e.1).map fun hit : Hit ι Double =>
        { hit with chunkId := e.1, score := e.2 }) := by
    refine Fallible.mapM_of_isSome fun e he => ?_
    obtain ⟨hit, hhit⟩ := hseen e he
    simp [hhit]
  dsimp only
  refine ⟨_, by rw [hmerged]; rfl, ?_⟩
  generalize hout : (st.scores.filterMap fun e => (st.firstSeen.lookup e.1).map
    fun hit : Hit ι Double => { hit with chunkId := e.1, score := e.2 }) = merged
  have hpairs : merged.map (fun hit => (hit.chunkId, valueOf hit.score)) =
      (semanticHits.map Hit.chunkId ++ (keywordHits.map Hit.chunkId).filter
        (· ∉ semanticHits.map Hit.chunkId)).map fun id =>
          (id, rrfTotal k (semanticHits.map Hit.chunkId) (keywordHits.map Hit.chunkId) id) := by
    rw [← hread.scored, List.map_map, ← hout]
    refine map_filterMap_of fun e he => ?_
    obtain ⟨hit, hhit⟩ := hseen e he
    simp [hhit, hvalue e he, valueOf]
  have hfinite : ∀ hit ∈ merged, hit.score = .finite (valueOf hit.score) := by
    intro hit hmem
    rw [← hout] at hmem
    obtain ⟨e, he, hhit⟩ := List.mem_filterMap.mp hmem
    obtain ⟨hit', hhit'⟩ := hseen e he
    rw [hhit', Option.map_some, Option.some.injEq] at hhit
    rw [← hhit]
    simp [hvalue e he, valueOf]
  have hsorted := List.map_insertionSort (fun x y : Hit ι Double => !Double.lt x.score y.score)
    (fun x y : ι × ℚ => y.2 ≤ x.2) (fun hit => (hit.chunkId, valueOf hit.score)) merged
    fun x hx y hy => not_lt_iff (hfinite x hx) (hfinite y hy)
  rw [rrfOrder, ← hpairs, ← hsorted, List.map_map]
  rfl

theorem mergeRankings_spec (hs : (semanticHits.map Hit.chunkId).Nodup)
    (hk : (keywordHits.map Hit.chunkId).Nodup) :
    ∃ out, mergeRankings k semanticHits keywordHits = some out ∧ out.map Hit.chunkId =
      rrfOrder k (semanticHits.map Hit.chunkId) (keywordHits.map Hit.chunkId) := by
  obtain ⟨hread, hscore⟩ := countRankings_spec (k := k) hs hk
  unfold mergeRankings
  simp only
  generalize countRankings k [semanticHits, keywordHits] = st at hread hscore
  have hsorted := List.map_insertionSort
    (fun x y : ι => !Double.lt (Double.neg (scoreOf st.scores y)) (Double.neg (scoreOf st.scores x)))
    (fun x y : ι × ℚ => y.2 ≤ x.2)
    (fun id => (id, rrfTotal k (semanticHits.map Hit.chunkId) (keywordHits.map Hit.chunkId) id))
    (st.scores.map Prod.fst) fun x _ y _ => by
      rw [hscore, hscore]
      simp [Double.lt, Double.neg]
  generalize hids : (st.scores.map Prod.fst).insertionSort (fun x y : ι =>
    !Double.lt (Double.neg (scoreOf st.scores y)) (Double.neg (scoreOf st.scores x))) = ids at hsorted
  have horder : ids = rrfOrder k (semanticHits.map Hit.chunkId) (keywordHits.map Hit.chunkId) := by
    rw [rrfOrder, ← hread.scored, ← hsorted, List.map_map]
    exact (List.map_id ids).symm
  have hnodup : (st.firstSeen.map Prod.fst).Nodup := hread.first ▸ nodup_seen hs hk
  have hseen : ∀ id ∈ ids, ∃ hit, st.firstSeen.lookup id = some hit ∧ hit.chunkId = id := by
    intro id hid
    rw [← hids, List.mem_insertionSort, hread.scored, ← hread.first] at hid
    obtain ⟨hit, hhit⟩ := Option.isSome_iff_exists.mp (Pairing.lookup_isSome.mpr hid)
    exact ⟨hit, hhit, hread.own _ ((Pairing.lookup_eq_some hnodup).mp hhit)⟩
  refine ⟨_, Fallible.mapM_of_isSome fun id hid => ?_, ?_⟩
  · obtain ⟨hit, hhit, -⟩ := hseen id hid
    simp [hhit]
  · rw [← horder, map_filterMap_of (e := id) fun id hid => ?_, List.map_id]
    obtain ⟨hit, hhit, hown⟩ := hseen id hid
    rw [hhit, Option.map_some, hown]
    rfl

theorem perm_rrfOrder (k : Nat) (semantic keyword : List ι) :
    (rrfOrder k semantic keyword).Perm (semantic ++ keyword.filter (· ∉ semantic)) := by
  unfold rrfOrder
  refine ((List.perm_insertionSort _ _).map Prod.fst).trans ?_
  rw [List.map_map]
  exact (List.map_id _).symm ▸ List.Perm.refl _

theorem mem_rrfOrder : a ∈ rrfOrder k semantic keyword ↔ a ∈ semantic ∨ a ∈ keyword := by
  rw [(perm_rrfOrder k semantic keyword).mem_iff, List.mem_append, List.mem_filter]
  by_cases h : a ∈ semantic <;> simp [h]

theorem nodup_rrfOrder (hs : semantic.Nodup) (hk : keyword.Nodup) :
    (rrfOrder k semantic keyword).Nodup :=
  (perm_rrfOrder k semantic keyword).nodup_iff.mpr (nodup_seen hs hk)

/-- Of two chunks the one seen first stays in front where it scores no less. -/
theorem pair_rrfOrder (h : [a, b].Sublist (semantic ++ keyword.filter (· ∉ semantic)))
    (hle : rrfTotal k semantic keyword b ≤ rrfTotal k semantic keyword a) :
    [a, b].Sublist (rrfOrder k semantic keyword) := by
  have hpair := h.map fun id => (id, rrfTotal k semantic keyword id)
  exact (List.pair_sublist_insertionSort (r := fun x y : ι × ℚ => y.2 ≤ x.2) hle hpair).map Prod.fst

theorem sorted_rrfOrder (k : Nat) (semantic keyword : List ι) :
    (rrfOrder k semantic keyword).Pairwise fun x y =>
      rrfTotal k semantic keyword y ≤ rrfTotal k semantic keyword x := by
  have htotal : Std.Total fun x y : ι × ℚ => y.2 ≤ x.2 := ⟨fun x y => le_total y.2 x.2⟩
  have htrans : IsTrans (ι × ℚ) fun x y => y.2 ≤ x.2 := ⟨fun _ _ _ h h' => h'.trans h⟩
  have hsorted := List.pairwise_insertionSort (fun x y : ι × ℚ => y.2 ≤ x.2)
    ((semantic ++ keyword.filter (· ∉ semantic)).map fun id => (id, rrfTotal k semantic keyword id))
  rw [rrfOrder, List.pairwise_map]
  refine hsorted.imp_of_mem fun {x y} hx hy hle => ?_
  rw [List.mem_insertionSort] at hx hy
  obtain ⟨a, -, rfl⟩ := List.mem_map.mp hx
  obtain ⟨b, -, rfl⟩ := List.mem_map.mp hy
  exact hle

/-- A greater score stands in front. -/
theorem rrfOrder_of_lt (ha : a ∈ rrfOrder k semantic keyword) (hb : b ∈ rrfOrder k semantic keyword)
    (hlt : rrfTotal k semantic keyword b < rrfTotal k semantic keyword a) :
    [a, b].Sublist (rrfOrder k semantic keyword) := by
  have hne : a ≠ b := fun h => absurd hlt (by rw [h]; exact lt_irrefl _)
  rcases FirstSeen.sublist_or_sublist ha hb hne with h | h
  · exact h
  · have hle := List.pairwise_iff_forall_sublist.mp (sorted_rrfOrder k semantic keyword) h
    exact absurd hlt (not_lt.mpr hle)

/-! A chunk that both rankings put in front of another. -/

/-- Wherever `b` stands in the ranking, `a` stands in front of it. -/
def Leads (a b : ι) (ranking : List ι) : Prop := b ∈ ranking → [a, b].Sublist ranking

theorem idxOf_lt_of_pair {xs : List ι} (hnodup : xs.Nodup) (h : [a, b].Sublist xs) :
    xs.idxOf a < xs.idxOf b := by
  induction xs with
  | nil => cases h
  | cons x xs ih =>
    obtain ⟨hx, hrest⟩ := List.nodup_cons.mp hnodup
    cases h with
    | cons _ h =>
      have ha : a ∈ xs := h.subset (by simp)
      have hb : b ∈ xs := h.subset (by simp)
      have hxa : x ≠ a := fun he => hx (he ▸ ha)
      have hxb : x ≠ b := fun he => hx (he ▸ hb)
      rw [List.idxOf_cons_ne _ hxa, List.idxOf_cons_ne _ hxb]
      have := ih hrest h
      omega
    | cons_cons _ h =>
      have hb : b ∈ xs := h.subset (by simp)
      have hab : a ≠ b := fun he => hx (he ▸ hb)
      rw [List.idxOf_cons_self, List.idxOf_cons_ne _ hab]
      omega

theorem afterRanking_double {ranking : List ι} (hp : 0 ≤ p) (h : Double.magnitude p = p) (id : ι) :
    Double.magnitude (afterRanking k ranking id p) = afterRanking k ranking id p := by
  unfold afterRanking
  split
  · exact Double.magnitude_idem (add_nonneg hp (rrfValue_nonneg _ _))
  · exact h

theorem afterRanking_le {ranking : List ι} (hnodup : ranking.Nodup) (hlead : Leads a b ranking)
    (hp : 0 ≤ p) (hle : p ≤ q) (hq : Double.magnitude q = q) :
    afterRanking k ranking b p ≤ afterRanking k ranking a q := by
  unfold afterRanking
  by_cases hb : b ∈ ranking
  · have hpair := hlead hb
    have ha : a ∈ ranking := hpair.subset (by simp)
    rw [if_pos hb, if_pos ha]
    refine Double.magnitude_mono (add_nonneg hp (rrfValue_nonneg _ _)) (add_le_add hle ?_)
    exact rrfValue_anti k (idxOf_lt_of_pair hnodup hpair).le
  · rw [if_neg hb]
    split
    · refine hle.trans (Double.le_magnitude (hp.trans hle) ?_ hq)
      exact le_add_of_nonneg_right (rrfValue_nonneg _ _)
    · exact hle

theorem rrfTotal_le (hs : semantic.Nodup) (hk : keyword.Nodup) (hleads : Leads a b semantic)
    (hleads' : Leads a b keyword) : rrfTotal k semantic keyword b ≤ rrfTotal k semantic keyword a :=
  afterRanking_le hk hleads' (afterRanking_nonneg le_rfl _ _)
    (afterRanking_le hs hleads le_rfl le_rfl Double.magnitude_zero)
    (afterRanking_double le_rfl Double.magnitude_zero a)

theorem pair_seen (hb : b ∈ semantic ∨ b ∈ keyword) (hleads : Leads a b semantic)
    (hleads' : Leads a b keyword) : [a, b].Sublist (semantic ++ keyword.filter (· ∉ semantic)) := by
  by_cases hsem : b ∈ semantic
  · exact (hleads hsem).trans (List.sublist_append_left _ _)
  · have hpair := hleads' (hb.resolve_left hsem)
    by_cases ha : a ∈ semantic
    · have hlast : b ∈ keyword.filter (· ∉ semantic) :=
        List.mem_filter.mpr ⟨hpair.subset (by simp), by simpa using hsem⟩
      exact (List.singleton_sublist.mpr ha).append (List.singleton_sublist.mpr hlast)
    · have hfilter := hpair.filter (· ∉ semantic)
      rw [List.filter_cons_of_pos (by simpa using ha),
        List.filter_cons_of_pos (by simpa using hsem)] at hfilter
      exact hfilter.trans (List.sublist_append_right _ _)

theorem rrfOrder_of_leads (hs : semantic.Nodup) (hk : keyword.Nodup)
    (hb : b ∈ rrfOrder k semantic keyword) (hleads : Leads a b semantic)
    (hleads' : Leads a b keyword) : [a, b].Sublist (rrfOrder k semantic keyword) :=
  pair_rrfOrder (pair_seen (mem_rrfOrder.1 hb) hleads hleads') (rrfTotal_le hs hk hleads hleads')

/-- What the search gives is a front part of the fused list. -/
theorem hybridSearch_spec {semantic keyword : Nat → List (Hit ι Double)} {query : Text} {fan : Nat}
    (hfan : fanTopK topK = some fan) (hs : ((semantic fan).map Hit.chunkId).Nodup)
    (hk : ((keyword fan).map Hit.chunkId).Nodup)
    (h : hybridSearch k semantic keyword query topK = some out) :
    out.map Hit.chunkId <+: rrfOrder k ((semantic fan).map Hit.chunkId) ((keyword fan).map Hit.chunkId) := by
  unfold hybridSearch at h
  split at h
  · obtain rfl := Option.some.inj h
    exact List.nil_prefix
  · obtain ⟨fused, hfused, horder⟩ := fuse_spec (k := k) hs hk
    simp only [hfan, hfused, Option.bind_eq_bind, Option.bind_some, Option.pure_def,
      Option.some.injEq] at h
    rw [← h, List.map_take, horder]
    exact List.take_prefix _ _

/-- In a front part of a list without repetitions whoever stands in front of a chunk is there. -/
theorem pair_of_prefix {xs ys : List ι} (hpre : ys <+: xs) (hnodup : xs.Nodup) (hb : b ∈ ys)
    (h : [a, b].Sublist xs) : [a, b].Sublist ys := by
  obtain ⟨zs, rfl⟩ := hpre
  have ha : a ∈ ys := by
    rw [List.sublist_append_iff] at h
    obtain ⟨l, r, heq, hl, hr⟩ := h
    have hdisj := (List.nodup_append.mp hnodup).2.2
    match l, heq with
    | [], heq =>
      rw [List.nil_append] at heq
      exact absurd rfl (hdisj b hb b (hr.subset (by simp [← heq])))
    | c :: l, heq =>
      rw [List.cons_append, List.cons.injEq] at heq
      exact hl.subset (by simp [heq.1])
  exact FirstSeen.pair_sublist (List.sublist_append_left _ _) hnodup hb ha h

/-- The constant of both callers. -/
def rrfK : Nat := 60

/-- A hit of which only the chunk matters. -/
def bareHit (id : Nat) : Hit Nat Double := ⟨id, [], 0, 0, .null, .finite 0⟩

/-- Two backends that agree on the first chunk of three. -/
def semanticRun (_ : Nat) : List (Hit Nat Double) := [bareHit 1, bareHit 2]

def keywordRun (_ : Nat) : List (Hit Nat Double) := [bareHit 1, bareHit 3, bareHit 2]

def searchRun (topK : Nat) : List (Hit Nat Double) :=
  (hybridSearch rrfK semanticRun keywordRun ['q'] topK).getD []

theorem searchRun_spec : fanTopK 2 = some 3 ∧ fanTopK 3 = some 4 ∧
    (hybridSearch rrfK semanticRun keywordRun ['q'] 2).isSome ∧
    (hybridSearch rrfK semanticRun keywordRun ['q'] 3).isSome ∧
    (searchRun 2).map Hit.chunkId = [1, 2] ∧ (searchRun 3).map Hit.chunkId = [1, 2, 3] := by
  decide +kernel

theorem searchRun_eq (h : (hybridSearch rrfK semanticRun keywordRun ['q'] topK).isSome) :
    hybridSearch rrfK semanticRun keywordRun ['q'] topK = some (searchRun topK) := by
  unfold searchRun
  cases heq : hybridSearch rrfK semanticRun keywordRun ['q'] topK with
  | none => simp [heq] at h
  | some out => rfl

/-- A chunk that leads another in each backend's ranking stands in front of it in the answer: a cut
at `top_k` never drops the better one of the two. -/
theorem search_keeps_dominance {semantic keyword : Nat → List (Hit ι Double)} {query : Text}
    {fan : Nat} (hfan : fanTopK topK = some fan) (hs : ((semantic fan).map Hit.chunkId).Nodup)
    (hk : ((keyword fan).map Hit.chunkId).Nodup)
    (h : hybridSearch k semantic keyword query topK = some out)
    (hb : b ∈ out.map Hit.chunkId) (hleads : Leads a b ((semantic fan).map Hit.chunkId))
    (hleads' : Leads a b ((keyword fan).map Hit.chunkId)) :
    [a, b].Sublist (out.map Hit.chunkId) :=
  have hpre := hybridSearch_spec hfan hs hk h
  pair_of_prefix hpre (nodup_rrfOrder hs hk) hb
    (rrfOrder_of_leads hs hk (hpre.subset hb) hleads hleads')

theorem search_keeps_dominance_cut : [1, 2].Sublist ((searchRun 2).map Hit.chunkId) :=
  search_keeps_dominance searchRun_spec.1 (by decide) (by decide)
    (searchRun_eq searchRun_spec.2.2.1) (by rw [searchRun_spec.2.2.2.2.1]; decide)
    (fun _ => by decide) fun _ => by decide

/-! A chunk that both rankings have. -/

/-- The doubles between the score of two middling ranks and the one of a single first rank. -/
theorem separators : Double.magnitude (273 / 2 ^ 15) = 273 / 2 ^ 15 ∧
    Double.magnitude (273 / 2 ^ 14) = 273 / 2 ^ 14 ∧
    Double.magnitude (17 / 2 ^ 10) = 17 / 2 ^ 10 := by
  have h₁ := Double.magnitude_of_digits (m := 273) (e := -15) (by norm_num) (by norm_num)
  have h₂ := Double.magnitude_of_digits (m := 273) (e := -14) (by norm_num) (by norm_num)
  have h₃ := Double.magnitude_of_digits (m := 17) (e := -10) (by norm_num) (by norm_num)
  norm_num at h₁ h₂ h₃ ⊢
  exact ⟨h₁, h₂, h₃⟩

theorem rrfValue_small (hm : k + rank + 1 < 2 ^ 53) :
    rrfValue k rank = Double.magnitude (1 / ((k + rank + 1 : Nat) : ℚ)) := by
  have hwhole : Double.magnitude ((k + rank + 1 : Nat) : ℚ) = ((k + rank + 1 : Nat) : ℚ) := by
    simpa using Double.magnitude_of_digits (e := 0) hm (by norm_num)
  rw [rrfValue_eq, hwhole, if_neg]
  have hlt : ((k + rank + 1 : Nat) : ℚ) < 2 ^ 53 := by exact_mod_cast hm
  have hpow : (2 : ℚ) ^ 53 ≤ 2 ^ 1024 := pow_le_pow_right₀ (by norm_num) (by norm_num)
  exact not_le.mpr (lt_of_lt_of_le hlt hpow)

theorem rrfValue_first : rrfValue rrfK 0 ≤ 17 / 2 ^ 10 := by
  rw [rrfValue_small (by decide)]
  exact Double.magnitude_le (by norm_num [rrfK]) (by norm_num [rrfK]) separators.2.2

theorem le_rrfValue (h : rank < rrfK) : 273 / 2 ^ 15 ≤ rrfValue rrfK rank := by
  refine le_trans ?_ (rrfValue_anti rrfK (Nat.le_pred_of_lt h))
  rw [rrfValue_small (by decide)]
  exact Double.le_magnitude (by norm_num) (by norm_num [rrfK]) separators.1

theorem afterRanking_notMem {ranking : List ι} (h : id ∉ ranking) :
    afterRanking k ranking id p = p := if_neg h

/-- One ranking alone gives no more than its first rank. -/
theorem rrfTotal_le_first (h : a ∉ semantic ∨ a ∉ keyword) :
    rrfTotal rrfK semantic keyword a ≤ 17 / 2 ^ 10 := by
  have hone : ∀ ranking : List ι, afterRanking rrfK ranking a 0 ≤ 17 / 2 ^ 10 := by
    intro ranking
    unfold afterRanking
    split
    · rw [zero_add]
      refine Double.magnitude_le (rrfValue_nonneg _ _) ?_ separators.2.2
      exact (rrfValue_anti rrfK (Nat.zero_le _)).trans rrfValue_first
    · norm_num
  unfold rrfTotal
  rcases h with h | h
  · rw [afterRanking_notMem h]
    exact hone keyword
  · rw [afterRanking_notMem h]
    exact hone semantic

/-- Two middling ranks give more. -/
theorem lt_rrfTotal (hs : a ∈ semantic) (hs' : semantic.idxOf a < rrfK) (hk : a ∈ keyword)
    (hk' : keyword.idxOf a < rrfK) : 17 / 2 ^ 10 < rrfTotal rrfK semantic keyword a := by
  have hfirst : 273 / 2 ^ 15 ≤ afterRanking rrfK semantic a 0 := by
    rw [afterRanking, if_pos hs, zero_add]
    exact Double.le_magnitude (by norm_num) (le_rrfValue hs') separators.1
  have hboth : 273 / 2 ^ 14 ≤ rrfTotal rrfK semantic keyword a := by
    rw [rrfTotal, afterRanking, if_pos hk]
    refine Double.le_magnitude (by norm_num) ?_ separators.2.1
    calc (273 / 2 ^ 14 : ℚ) = 273 / 2 ^ 15 + 273 / 2 ^ 15 := by norm_num
      _ ≤ _ := add_le_add hfirst (le_rrfValue hk')
  exact lt_of_lt_of_le (by norm_num) hboth

/-- A chunk that both backends have among their first `rrf_k` hits stands in front of every chunk
that only one of them has, even of the best hit of that one. -/
theorem search_puts_both_first {semantic keyword : Nat → List (Hit ι Double)} {query : Text}
    {fan : Nat} (hfan : fanTopK topK = some fan) (hs : ((semantic fan).map Hit.chunkId).Nodup)
    (hk : ((keyword fan).map Hit.chunkId).Nodup)
    (h : hybridSearch rrfK semantic keyword query topK = some out)
    (ha : a ∈ ((semantic fan).map Hit.chunkId).take rrfK)
    (ha' : a ∈ ((keyword fan).map Hit.chunkId).take rrfK) (hb : b ∈ out.map Hit.chunkId)
    (hone : b ∉ (semantic fan).map Hit.chunkId ∨ b ∉ (keyword fan).map Hit.chunkId) :
    [a, b].Sublist (out.map Hit.chunkId) := by
  have hpre := hybridSearch_spec hfan hs hk h
  have hplace : ∀ {xs : List ι}, a ∈ xs.take rrfK → a ∈ xs ∧ xs.idxOf a < rrfK := by
    intro xs hmem
    have hfront : xs.idxOf a = (xs.take rrfK).idxOf a := by
      conv_lhs => rw [← List.take_append_drop rrfK xs]
      exact List.idxOf_append_of_mem hmem
    refine ⟨List.mem_of_mem_take hmem, ?_⟩
    rw [hfront]
    exact lt_of_lt_of_le (List.idxOf_lt_length_of_mem hmem) (List.length_take_le _ _)
  obtain ⟨hsem, hsem'⟩ := hplace ha
  obtain ⟨hkey, hkey'⟩ := hplace ha'
  refine pair_of_prefix hpre (nodup_rrfOrder hs hk) hb (rrfOrder_of_lt ?_ (hpre.subset hb) ?_)
  · exact mem_rrfOrder.2 (.inl hsem)
  · exact lt_of_le_of_lt (rrfTotal_le_first hone) (lt_rrfTotal hsem hsem' hkey hkey')

theorem search_puts_both_first_late : [2, 3].Sublist ((searchRun 3).map Hit.chunkId) :=
  search_puts_both_first searchRun_spec.2.1 (by decide) (by decide)
    (searchRun_eq searchRun_spec.2.2.2.1) (by decide) (by decide)
    (by rw [searchRun_spec.2.2.2.2.2]; decide) (.inl (by decide))

/-- Where the original ranking and the translated one give a chunk the same rank, the original's
chunk stands in front. -/
theorem original_wins_ties (hs : (semanticHits.map Hit.chunkId).Nodup)
    (hk : (keywordHits.map Hit.chunkId).Nodup)
    (h : mergeRankings k semanticHits keywordHits = some out)
    (ha : a ∈ semanticHits.map Hit.chunkId) (hb : b ∈ keywordHits.map Hit.chunkId)
    (hb' : b ∉ semanticHits.map Hit.chunkId)
    (hle : (semanticHits.map Hit.chunkId).idxOf a ≤ (keywordHits.map Hit.chunkId).idxOf b) :
    [a, b].Sublist (out.map Hit.chunkId) := by
  obtain ⟨out', hout, horder⟩ := mergeRankings_spec (k := k) hs hk
  obtain rfl := Option.some.inj (h.symm.trans hout)
  rw [horder]
  refine pair_rrfOrder ?_ ?_
  · have hlast : b ∈ (keywordHits.map Hit.chunkId).filter (· ∉ semanticHits.map Hit.chunkId) :=
      List.mem_filter.mpr ⟨hb, by simpa using hb'⟩
    exact (List.singleton_sublist.mpr ha).append (List.singleton_sublist.mpr hlast)
  · have hfirst : rrfTotal k (semanticHits.map Hit.chunkId) (keywordHits.map Hit.chunkId) b ≤
        afterRanking k (semanticHits.map Hit.chunkId) a 0 := by
      rw [rrfTotal, afterRanking_notMem hb', afterRanking, if_pos hb, afterRanking, if_pos ha,
        zero_add, zero_add]
      exact Double.magnitude_mono (rrfValue_nonneg _ _) (rrfValue_anti k hle)
    refine hfirst.trans ?_
    unfold rrfTotal
    rw [afterRanking.eq_1 k (keywordHits.map Hit.chunkId)]
    split
    · refine Double.le_magnitude (afterRanking_nonneg le_rfl _ _) ?_
        (afterRanking_double le_rfl Double.magnitude_zero a)
      exact le_add_of_nonneg_right (rrfValue_nonneg _ _)
    · exact le_rfl

theorem original_wins_ties_single :
    ∃ out, mergeRankings rrfK [bareHit 1] [bareHit 3] = some out ∧
      [1, 3].Sublist (out.map Hit.chunkId) := by
  have hs : ([bareHit 1].map Hit.chunkId).Nodup := by decide
  have hk : ([bareHit 3].map Hit.chunkId).Nodup := by decide
  obtain ⟨out, hout, -⟩ := mergeRankings_spec (k := rrfK) hs hk
  exact ⟨out, hout, original_wins_ties hs hk hout (by decide) (by decide) (by decide) (by decide)⟩

end RownRg.Retrieval

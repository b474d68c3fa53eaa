import Mathlib.Data.List.Sort
import Mathlib.Data.Rat.Defs
import Mathlib.Algebra.Order.Ring.Rat
import Mathlib.Tactic.NormNum
import RownRg.Retrieval.Interleave

/-! The evidence of one section, shared out among its sources. -/

open PyText

namespace RownRg.Retrieval

variable {ι σ : Type} [DecidableEq ι] {ranked front rest : List (Hit ι σ)} {hit : Hit ι σ}
  {perSource cap n i : Nat} {s : ι}

def minKeep : Nat := 3

def minPerSource : Nat := 3

/-- `share cap` is `int(cap * settings.retrieval_source_cap_ratio)`. -/
def perSourceOf (share : Nat → Int) (cap : Nat) : Nat := (max (minPerSource : Int) (share cap)).toNat

/-- The locals of the loop in `_cap_per_source`. -/
structure Picks (ι : Type) where
  picked : List Nat
  deferred : List Nat
  used : ι → Nat

def pickLoop (perSource cap : Nat) : List (Hit ι σ) → Nat → Picks ι → Picks ι
  | [], _, p => p
  | hit :: rest, i, p =>
    if cap ≤ p.picked.length then p
    else if perSource ≤ p.used hit.sourceId then
      pickLoop perSource cap rest (i + 1) { p with deferred := p.deferred ++ [i] }
    else
      pickLoop perSource cap rest (i + 1)
        { p with
          picked := p.picked ++ [i]
          used := Function.update p.used hit.sourceId (p.used hit.sourceId + 1) }

/-- The places of the hits that `_cap_per_source` takes. -/
def capPlaces (perSource : Nat) (ranked : List (Hit ι σ)) (cap : Nat) : List Nat :=
  let p := pickLoop perSource cap ranked 0 ⟨[], [], fun _ => 0⟩
  let picked :=
    if p.picked.length < cap then p.picked ++ p.deferred.take (cap - p.picked.length) else p.picked
  picked.insertionSort (· ≤ ·)

def hitsAt (ranked : List (Hit ι σ)) (places : List Nat) : List (Hit ι σ) :=
  places.filterMap (ranked[·]?)

def capPerSource (share : Nat → Int) (ranked : List (Hit ι σ)) (cap : Nat) : List (Hit ι σ) :=
  hitsAt ranked (capPlaces (perSourceOf share cap) ranked cap)

/-- `scaled` is the product with `settings.retrieval_score_ratio`. -/
def selectRelevant [LinearOrder σ] [Zero σ] (share : Nat → Int) (scaled : σ → σ)
    (ranked : List (Hit ι σ)) (cap : Nat) : List (Hit ι σ) :=
  match ranked with
  | [] => []
  | top :: _ =>
    if top.score ≤ 0 then ranked.take (min minKeep cap)
    else
      let floor := scaled top.score
      let kept := capPerSource share (ranked.filter fun hit => floor ≤ hit.score) cap
      if kept.isEmpty then ranked.take (min minKeep cap) else kept

/-! What the loop has walked over. -/

/-- Fewer hits of its source than the limit stand in front of the hit at the place. -/
def within (perSource : Nat) (ranked : List (Hit ι σ)) (i : Nat) : Bool :=
  ranked[i]?.any fun hit =>
    (ranked.take i).countP (fun other => decide (other.sourceId = hit.sourceId)) < perSource

/-- How many of the hits at the places are of the source. -/
def ofSource (ranked : List (Hit ι σ)) (s : ι) (places : List Nat) : Nat :=
  (hitsAt ranked places).countP fun hit => decide (hit.sourceId = s)

/-- The locals after the first `n` hits. -/
structure Walked (perSource : Nat) (ranked : List (Hit ι σ)) (n : Nat) (p : Picks ι) : Prop where
  picked : p.picked = (List.range n).filter (within perSource ranked)
  deferred : p.deferred = (List.range n).filter fun i => !within perSource ranked i
  used : ∀ s, p.used s =
    min perSource ((ranked.take n).countP fun hit => decide (hit.sourceId = s))
  counted : ∀ s, ofSource ranked s p.picked = p.used s

omit [DecidableEq ι] in
theorem hitsAt_concat (h : ranked[i]? = some hit) (places : List Nat) :
    hitsAt ranked (places ++ [i]) = hitsAt ranked places ++ [hit] := by
  simp [hitsAt, h]

theorem walked_start : Walked perSource ranked 0 ⟨[], [], fun _ => 0⟩ :=
  ⟨rfl, rfl, by simp, by simp [ofSource, hitsAt]⟩

/-- One more hit: its source has used its limit, or has room for it. -/
theorem walked_step {p : Picks ι} (h : Walked perSource ranked n p) (hat : ranked[n]? = some hit) :
    Walked perSource ranked (n + 1)
      (if perSource ≤ p.used hit.sourceId then { p with deferred := p.deferred ++ [n] }
      else { p with
        picked := p.picked ++ [n]
        used := Function.update p.used hit.sourceId (p.used hit.sourceId + 1) }) := by
  have hwithin : within perSource ranked n = decide (p.used hit.sourceId < perSource) := by
    have hused := h.used hit.sourceId
    simp only [within, hat, Option.any_some, hused]
    congr 1
    exact propext (by omega)
  have htake : ∀ s, (ranked.take (n + 1)).countP (fun other => decide (other.sourceId = s)) =
      (ranked.take n).countP (fun other => decide (other.sourceId = s)) +
        if hit.sourceId = s then 1 else 0 := by
    intro s
    simp [List.take_add_one, hat, List.countP_append, List.countP_singleton]
  by_cases hfull : perSource ≤ p.used hit.sourceId
  · have hout : within perSource ranked n = false := by
      rw [hwithin]
      simpa using hfull
    rw [if_pos hfull]
    refine ⟨?_, ?_, fun s => ?_, h.counted⟩
    · simp [List.range_succ, List.filter_append, hout, h.picked]
    · simp [List.range_succ, List.filter_append, hout, h.deferred]
    · have hused := h.used s
      have hown := h.used hit.sourceId
      rw [htake]
      split
      · rename_i heq
        subst heq
        simp only
        omega
      · simp only
        omega
  · have hin : within perSource ranked n = true := by
      rw [hwithin]
      simpa using hfull
    rw [if_neg hfull]
    refine ⟨?_, ?_, fun s => ?_, fun s => ?_⟩
    · simp [List.range_succ, List.filter_append, hin, h.picked]
    · simp [List.range_succ, List.filter_append, hin, h.deferred]
    · have hused := h.used s
      rw [htake]
      by_cases hs : s = hit.sourceId
      · subst hs
        simp only [Function.update_self, if_pos]
        omega
      · rw [if_neg (Ne.symm hs)]
        simp only [Function.update_of_ne hs]
        omega
    · have hcounted := h.counted s
      unfold ofSource at hcounted ⊢
      rw [hitsAt_concat hat, List.countP_append, hcounted]
      by_cases hs : s = hit.sourceId
      · subst hs
        simp
      · simp [Function.update_of_ne hs, Ne.symm hs]

/-- The loop stops behind the last hit, or with as many picks as the cap. -/
theorem pickLoop_walked {p : Picks ι} (hsplit : ranked = front ++ rest)
    (h : Walked perSource ranked front.length p) (hroom : p.picked.length ≤ cap) :
    ∃ n ≤ ranked.length, Walked perSource ranked n (pickLoop perSource cap rest front.length p) ∧
      (pickLoop perSource cap rest front.length p).picked.length ≤ cap ∧
      (n = ranked.length ∨ (pickLoop perSource cap rest front.length p).picked.length = cap) := by
  induction rest generalizing front p with
  | nil => exact ⟨front.length, by simp [hsplit], h, hroom, .inl (by simp [hsplit])⟩
  | cons hit rest ih =>
    have hat : ranked[front.length]? = some hit := by simp [hsplit]
    have hstep := walked_step h hat
    have hnext : ranked = (front ++ [hit]) ++ rest := by simp [hsplit]
    have hlen : (front ++ [hit]).length = front.length + 1 := by simp
    by_cases hcap : cap ≤ p.picked.length
    · rw [pickLoop, if_pos hcap]
      exact ⟨front.length, by simp [hsplit], h, hroom, .inr (by omega)⟩
    · by_cases hfull : perSource ≤ p.used hit.sourceId
      · rw [if_pos hfull, ← hlen] at hstep
        have hrest := ih hnext hstep hroom
        rw [pickLoop, if_neg hcap, if_pos hfull]
        rwa [hlen] at hrest
      · rw [if_neg hfull, ← hlen] at hstep
        have hrest := ih hnext hstep (by simp; omega)
        rw [pickLoop, if_neg hcap, if_neg hfull]
        rwa [hlen] at hrest

/-! What is taken. -/

/-- The first so many of a ranking by source: in order, as many as the cap allows, and a source
goes over its limit only where the others have got all that theirs allow. -/
structure Capped (perSource cap : Nat) (ranked : List (Hit ι σ)) (places : List Nat) : Prop where
  ordered : places.Pairwise (· < ·)
  inside : ∀ i ∈ places, i < ranked.length
  count : places.length = min cap ranked.length
  overflow : ∀ s, perSource < ofSource ranked s places →
    ∀ i, within perSource ranked i → i ∈ places

theorem length_walked {p : Picks ι} (h : Walked perSource ranked n p) :
    p.picked.length + p.deferred.length = n := by
  have hsum := List.length_eq_length_filter_add (l := List.range n) (within perSource ranked)
  rw [h.picked, h.deferred, ← hsum, List.length_range]

theorem mem_walked {p : Picks ι} (h : Walked perSource ranked n p) :
    (∀ i, i ∈ p.picked ↔ i < n ∧ within perSource ranked i) ∧
      ∀ i, i ∈ p.deferred ↔ i < n ∧ within perSource ranked i = false := by
  rw [h.picked, h.deferred]
  exact ⟨by simp, by simp⟩

theorem nodup_walked {p : Picks ι} (h : Walked perSource ranked n p) (k : Nat) :
    (p.picked ++ p.deferred.take k).Nodup := by
  obtain ⟨hpicked, hdeferred⟩ := mem_walked h
  refine List.nodup_append.mpr ⟨?_, ?_, fun i hi j hj heq => ?_⟩
  · rw [h.picked]
    exact List.nodup_range.filter _
  · rw [h.deferred]
    exact (List.nodup_range.filter _).sublist (List.take_sublist _ _)
  · subst heq
    have hin := ((hpicked i).mp hi).2
    have hout := ((hdeferred i).mp (List.mem_of_mem_take hj)).2
    rw [hin] at hout
    cases hout

theorem ofSource_perm {places places' : List Nat} (h : places.Perm places') (s : ι) :
    ofSource ranked s places = ofSource ranked s places' :=
  (h.filterMap _).countP_eq _

theorem capped_capPlaces (perSource : Nat) (ranked : List (Hit ι σ)) (cap : Nat) :
    Capped perSource cap ranked (capPlaces perSource ranked cap) := by
  obtain ⟨n, hn, hwalk, hroom, hend⟩ :=
    pickLoop_walked (List.nil_append ranked).symm walked_start (Nat.zero_le cap)
  unfold capPlaces
  simp only [List.length_nil] at hwalk hroom hend ⊢
  generalize pickLoop perSource cap ranked 0 ⟨[], [], fun _ => 0⟩ = p at hwalk hroom hend ⊢
  obtain ⟨hpicked, hdeferred⟩ := mem_walked hwalk
  have hsum := length_walked hwalk
  have hsort := fun l : List Nat => List.perm_insertionSort (· ≤ ·) l
  split
  · rename_i hlt
    have hlast : n = ranked.length := by omega
    have hnodup := nodup_walked hwalk (cap - p.picked.length)
    generalize hL : p.picked ++ p.deferred.take (cap - p.picked.length) = L at hnodup
    have hmem : ∀ i ∈ L, i < n := by
      intro i hi
      rw [← hL] at hi
      rcases List.mem_append.mp hi with hi | hi
      · exact ((hpicked i).mp hi).1
      · exact ((hdeferred i).mp (List.mem_of_mem_take hi)).1
    refine ⟨?_, fun i hi => ?_, ?_, fun s _ i hi => ?_⟩
    · exact ((List.pairwise_insertionSort (· ≤ ·) L).and
        ((hsort L).nodup_iff.mpr hnodup)).imp fun h => lt_of_le_of_ne h.1 h.2
    · exact (hmem i ((hsort L).mem_iff.mp hi)).trans_le hn
    · rw [(hsort L).length_eq, ← hL, List.length_append, List.length_take]
      omega
    · have hbound : i < n := by
        rw [hlast]
        by_contra hlong
        rw [within, List.getElem?_eq_none (not_lt.mp hlong)] at hi
        cases hi
      refine (hsort L).mem_iff.mpr ?_
      rw [← hL]
      exact List.mem_append_left _ ((hpicked i).mpr ⟨hbound, hi⟩)
  · rename_i hge
    have hfull : p.picked.length = cap := by omega
    have hnodup : p.picked.Nodup := by
      rw [hwalk.picked]
      exact List.nodup_range.filter _
    refine ⟨?_, fun i hi => ?_, ?_, fun s hs => ?_⟩
    · exact ((List.pairwise_insertionSort (· ≤ ·) p.picked).and
        ((hsort _).nodup_iff.mpr hnodup)).imp fun h => lt_of_le_of_ne h.1 h.2
    · exact (((hpicked i).mp ((hsort _).mem_iff.mp hi)).1).trans_le hn
    · rw [(hsort _).length_eq]
      omega
    · have hused := hwalk.used s
      rw [ofSource_perm (hsort _), hwalk.counted] at hs
      omega

/-! Taking hits by their places. -/

omit [DecidableEq ι] in
theorem hitsAt_range (ranked : List (Hit ι σ)) :
    hitsAt ranked (List.range ranked.length) = ranked := by
  induction ranked with
  | nil => rfl
  | cons hit rest ih =>
    rw [hitsAt, List.length_cons, List.range_succ_eq_map, List.filterMap_cons, List.filterMap_map]
    exact congrArg (hit :: ·) ih

omit [DecidableEq ι] in
/-- Places in order give a part of the ranking in order. -/
theorem hitsAt_sublist {places : List Nat} (hordered : places.Pairwise (· < ·))
    (hinside : ∀ i ∈ places, i < ranked.length) : (hitsAt ranked places).Sublist ranked := by
  have hsub : places.Sublist (List.range ranked.length) := by
    refine List.sublist_of_subperm_of_pairwise ?_ hordered List.pairwise_lt_range
    refine List.subperm_of_subset (hordered.imp ne_of_lt) fun i hi => ?_
    exact List.mem_range.mpr (hinside i hi)
  have hmap := hsub.filterMap (ranked[·]?)
  rwa [show (List.range ranked.length).filterMap (ranked[·]?) = ranked from hitsAt_range ranked]
    at hmap

omit [DecidableEq ι] in
theorem length_hitsAt {places : List Nat} (hinside : ∀ i ∈ places, i < ranked.length) :
    (hitsAt ranked places).length = places.length := by
  induction places with
  | nil => rfl
  | cons i places ih =>
    have hlt : i < ranked.length := hinside i List.mem_cons_self
    have hi : ranked[i]? = some ranked[i] := List.getElem?_eq_getElem hlt
    rw [hitsAt, List.filterMap_cons_some hi, List.length_cons, List.length_cons]
    exact congrArg (· + 1) (ih fun j hj => hinside j (List.mem_cons_of_mem i hj))

/-- The cap gives as many hits as it can, in the order of the ranking. -/
theorem capPerSource_taken (share : Nat → Int) (ranked : List (Hit ι σ)) (cap : Nat) :
    (capPerSource share ranked cap).Sublist ranked ∧
      (capPerSource share ranked cap).length = min cap ranked.length := by
  have h := capped_capPlaces (perSourceOf share cap) ranked cap
  refine ⟨hitsAt_sublist h.ordered h.inside, ?_⟩
  rw [capPerSource, length_hitsAt h.inside, h.count]

/-! The selection. -/

section
variable [LinearOrder σ] [Zero σ] {share : Nat → Int} {scaled : σ → σ} {top : Hit ι σ}

theorem selectRelevant_cons (ranked : List (Hit ι σ)) :
    selectRelevant share scaled (top :: ranked) cap = (top :: ranked).take (min minKeep cap) ∨
      0 < top.score ∧ selectRelevant share scaled (top :: ranked) cap =
        capPerSource share
          ((top :: ranked).filter fun hit => decide (scaled top.score ≤ hit.score)) cap := by
  unfold selectRelevant
  simp only
  split
  · exact .inl rfl
  · rename_i hpos
    split
    · exact .inl rfl
    · exact .inr ⟨not_le.mp hpos, rfl⟩

/-- The selection is some of the ranking in its order, at least one hit and at most the cap. -/
theorem selectRelevant_taken (hcap : 1 ≤ cap) (hne : ranked ≠ []) :
    selectRelevant share scaled ranked cap ≠ [] ∧
      (selectRelevant share scaled ranked cap).Sublist ranked ∧
      (selectRelevant share scaled ranked cap).length ≤ cap := by
  obtain ⟨top, rest, rfl⟩ := List.exists_cons_of_ne_nil hne
  have hkeep : 1 ≤ min minKeep cap := by
    simp only [minKeep]
    omega
  have htake : (top :: rest).take (min minKeep cap) ≠ [] := by
    obtain ⟨k, hk⟩ : ∃ k, min minKeep cap = k + 1 := ⟨min minKeep cap - 1, by omega⟩
    rw [hk, List.take_succ_cons]
    exact List.cons_ne_nil _ _
  have hfirst : (top :: rest).take (min minKeep cap) ≠ [] ∧
      ((top :: rest).take (min minKeep cap)).Sublist (top :: rest) ∧
      ((top :: rest).take (min minKeep cap)).length ≤ cap :=
    ⟨htake, List.take_sublist _ _, (List.length_take_le _ _).trans (min_le_right _ _)⟩
  unfold selectRelevant
  simp only
  split
  · exact hfirst
  · split
    · exact hfirst
    · rename_i hkept
      obtain ⟨hsub, hlen⟩ := capPerSource_taken share
        ((top :: rest).filter fun hit => decide (scaled top.score ≤ hit.score)) cap
      exact ⟨by simpa using hkept, hsub.trans List.filter_sublist, hlen.trans_le (min_le_left _ _)⟩

/-- Over a positive top score that reaches its own floor, nothing below the floor is selected. -/
theorem selectRelevant_floor (hcap : 1 ≤ cap) (hpos : 0 < top.score)
    (hfloor : scaled top.score ≤ top.score) :
    ∀ hit ∈ selectRelevant share scaled (top :: rest) cap, scaled top.score ≤ hit.score := by
  generalize hkept : (top :: rest).filter (fun hit => decide (scaled top.score ≤ hit.score)) = kept
  obtain ⟨hsub, hlen⟩ := capPerSource_taken share kept cap
  have htop : top ∈ kept := by
    rw [← hkept]
    exact List.mem_filter.mpr ⟨List.mem_cons_self, by simpa using hfloor⟩
  have hsome : (capPerSource share kept cap).isEmpty = false := by
    have hone := List.length_pos_of_mem htop
    rw [List.isEmpty_eq_false_iff, ← List.length_pos_iff]
    omega
  have heq : selectRelevant share scaled (top :: rest) cap = capPerSource share kept cap := by
    unfold selectRelevant
    simp only [if_neg (not_le.mpr hpos), hkept, hsome]
    rfl
  intro hit hhit
  rw [heq] at hhit
  have hmem := hsub.subset hhit
  rw [← hkept] at hmem
  simpa using (List.mem_filter.mp hmem).2

/-- What the cap and the selection give: hits in the order of the ranking, as many as there is room
for, spread over the sources as far as the ranking allows, and none below the floor. -/
theorem evidence_capped (share : Nat → Int) (scaled : σ → σ) (ranked : List (Hit ι σ))
    (hcap : 1 ≤ cap) :
    ((capPerSource share ranked cap).Sublist ranked ∧
      (capPerSource share ranked cap).length = min cap ranked.length ∧
      capPerSource share ranked cap = hitsAt ranked (capPlaces (perSourceOf share cap) ranked cap) ∧
      (∀ s, perSourceOf share cap <
          (capPerSource share ranked cap).countP (fun hit => decide (hit.sourceId = s)) →
        ∀ i, within (perSourceOf share cap) ranked i →
          i ∈ capPlaces (perSourceOf share cap) ranked cap)) ∧
    (ranked ≠ [] →
      selectRelevant share scaled ranked cap ≠ [] ∧
      (selectRelevant share scaled ranked cap).Sublist ranked ∧
      (selectRelevant share scaled ranked cap).length ≤ cap ∧
      ∀ top, ranked.head? = some top → 0 < top.score → scaled top.score ≤ top.score →
        ∀ hit ∈ selectRelevant share scaled ranked cap, scaled top.score ≤ hit.score) := by
  obtain ⟨hsub, hlen⟩ := capPerSource_taken share ranked cap
  refine ⟨⟨hsub, hlen, rfl, (capped_capPlaces _ ranked cap).overflow⟩, fun hne => ?_⟩
  obtain ⟨hsome, hpart, hbound⟩ : selectRelevant share scaled ranked cap ≠ [] ∧
      (selectRelevant share scaled ranked cap).Sublist ranked ∧
      (selectRelevant share scaled ranked cap).length ≤ cap := selectRelevant_taken hcap hne
  refine ⟨hsome, hpart, hbound, fun top htop hpos hfloor => ?_⟩
  obtain ⟨rest, rfl⟩ := List.head?_eq_some_iff.mp htop
  exact selectRelevant_floor hcap hpos hfloor

end

theorem evidence_capped_two :
    ((capPerSource (fun cap => (cap : Int) / 5)
        [(⟨1, [], 7, 0, .null, 3⟩ : Hit Nat ℚ), ⟨2, [], 7, 1, .null, 2⟩] 1).length = 1) ∧
      selectRelevant (fun cap => (cap : Int) / 5) (· * (1 / 10))
        [(⟨1, [], 7, 0, .null, 3⟩ : Hit Nat ℚ), ⟨2, [], 7, 1, .null, 2⟩] 1 ≠ [] := by
  obtain ⟨⟨-, hlen, -, -⟩, hselect⟩ := evidence_capped (fun cap => (cap : Int) / 5) (· * (1 / 10))
    [(⟨1, [], 7, 0, .null, 3⟩ : Hit Nat ℚ), ⟨2, [], 7, 1, .null, 2⟩] (le_refl 1)
  exact ⟨hlen, (hselect (List.cons_ne_nil _ _)).1⟩

/-- With a score ratio of two the floor is above every score, and the hits below it are what is
left to select. -/
theorem not_selectRelevant_floor :
    ¬ ∀ (ratio : ℚ) (ranked : List (Hit Nat ℚ)) (cap : Nat), 1 ≤ cap →
      ∀ top, ranked.head? = some top → 0 < top.score →
        ∀ hit ∈ selectRelevant (fun cap => (cap : Int) / 5) (· * ratio) ranked cap,
          top.score * ratio ≤ hit.score := by
  intro h
  have hscores : (selectRelevant (fun cap => (cap : Int) / 5) (· * 2)
      [(⟨1, [], 7, 0, .null, 1⟩ : Hit Nat ℚ)] 1).map (·.score) = [1] := by
    with_unfolding_all decide
  obtain ⟨hit, hmem, hscore⟩ := List.mem_map.mp (hscores.symm ▸ List.mem_singleton_self (1 : ℚ))
  have hbelow : (1 : ℚ) * 2 ≤ hit.score := h 2 _ 1 (le_refl 1) _ rfl (by decide) hit hmem
  rw [hscore] at hbelow
  norm_num at hbelow

end RownRg.Retrieval

import RownRg.Core.Circles

/-! The batches in which sections are written: level by level. -/

open PyText Circles

namespace RownRg.BuildsOn

variable {plan : List SectionPlan} {a b : Text} {deps : Text → List Text} {s t : SectionPlan}
  {levels : List (Text × Nat)} {bs : List (List SectionPlan)} {warnings : List Warning} {n : Nat}

/-- Each section goes into the batch of its level. -/
def fillBatches (levels : List (Text × Nat)) (plan : List SectionPlan)
    (out : List (List SectionPlan)) : Option (List (List SectionPlan)) :=
  plan.foldlM (fun out s => (levels.lookup (labelOf s)).map fun level =>
    out.modify level (· ++ [s])) out

def batches (plan : List SectionPlan) : Option (List (List SectionPlan) × List Warning) := do
  let x ← assignLevels plan
  if plan.isEmpty then return ([], x.2)
  let n := (x.1.map (·.2)).foldl max 0 + 1
  let out ← fillBatches x.1 plan (List.replicate n [])
  return (out.filter fun b => !b.isEmpty, x.2)

/-! The filled batches are the sections of each level, in the order of the plan. -/

def levelIn (levels : List (Text × Nat)) (s : SectionPlan) : Nat :=
  (levels.lookup (labelOf s)).getD 0

def sectionsAt (levels : List (Text × Nat)) (n : Nat) (plan : List SectionPlan) :
    List (List SectionPlan) :=
  (List.range n).map fun i => plan.filter fun s => levelIn levels s = i

theorem modify_sectionsAt {ds : List SectionPlan} :
    (sectionsAt levels n ds).modify (levelIn levels s) (· ++ [s]) =
      sectionsAt levels n (ds ++ [s]) := by
  refine List.ext_getElem? fun i => ?_
  rw [List.getElem?_modify, sectionsAt, sectionsAt, List.getElem?_map, List.getElem?_map]
  cases hi : (List.range n)[i]? with
  | none => simp
  | some j =>
    obtain rfl : i = j := by
      obtain ⟨_, hj⟩ := List.getElem?_eq_some_iff.mp hi
      simpa using hj
    by_cases hs : levelIn levels s = i <;> simp [hs]

theorem fillBatches_eq (h : ∀ s ∈ plan, (levels.lookup (labelOf s)).isSome) :
    fillBatches levels plan (List.replicate n []) = some (sectionsAt levels n plan) := by
  have hstart : List.replicate n [] = sectionsAt levels n [] := by
    simp [sectionsAt, List.map_const']
  obtain ⟨out, hout⟩ := Option.isSome_iff_exists.mp (foldlM_isSome (f := fun out s =>
    (levels.lookup (labelOf s)).map fun level => out.modify level (· ++ [s]))
    (fun s (hs : s ∈ plan) out => by simpa using h s hs) (List.replicate n []))
  rw [fillBatches, hout]
  refine congrArg some (foldlM_induct (P := fun ds out => out = sectionsAt levels n ds) hstart
    (fun ds s out out' hs hds hstep => ?_) hout)
  obtain ⟨level, hlevel, rfl⟩ := Option.map_eq_some_iff.mp hstep
  have hlevelIn : level = levelIn levels s := by simp [levelIn, hlevel]
  rw [hlevelIn, hds, modify_sectionsAt]

/-- The sections of all levels are the sections of the plan. -/
theorem flatten_sectionsAt (h : ∀ s ∈ plan, levelIn levels s < n) :
    (sectionsAt levels n plan).flatten.Perm plan := by
  induction n generalizing plan with
  | zero =>
    cases plan with
    | nil => exact .refl _
    | cons s plan => exact absurd (h s (by simp)) (Nat.not_lt_zero _)
  | succ n ih =>
    have hlow : (sectionsAt levels n (plan.filter fun s => levelIn levels s < n)).flatten.Perm
        (plan.filter fun s => levelIn levels s < n) := ih fun s hs => by
      simpa using (List.mem_filter.mp hs).2
    have hsame : sectionsAt levels n (plan.filter fun s => levelIn levels s < n) =
        sectionsAt levels n plan := by
      refine List.map_congr_left fun i hi => ?_
      rw [List.filter_filter]
      refine List.filter_congr fun s _ => ?_
      have hin := List.mem_range.mp hi
      by_cases hs : levelIn levels s = i <;> simp [hs, hin]
    have htop : (plan.filter fun s => levelIn levels s = n) =
        plan.filter fun s => !decide (levelIn levels s < n) := by
      refine List.filter_congr fun s hs => ?_
      have hlt := h s hs
      by_cases heq : levelIn levels s = n
      · simp [heq]
      · have hlow : levelIn levels s < n := by omega
        simp [heq, hlow]
    have hsucc : sectionsAt levels (n + 1) plan =
        sectionsAt levels n plan ++ [plan.filter fun s => levelIn levels s = n] := by
      simp [sectionsAt, List.range_succ]
    rw [hsucc, List.flatten_append, List.flatten_singleton, htop, ← hsame]
    exact (hlow.append_right _).trans (List.filter_append_perm _ plan)

theorem le_foldl_max {l : List Nat} {x k : Nat} (h : x ∈ l ∨ x ≤ k) : x ≤ l.foldl max k := by
  induction l generalizing k with
  | nil => simpa using h
  | cons y l ih =>
    refine ih ?_
    rcases h with h | h
    · rcases List.mem_cons.mp h with rfl | h
      · exact .inr (Nat.le_max_right k x)
      · exact .inl h
    · exact .inr (h.trans (Nat.le_max_left k y))

/-- What the batches of a plan are: its sections by their levels. -/
theorem batches_eq (plan : List SectionPlan) :
    ∃ levels warnings n, assignLevels plan = some (levels, warnings) ∧
      (∀ s ∈ plan, levelIn levels s < n) ∧
      batches plan = some ((sectionsAt levels n plan).filter fun b => !b.isEmpty, warnings) := by
  obtain ⟨st, -, hfound, heq⟩ := assignLevelsBy_eq_some (order_refl plan)
  rw [← assignLevels_eq] at heq
  have hsome : ∀ s ∈ plan, ((st.cut.map fun x => (x.1, min x.2 (maxDepth - 1))).lookup
      (labelOf s)).isSome := by
    intro s hs
    rw [lookup_capped, Option.isSome_map, lookup_isSome_iff, map_fst_cut]
    exact hfound (List.mem_map_of_mem hs)
  generalize st.cut.map (fun x => (x.1, min x.2 (maxDepth - 1))) = levels at heq hsome
  refine ⟨levels, st.warnings, (levels.map (·.2)).foldl max 0 + 1, heq, fun s hs => ?_, ?_⟩
  · obtain ⟨n, hn⟩ := Option.isSome_iff_exists.mp (hsome s hs)
    have hmem : n ∈ levels.map (·.2) := by
      obtain ⟨l₁, l₂, rfl, -⟩ := List.lookup_eq_some_iff.mp hn
      simp
    rw [levelIn, hn]
    exact Nat.lt_succ_of_le (le_foldl_max (.inl hmem))
  · cases plan with
    | nil => simp [batches, heq, sectionsAt]
    | cons s plan =>
      simp [batches, heq, fillBatches_eq hsome]

/-! Batches follow each other as the dependencies ask. -/

/-- The level of a section from which no circle can be reached. -/
theorem level_of_longest (heq : assignLevels plan = some (levels, warnings)) (hs : s ∈ plan)
    (hn : Longest (DependsOn plan) (labelOf s) n) : levelIn levels s = min n (maxDepth - 1) := by
  have hfollows := (order_refl plan).follows
  obtain ⟨st, htrail, hfound, heq'⟩ := assignLevelsBy_eq_some (order_refl plan)
  obtain ⟨rfl, -⟩ := Prod.mk.inj (Option.some.inj (heq'.symm.trans heq))
  obtain ⟨m, hm, hlook⟩ := htrail.level (hfound (List.mem_map_of_mem hs))
    (hfollows ▸ hn.clear)
  rw [hfollows] at hm
  simp [levelIn, lookup_capped, hlook, hm.unique hn]

/-- Every section gets the length of its longest chain, up to the last level, and a warning
exactly when its chain is longer. -/
structure ChainLevels (plan : List SectionPlan) (levels : List (Text × Nat))
    (warnings : List Warning) : Prop where
  level : ∀ a ∈ labelsOf plan, ∃ n, Longest (DependsOn plan) a n ∧
    levels.lookup a = some (min n (maxDepth - 1))
  warned : ∀ w, w ∈ warnings ↔ ∃ a n, a ∈ labelsOf plan ∧ Longest (DependsOn plan) a n ∧
    maxDepth - 1 < n ∧ w = .tooDeep a n

/-- Every section is in one batch, and behind the batches of what it builds on when its chain is
not too long. -/
structure InBatches (plan : List SectionPlan) (bs : List (List SectionPlan)) : Prop where
  partition : bs.flatten.Perm plan
  nonempty : [] ∉ bs
  later : ∀ (i j : Nat) b c s t, bs[i]? = some b → bs[j]? = some c → s ∈ b → t ∈ c →
    DependsOn plan (labelOf s) (labelOf t) →
    (∃ n, n ≤ maxDepth - 1 ∧ Longest (DependsOn plan) (labelOf s) n) → j < i

theorem chainLevels (h : Acyclic plan) :
    ∃ levels warnings, assignLevels plan = some (levels, warnings) ∧
      ChainLevels plan levels warnings := by
  have hfollows := (order_refl plan).follows
  have hclear : ∀ a, Clear (Follows fun label => depsOf plan label (refsOf plan label)) a :=
    fun _ b _ => hfollows ▸ h b
  obtain ⟨st, htrail, hfound, heq⟩ := assignLevelsBy_eq_some (order_refl plan)
  refine ⟨_, _, heq, fun a ha => ?_, fun w => ?_⟩
  · obtain ⟨n, hn, hlook⟩ := htrail.level (hfound ha) (hclear a)
    exact ⟨n, hfollows ▸ hn, by simp [lookup_capped, hlook]⟩
  · rw [htrail.mem_warnings hclear fun a b hab => hfound (mem_labels_of_dependsOn hab).1, hfollows]
    constructor
    · rintro ⟨a, n, hn, hdeep, rfl⟩
      refine ⟨a, n, ?_, hn, hdeep, rfl⟩
      cases hn.1 with
      | start => omega
      | step hab _ => exact (mem_labels_of_dependsOn hab).1
    · rintro ⟨a, n, -, hn, hdeep, rfl⟩
      exact ⟨a, n, hn, hdeep, rfl⟩

/-- A section with a short chain has a higher level than what it builds on. -/
theorem levelIn_lt (heq : assignLevels plan = some (levels, warnings)) (hs : s ∈ plan)
    (ht : t ∈ plan) (hst : DependsOn plan (labelOf s) (labelOf t)) (hn : n ≤ maxDepth - 1)
    (hlong : Longest (DependsOn plan) (labelOf s) n) : levelIn levels t < levelIn levels s := by
  have hclear := hlong.clear.next hst
  obtain ⟨m, hm⟩ : ∃ m, Longest (DependsOn plan) (labelOf t) m := by
    have hfollows := (order_refl plan).follows
    obtain ⟨st, htrail, hfound, -⟩ := assignLevelsBy_eq_some (order_refl plan)
    obtain ⟨m, hm, -⟩ := htrail.level (hfound (List.mem_map_of_mem ht)) (hfollows ▸ hclear)
    exact ⟨m, hfollows ▸ hm⟩
  have hlt := hlong.lt hst hm
  rw [level_of_longest heq hs hlong, level_of_longest heq ht hm]
  omega

theorem pairwise_sectionsAt (levels : List (Text × Nat)) (n : Nat) (plan : List SectionPlan) :
    (sectionsAt levels n plan).Pairwise fun b c =>
      ∀ s ∈ b, ∀ t ∈ c, levelIn levels s < levelIn levels t := by
  refine List.pairwise_map.mpr (List.Pairwise.imp ?_ List.pairwise_lt_range)
  intro i j hij s hs t ht
  have hi : levelIn levels s = i := by simpa using (List.mem_filter.mp hs).2
  have hj : levelIn levels t = j := by simpa using (List.mem_filter.mp ht).2
  rwa [hi, hj]

theorem inBatches (plan : List SectionPlan) :
    ∃ bs warnings, batches plan = some (bs, warnings) ∧ InBatches plan bs := by
  obtain ⟨levels, warnings, n, heq, hlt, hbatches⟩ := batches_eq plan
  refine ⟨_, warnings, hbatches, ?_, by simp, ?_⟩
  · rw [List.flatten_filter_not_isEmpty]
    exact flatten_sectionsAt hlt
  · intro i j b c s t hb hc hs ht hst hlong
    obtain ⟨k, hk, hlong⟩ := hlong
    have hsorted := (pairwise_sectionsAt levels n plan).sublist
      (List.filter_sublist (p := fun b => !b.isEmpty))
    have hmem : ∀ {b}, b ∈ (sectionsAt levels n plan).filter (fun b => !b.isEmpty) →
        ∃ i, ∀ s ∈ b, s ∈ plan ∧ levelIn levels s = i := by
      intro b hb
      obtain ⟨i, -, rfl⟩ := List.mem_map.mp (List.mem_of_mem_filter hb)
      exact ⟨i, fun s hs => by simpa using List.mem_filter.mp hs⟩
    obtain ⟨l, hl⟩ := hmem (List.mem_of_getElem? hb)
    obtain ⟨l', hl'⟩ := hmem (List.mem_of_getElem? hc)
    have hless := levelIn_lt heq (hl s hs).1 (hl' t ht).1 hst hk hlong
    rcases Nat.lt_trichotomy j i with hji | rfl | hij
    · exact hji
    · obtain rfl : b = c := Option.some.inj (hb.symm.trans hc)
      rw [(hl s hs).2, (hl t ht).2] at hless
      exact absurd hless (Nat.lt_irrefl l)
    · obtain ⟨hi, rfl⟩ := List.getElem?_eq_some_iff.mp hb
      obtain ⟨hj, rfl⟩ := List.getElem?_eq_some_iff.mp hc
      have hless' := List.pairwise_iff_getElem.mp hsorted i j hi hj hij s hs t ht
      exact absurd hless (Nat.lt_asymm hless')

/-- Levels follow the longest chains, and batches the levels. -/
theorem levels_and_batches (plan : List SectionPlan) :
    (Acyclic plan → ∃ levels warnings, assignLevels plan = some (levels, warnings) ∧
      ChainLevels plan levels warnings) ∧
    ∃ bs warnings, batches plan = some (bs, warnings) ∧ InBatches plan bs :=
  ⟨chainLevels, inBatches plan⟩

theorem acyclic_of_rank (rank : Text → Nat)
    (h : ∀ a ∈ labelsOf plan, ∀ b ∈ depsOf plan a (refsOf plan a), rank b < rank a) :
    Acyclic plan := by
  have hdescends : ∀ {a b}, Relation.TransGen (DependsOn plan) a b → rank b < rank a := by
    intro a b hab
    induction hab with
    | single hab => exact h a (mem_labels_of_dependsOn hab).1 _ hab
    | tail _ hbc ih => exact (h _ (mem_labels_of_dependsOn hbc).1 _ hbc).trans ih
  exact fun a ha => Nat.lt_irrefl _ (hdescends ha)

/-- A chapter that ends with a section about all of it. -/
def chapterPlan : List SectionPlan :=
  [⟨⟨"000000000000000000000000000000b1".toList, by decide, by decide⟩, 1, 1, "현황".toList, [], [],
      [], [], [], [], none, none⟩,
    ⟨⟨"000000000000000000000000000000b2".toList, by decide, by decide⟩, 1, 2, "전망".toList, [], [],
      [], [], [], ["1.1".toList], none, none⟩,
    ⟨⟨"000000000000000000000000000000b3".toList, by decide, by decide⟩, 1, 3, "시사점".toList, [], [],
      [], [], [], ["1.*".toList], none, none⟩]

theorem levels_and_batches_chapterPlan :
    (∃ levels warnings, assignLevels chapterPlan = some (levels, warnings) ∧
      ChainLevels chapterPlan levels warnings) ∧
    ∃ bs warnings, batches chapterPlan = some (bs, warnings) ∧ InBatches chapterPlan bs := by
  have hacyclic : Acyclic chapterPlan :=
    acyclic_of_rank (fun a => natOf (a.drop 2)) (by decide)
  exact ⟨(levels_and_batches chapterPlan).1 hacyclic, (levels_and_batches chapterPlan).2⟩

end RownRg.BuildsOn

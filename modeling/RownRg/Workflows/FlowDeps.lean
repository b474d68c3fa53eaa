import RownRg.Lib.Graph
import RownRg.Generation.DependencyGraph

/-! The flows of an approved design brief, merged into the references of the plan. -/

open PyText Relation RownRg.BuildsOn RownRg.Generation

namespace RownRg.Workflows

variable {plan : List SectionPlan} {flowDeps graph : List (Text × List Text)} {a b ref : Text}
  {i j k : Nat} {s t : SectionPlan} {r : BuildsOnRef}

def fillBuildsOn (graph : List (Text × List Text)) (s : SectionPlan) : SectionPlan :=
  match graph.lookup (labelOf s) with
  | none => s
  | some refs => if s.buildsOn.isEmpty then { s with buildsOn := refs } else s

/-- Fills the empty references from the flows; `none` where nothing changes. -/
def mergeFlowBuildsOn (plan : List SectionPlan) (flowDeps : List (Text × List Text)) :
    Option (List SectionPlan) :=
  if flowDeps.isEmpty || plan.isEmpty then none
  else
    let graph := sanitize plan flowDeps
    if graph.isEmpty then none
    else if plan.any fun s => (graph.lookup (labelOf s)).isSome && s.buildsOn.isEmpty then
      some (plan.map (fillBuildsOn graph))
    else none

/-- The plan that goes on: the merged one, or the old one where nothing changes. -/
def merged (plan : List SectionPlan) (flowDeps : List (Text × List Text)) : List SectionPlan :=
  (mergeFlowBuildsOn plan flowDeps).getD plan

/-- The references that the flows offer a label after cleaning. -/
def keptRefs (plan : List SectionPlan) (flowDeps : List (Text × List Text)) (label : Text) :
    List Text := ((sanitize plan flowDeps).lookup label).getD []

/-- What a label without references of its own gets from the flows. -/
def FlowDep (plan : List SectionPlan) (flowDeps : List (Text × List Text)) (a b : Text) : Prop :=
  refsOf plan a = [] ∧ b ∈ depsOf plan a (keptRefs plan flowDeps a)

def place (plan : List SectionPlan) (label : Text) : Nat := (position plan label).getD 0

theorem merged_eq : merged plan flowDeps = plan.map (fillBuildsOn (sanitize plan flowDeps)) := by
  have hsame : ∀ graph : List (Text × List Text),
      (∀ s ∈ plan, (graph.lookup (labelOf s)).isSome → s.buildsOn.isEmpty = false) →
      plan = plan.map (fillBuildsOn graph) := by
    intro graph h
    refine (List.map_id plan).symm.trans (List.map_congr_left fun s hs => ?_)
    unfold fillBuildsOn
    cases hlook : graph.lookup (labelOf s) with
    | none => rfl
    | some refs => simp [h s hs (by simp [hlook])]
  unfold merged mergeFlowBuildsOn
  split
  · rename_i hempty
    rcases Bool.or_eq_true_iff.mp hempty with hflow | hplan
    · rw [List.isEmpty_iff.mp hflow]
      exact hsame _ (by simp [sanitize])
    · simp [List.isEmpty_iff.mp hplan]
  · simp only
    split
    · rename_i hgraph
      rw [List.isEmpty_iff.mp hgraph]
      exact hsame _ (by simp)
    · split
      · rfl
      · rename_i hany
        refine hsame _ fun s hs hsome => ?_
        by_contra hempty
        exact hany (List.any_eq_true.mpr ⟨s, hs, by simpa [hsome] using hempty⟩)

@[simp] theorem labelOf_fill : labelOf (fillBuildsOn graph s) = labelOf s := by
  unfold fillBuildsOn
  split
  · rfl
  · split <;> rfl

theorem buildsOn_fill : (fillBuildsOn graph s).buildsOn =
    if s.buildsOn = [] then (graph.lookup (labelOf s)).getD [] else s.buildsOn := by
  unfold fillBuildsOn
  cases hs : s.buildsOn <;> cases hlook : graph.lookup (labelOf s) <;> simp [hs]

theorem fill_of_ne (h : s.buildsOn ≠ []) : fillBuildsOn graph s = s := by
  unfold fillBuildsOn
  split
  · rfl
  · simp [h]

theorem labelsOf_fill : labelsOf (plan.map (fillBuildsOn graph)) = labelsOf plan := by
  simp [labelsOf, Function.comp_def]

theorem lastFor_map {κ β : Type} [DecidableEq κ] {k : κ} (g : κ → β → β) (l : List (κ × β)) :
    lastFor k (l.map fun x => (x.1, g x.1 x.2)) = (lastFor k l).map (g k) := by
  unfold lastFor
  rw [← List.map_reverse]
  induction l.reverse with
  | nil => rfl
  | cons x l ih =>
    rcases x with ⟨k', b⟩
    by_cases hk : k = k'
    · subst hk
      simp
    · simp [List.lookup_cons, beq_false_of_ne hk, ih]

theorem refsOf_fill : refsOf (plan.map (fillBuildsOn (sanitize plan flowDeps))) a =
    if refsOf plan a = [] then keptRefs plan flowDeps a else refsOf plan a := by
  have hentries : (plan.map (fillBuildsOn (sanitize plan flowDeps))).map
      (fun s => (labelOf s, s.buildsOn)) = (plan.map fun s => (labelOf s, s.buildsOn)).map
        fun x => (x.1, if x.2 = [] then keptRefs plan flowDeps x.1 else x.2) := by
    simp [Function.comp_def, buildsOn_fill, keptRefs]
  have hmap := lastFor_map (k := a)
    (fun label refs => if refs = [] then keptRefs plan flowDeps label else refs)
    (plan.map fun s => (labelOf s, s.buildsOn))
  unfold refsOf
  rw [hentries, hmap]
  cases hlast : lastFor a (plan.map fun s => (labelOf s, s.buildsOn)) with
  | some refs => simp
  | none =>
    -- a label that the plan lacks gets nothing from the flows either
    have hkept : keptRefs plan flowDeps a = [] := by
      unfold keptRefs
      cases hlook : (sanitize plan flowDeps).lookup a with
      | none => rfl
      | some refs =>
        obtain ⟨l₁, l₂, hl, -⟩ := List.lookup_eq_some_iff.mp hlook
        obtain ⟨here, hhere, -⟩ := sanitize_spec
          (show (a, refs) ∈ sanitize plan flowDeps by rw [hl]; simp)
        obtain ⟨s, hs, hlabel⟩ := getElem?_lastFor hhere
        have hsome := lastFor_isSome (List.mem_map.mpr ⟨s, List.mem_of_getElem? hs, by rw [hlabel]⟩ :
          (a, s.buildsOn) ∈ plan.map fun s => (labelOf s, s.buildsOn))
        simp [hlast] at hsome
    simp [hkept]

/-- The merged graph is the old one and what the flows add. -/
theorem dependsOn_merged :
    BuildsOn.DependsOn (merged plan flowDeps) a b ↔ BuildsOn.DependsOn plan a b ∨ FlowDep plan flowDeps a b := by
  have hdeps : ∀ refs, depsOf (merged plan flowDeps) a refs = depsOf plan a refs := by
    intro refs
    unfold depsOf depLabels
    rw [merged_eq, labelsOf_fill]
  unfold BuildsOn.DependsOn FlowDep
  rw [hdeps, merged_eq, refsOf_fill]
  by_cases hrefs : refsOf plan a = []
  · simp [hrefs, depsOf, depLabels]
  · simp [hrefs]

theorem mem_keptRefs (h : ref ∈ keptRefs plan flowDeps a) :
    ∃ here, position plan a = some here ∧ allowed plan here a ref := by
  unfold keptRefs at h
  cases hlook : (sanitize plan flowDeps).lookup a with
  | none => simp [hlook] at h
  | some refs =>
    obtain ⟨l₁, l₂, hl, -⟩ := List.lookup_eq_some_iff.mp hlook
    obtain ⟨here, hhere, hall⟩ := sanitize_spec
          (show (a, refs) ∈ sanitize plan flowDeps by rw [hl]; simp)
    exact ⟨here, hhere, hall ref (by simpa [hlook] using h)⟩

/-- What the flows add leads backward in the plan. -/
theorem flowDep_backward (h : FlowDep plan flowDeps a b) : place plan b < place plan a := by
  obtain ⟨-, hb⟩ := h
  have hlabel := deps_subset plan a _ hb
  obtain ⟨t, ht, hbt⟩ := List.mem_map.mp hlabel
  obtain ⟨i, hi⟩ := List.getElem?_of_mem ht
  obtain ⟨j, hj, -⟩ := le_lastFor labelOf hi
  rw [hbt] at hj
  obtain ⟨u, hu, hbu⟩ := getElem?_lastFor hj
  have hdep := (List.mem_filter.mp (List.mem_eraseDups.mp hb)).1
  obtain ⟨ref, href, hmatch⟩ := List.mem_flatMap.mp (List.mem_filter.mp hdep).1
  obtain ⟨here, hhere, hallowed⟩ := mem_keptRefs href
  have hplace : place plan a = here ∧ place plan b = j := by
    have hposb : position plan b = some j := hj
    simp [place, hhere, hposb]
  rw [hplace.1, hplace.2]
  split at hmatch
  · simp at hmatch
  · rename_i chapter m hparse
    refine allowed_before hallowed hparse hu ⟨?_, by simp⟩
    have hchapter := (List.mem_filter.mp hmatch).2
    rw [← hbu, labelOf, splitOn_sectionLabel, List.headD_cons] at hchapter
    exact ofNat_injective (of_decide_eq_true (Bool.and_eq_true_iff.mp hchapter).2)
  · rename_i chapter n m hparse
    refine allowed_before hallowed hparse hu ?_
    rw [List.mem_singleton, ← hbu] at hmatch
    obtain ⟨hchapter, hn⟩ := sectionLabel_injective hmatch
    exact ⟨hchapter, by simpa using hn⟩

/-! What the merge keeps sound, and for which plans and flows. -/

/-- A plan that runs in order, and differs from the plan before only in what it adds: references
that can be read and that lead backward. -/
structure MergeSound (plan out : List SectionPlan) : Prop where
  acyclic : Acyclic out
  uncut : ∃ levels cuts, assignLevels out = some (levels, cuts) ∧ ∀ label, .cycle label ∉ cuts
  length : out.length = plan.length
  keeps : ∀ (i : Nat) (s t : SectionPlan), plan[i]? = some s → out[i]? = some t → s.buildsOn ≠ [] → t = s
  backward : ∀ (i : Nat) (s t : SectionPlan), plan[i]? = some s → out[i]? = some t → s.buildsOn = [] →
    ∀ ref ∈ t.buildsOn, ∃ r, parseRef ref = some r ∧ ∀ j u, plan[j]? = some u → Names r u → j < i

/-- The references that the flows give to a section without any. -/
def Given (plan : List SectionPlan) (flowDeps : List (Text × List Text)) (i : Nat) (ref : Text) :
    Prop := ∃ s, plan[i]? = some s ∧ s.buildsOn = [] ∧ ref ∈ keptRefs plan flowDeps (labelOf s)

/-- Plans and flows that merge soundly: no reference of the plan that leads forward closes a circle
with the flows, and every reference given is in the grammar and, where a later section has the same
label, behind the first of them too. -/
structure FlowsFit (plan : List SectionPlan) (flowDeps : List (Text × List Text)) : Prop where
  noCircle : ∀ a b, BuildsOn.DependsOn plan a b → place plan a ≤ place plan b →
    ¬ ReflTransGen (fun x y => BuildsOn.DependsOn plan x y ∨ FlowDep plan flowDeps x y) b a
  readable : ∀ i ref, Given plan flowDeps i ref → (parseRef ref).isSome
  first : ∀ i ref, Given plan flowDeps i ref → ∀ s, plan[i]? = some s →
    i < place plan (labelOf s) → ∀ r j u, parseRef ref = some r → plan[j]? = some u →
    Names r u → j < i

theorem place_of_getElem? (h : plan[i]? = some s) :
    position plan (labelOf s) = some (place plan (labelOf s)) ∧ i ≤ place plan (labelOf s) := by
  obtain ⟨n, hn, hle⟩ := le_lastFor labelOf h
  have hpos : position plan (labelOf s) = some n := hn
  simp [place, hpos, hle]

theorem getElem?_merged (h : plan[i]? = some s) :
    (merged plan flowDeps)[i]? = some (fillBuildsOn (sanitize plan flowDeps) s) := by
  simp [merged_eq, h]

theorem buildsOn_given (hs : plan[i]? = some s) (hempty : s.buildsOn = []) :
    ref ∈ (fillBuildsOn (sanitize plan flowDeps) s).buildsOn ↔ Given plan flowDeps i ref := by
  rw [buildsOn_fill, if_pos hempty]
  constructor
  · intro h
    exact ⟨s, hs, hempty, h⟩
  · rintro ⟨s', hs', -, h⟩
    obtain rfl := Option.some.inj (hs.symm.trans hs')
    exact h

theorem acyclic_merged : Acyclic (merged plan flowDeps) ↔ ∀ a, ¬ TransGen
    (fun x y => BuildsOn.DependsOn plan x y ∨ FlowDep plan flowDeps x y) a a := by
  have hgraph : BuildsOn.DependsOn (merged plan flowDeps) =
      fun x y => BuildsOn.DependsOn plan x y ∨ FlowDep plan flowDeps x y := by
    funext a b
    exact propext dependsOn_merged
  rw [Acyclic, hgraph]

theorem acyclic_merged_iff : Acyclic (merged plan flowDeps) ↔
    ∀ a b, BuildsOn.DependsOn plan a b → place plan a ≤ place plan b →
      ¬ ReflTransGen (fun x y => BuildsOn.DependsOn plan x y ∨ FlowDep plan flowDeps x y) b a := by
  rw [acyclic_merged]
  exact RankedGraph.acyclic_iff (place plan) (fun _ _ => .inl)
    fun _ _ h => h.imp_right flowDep_backward

/-- Two sections, the first of which waits for the second by hand. -/
def forwardPlan : List SectionPlan :=
  [⟨⟨"000000000000000000000000000000a1".toList, by decide, by decide⟩, 1, 1, "전망".toList, [], [],
      [], [], [], ["1.2".toList], none, none⟩,
    ⟨⟨"000000000000000000000000000000a2".toList, by decide, by decide⟩, 1, 2, "현황".toList, [], [],
      [], [], [], [], none, none⟩]

theorem refsOf_forwardPlan (ha : a ≠ "1.1".toList) : refsOf forwardPlan a = [] := by
  have hentries : (forwardPlan.map fun s => (labelOf s, s.buildsOn)) =
      [("1.1".toList, ["1.2".toList]), ("1.2".toList, [])] := by decide
  unfold refsOf
  cases hlast : lastFor a (forwardPlan.map fun s => (labelOf s, s.buildsOn)) with
  | none => rfl
  | some refs =>
    have hmem := mem_of_lastFor hlast
    rw [hentries] at hmem
    simp_all

theorem acyclic_forwardPlan : Acyclic forwardPlan := by
  have hdescends : ∀ x y, BuildsOn.DependsOn forwardPlan x y → False ∨
      (if y = "1.1".toList then 1 else 0) < (if x = "1.1".toList then 1 else 0) := by
    intro x y hxy
    by_cases hx : x = "1.1".toList
    · subst hx
      have hdeps : depsOf forwardPlan "1.1".toList (refsOf forwardPlan "1.1".toList) =
          ["1.2".toList] := by decide
      rw [BuildsOn.DependsOn, hdeps, List.mem_singleton] at hxy
      subst hxy
      decide
    · rw [BuildsOn.DependsOn, refsOf_forwardPlan hx] at hxy
      simp [depsOf, depLabels] at hxy
  exact (RankedGraph.acyclic_iff _ (F := fun _ _ => False) (fun _ _ => False.elim) hdescends).mpr
    fun _ _ h => h.elim

end RownRg.Workflows

import RownRg.Lib.Dedup
import RownRg.Workflows.WorkingCopy

/-! Which drafts reach the assembly once the stored rows are laid over them. -/

open PyText

namespace RownRg.Workflows

variable {ι : Type} [DecidableEq ι] {uuid4 : ι → ι} {working : List (ι × Text × List ι)}
  {s : ProjectState ι} {o : Overlay ι} {id x : ι} {content : Text} {cited : List ι}
  {sets : List (SectionCandidateSet ι)} {α : Type} {l l₁ l₂ : List (ι × α)} {plan : List ι}

/-- The row that wins over the candidates of a section: blank ones do not. -/
def writtenRow (working : List (ι × Text × List ι)) (id : ι) : Option (Text × List ι) :=
  (lastFor id working).filter fun row => !(strip row.1).isEmpty

/-- The set a section id stands for. -/
def setFor (id : ι) (sets : List (SectionCandidateSet ι)) : Option (SectionCandidateSet ι) :=
  lastFor id (sets.map fun cs => (cs.sectionId, cs))

/-- The candidate that a selection names. -/
def chosenIn (cset : Option (SectionCandidateSet ι)) (chosen : Option ι) :
    Option (SectionDraft ι) :=
  chosen.bind fun chosen => cset.bind fun cset =>
    (cset.candidates.find? fun cand => cand.candidateId = chosen).map (·.draft)

/-- What reaches the assembly of one section. -/
def selectedDraft (s : ProjectState ι) (id : ι) : Option (SectionDraft ι) :=
  chosenIn (setFor id s.sectionCandidates) (lastFor id s.sectionSelections)

theorem selectedDrafts_eq : s.selectedDrafts = s.sectionPlan.filterMap (selectedDraft s) := by
  unfold ProjectState.selectedDrafts
  refine List.filterMap_congr fun id _ => ?_
  unfold selectedDraft chosenIn setFor
  cases lastFor id s.sectionSelections with
  | none => rfl
  | some chosen =>
    cases lastFor id (s.sectionCandidates.map fun cs => (cs.sectionId, cs)) <;> rfl

/-! The pass over the plan, seen from one section. -/

/-- What the pass holds of a section: its set as long as it is unvisited, the set it was given,
and its selection. -/
structure View (ι : Type) where
  unvisited : Option (SectionCandidateSet ι)
  placed : Option (SectionCandidateSet ι)
  chosen : Option ι

def Overlay.view (o : Overlay ι) (id : ι) : View ι where
  unvisited := lastFor id o.bySec
  placed := setFor id o.newSets
  chosen := lastFor id o.updated.sectionSelections

/-- One visit of the section. -/
def View.visit (uuid4 : ι → ι) (id : ι) (row : Option (Text × List ι)) (v : View ι) : View ι :=
  match row with
  | none => { v with unvisited := none, placed := v.unvisited.or v.placed }
  | some (content, cited) =>
    let placed := overlaySet uuid4 id content cited v.unvisited
    { unvisited := none, placed := some placed.1, chosen := placed.2.or v.chosen }

theorem overlaySection_of_none (h : writtenRow working x = none) :
    overlaySection uuid4 working o x = { o with
      bySec := o.bySec.filter fun y => y.1 ≠ x
      newSets := o.newSets ++ (lastFor x o.bySec).toList } := by
  unfold overlaySection
  split
  · rfl
  · rename_i content cited hrow
    have hblank : (strip content).isEmpty = true := by
      simpa [writtenRow, hrow, Option.filter] using h
    rw [if_pos hblank]

theorem overlaySection_of_some (h : writtenRow working x = some (content, cited)) :
    overlaySection uuid4 working o x =
      let placed := overlaySet uuid4 x content cited (lastFor x o.bySec)
      { bySec := o.bySec.filter fun y => y.1 ≠ x
        newSets := o.newSets ++ [placed.1]
        updated := placed.2.elim o.updated (recordSelection o.updated x) } := by
  obtain ⟨hrow, hne⟩ := Option.mem_filter_iff.mp h
  rw [Option.mem_def] at hrow
  simp only [Bool.not_eq_true'] at hne
  simp only [overlaySection, hrow, hne, Bool.false_eq_true, if_false]

theorem lastFor_recordSelection {chosen : Option ι} (s : ProjectState ι) (x id : ι) :
    lastFor id (chosen.elim s (recordSelection s x)).sectionSelections =
      if x = id then chosen.or (lastFor id s.sectionSelections)
      else lastFor id s.sectionSelections := by
  cases chosen with
  | none => simp
  | some c =>
    by_cases hx : x = id
    · subst hx
      simp [recordSelection, lastFor_append_self]
    · rw [if_neg hx]
      exact lastFor_append_of_forall_ne (by simpa using hx)

theorem setFor_append {cset : Option (SectionCandidateSet ι)}
    (h : ∀ cs ∈ cset, cs.sectionId = x) :
    setFor id (sets ++ cset.toList) = if x = id then cset.or (setFor id sets) else setFor id sets := by
  unfold setFor
  cases cset with
  | none => simp
  | some cs =>
    have hcs := h cs rfl
    by_cases hx : x = id
    · subst hx
      simp [hcs, lastFor_append_self]
    · rw [if_neg hx, List.map_append]
      exact lastFor_append_of_forall_ne (by simpa [hcs] using hx)

/-- A visit matters to the section that is visited. -/
theorem view_overlaySection (hf : Filed o) (id x : ι) :
    (overlaySection uuid4 working o x).view id =
      if x = id then (o.view id).visit uuid4 id (writtenRow working id) else o.view id := by
  have hid : ∀ cs ∈ lastFor x o.bySec, cs.sectionId = x := fun cs hcs => filed_lastFor hf hcs
  have hleft : lastFor id (o.bySec.filter fun y => y.1 ≠ x) =
      if x = id then none else lastFor id o.bySec := by
    by_cases hx : x = id
    · subst hx
      rw [if_pos rfl, lastFor_filter_self]
    · rw [if_neg hx, lastFor_filter_ne (Ne.symm hx)]
  cases hrow : writtenRow working x with
  | none =>
    rw [overlaySection_of_none hrow]
    simp only [Overlay.view, hleft, setFor_append hid]
    by_cases hx : x = id
    · subst hx
      simp [View.visit, hrow]
    · simp [hx]
  | some row =>
    obtain ⟨content, cited⟩ := row
    have hplaced := (overlaySet_spec uuid4 content cited hid).1
    rw [overlaySection_of_some hrow]
    simp only [Overlay.view, hleft, lastFor_recordSelection]
    have happ : setFor id (o.newSets ++
          (some (overlaySet uuid4 x content cited (lastFor x o.bySec)).1).toList) =
        if x = id then some (overlaySet uuid4 x content cited (lastFor x o.bySec)).1
        else setFor id o.newSets := setFor_append (by rintro cs ⟨⟩; exact hplaced)
    rw [Option.toList_some] at happ
    rw [happ]
    by_cases hx : x = id
    · subst hx
      simp [View.visit, hrow]
    · simp [hx]

theorem filed_overlaySection (hf : Filed o) : Filed (overlaySection uuid4 working o x) := by
  intro y hy
  rw [bySec_overlaySection] at hy
  exact hf y (List.mem_of_mem_filter hy)

/-- The pass over the plan visits a section as often as the plan lists it. -/
theorem view_foldl (hf : Filed o) (plan : List ι) (id : ι) :
    (plan.foldl (overlaySection uuid4 working) o).view id =
      (View.visit uuid4 id (writtenRow working id))^[plan.count id] (o.view id) := by
  induction plan generalizing o with
  | nil => rfl
  | cons x plan ih =>
    rw [List.foldl_cons, ih (filed_overlaySection hf), view_overlaySection hf]
    by_cases hx : x = id
    · subst hx
      rw [if_pos rfl, List.count_cons_self, Function.iterate_succ_apply]
    · rw [if_neg hx, List.count_cons_of_ne hx]

/-- The entries that ids have, each under its id. -/
def keyed (f : ι → Option α) (ids : List ι) : List (ι × α) :=
  ids.filterMap fun id => (f id).map (id, ·)

omit [DecidableEq ι] in
theorem map_fst_keyed {f : ι → Option α} (ids : List ι) :
    (keyed f ids).map Prod.fst = ids.filter fun id => (f id).isSome := by
  induction ids with
  | nil => rfl
  | cons x ids ih =>
    unfold keyed at ih ⊢
    cases h : f x with
    | none => simpa [h] using ih
    | some a => simpa [h] using ih

theorem filter_keyed {f : ι → Option α} (ids : List ι) :
    (keyed f ids).filter (fun y => y.1 = id) =
      (f id).elim [] fun a => List.replicate (ids.count id) (id, a) := by
  induction ids with
  | nil => cases f id <;> rfl
  | cons x ids ih =>
    unfold keyed at ih ⊢
    by_cases hx : x = id
    · subst hx
      cases h : f x with
      | none => simpa [h] using ih
      | some a => simpa [h, List.replicate_succ] using ih
    · cases h : f x with
      | none => simpa [h, hx] using ih
      | some a => simpa [h, hx] using ih

theorem setFor_isSome_mem {cs : SectionCandidateSet ι} (h : setFor id sets = some cs) :
    id ∈ sets.map (·.sectionId) := by
  obtain ⟨cs', hcs, heq⟩ := List.mem_map.mp (mem_of_lastFor h)
  exact List.mem_map.mpr ⟨cs', hcs, (Prod.mk.inj heq).1⟩

theorem lastFor_setsBySection : lastFor id (setsBySection sets) = setFor id sets := by
  have hkeyed : setsBySection sets = keyed (setFor · sets) (sets.map (·.sectionId)).eraseDups := rfl
  have hkeys : ((setsBySection sets).map Prod.fst).Nodup := by
    rw [hkeyed, map_fst_keyed]
    exact (FirstSeen.nodup _).filter _
  refine Option.ext fun cs => ?_
  rw [lastFor_eq_some hkeys, hkeyed, keyed, List.mem_filterMap]
  constructor
  · rintro ⟨x, -, hx⟩
    obtain ⟨cs', hcs, heq⟩ := Option.map_eq_some_iff.mp hx
    obtain ⟨rfl, rfl⟩ := Prod.mk.inj heq
    exact hcs
  · intro h
    exact ⟨id, List.mem_eraseDups.mpr (setFor_isSome_mem h), by simp [h]⟩

/-- How a section stands once the rows lie over the candidates. -/
def overlaidView (uuid4 : ι → ι) (s : ProjectState ι) (working : List (ι × Text × List ι))
    (id : ι) : View ι :=
  (View.visit uuid4 id (writtenRow working id))^[s.sectionPlan.count id]
    ⟨setFor id s.sectionCandidates, none, lastFor id s.sectionSelections⟩

omit [DecidableEq ι] in
theorem unvisited_visit {row : Option (Text × List ι)} (v : View ι) :
    (v.visit uuid4 id row).unvisited = none := by
  unfold View.visit
  split <;> rfl

theorem unvisited_overlaidView (h : id ∈ s.sectionPlan) :
    (overlaidView uuid4 s working id).unvisited = none := by
  unfold overlaidView
  obtain ⟨n, hn⟩ := Nat.exists_eq_add_one.mpr (List.count_pos_iff.mpr h)
  rw [hn, Function.iterate_succ_apply']
  exact unvisited_visit _

theorem overlayWorkingCopy_plan :
    (overlayWorkingCopy uuid4 s working).sectionPlan = s.sectionPlan := by
  have hfold : ∀ (plan : List ι) (o : Overlay ι),
      (plan.foldl (overlaySection uuid4 working) o).updated.sectionPlan =
        o.updated.sectionPlan := by
    intro plan
    induction plan with
    | nil => exact fun _ => rfl
    | cons x plan ih =>
      intro o
      rw [List.foldl_cons, ih]
      cases hrow : writtenRow working x with
      | none => rw [overlaySection_of_none hrow]
      | some row =>
        obtain ⟨content, cited⟩ := row
        rw [overlaySection_of_some hrow]
        cases h : (overlaySet uuid4 x content cited (lastFor x o.bySec)).2 with
        | none => simp [h]
        | some c => simp [h, recordSelection]
  unfold overlayWorkingCopy
  split
  · rfl
  · exact hfold ..

/-- A planned section after the overlay. -/
theorem overlay_view (h : id ∈ s.sectionPlan) :
    setFor id (overlayWorkingCopy uuid4 s working).sectionCandidates =
        (overlaidView uuid4 s working id).placed ∧
      lastFor id (overlayWorkingCopy uuid4 s working).sectionSelections =
        (overlaidView uuid4 s working id).chosen := by
  unfold overlayWorkingCopy
  split
  · rename_i hempty
    obtain ⟨hworking, hsets⟩ : working = [] ∧ s.sectionCandidates = [] := by simpa using hempty
    have hfix : overlaidView uuid4 s working id =
        ⟨none, none, lastFor id s.sectionSelections⟩ := by
      unfold overlaidView
      rw [hworking, hsets]
      exact Function.iterate_fixed rfl _
    rw [hfix, hsets]
    exact ⟨rfl, rfl⟩
  · have hstart : Filed (⟨setsBySection s.sectionCandidates, [], s⟩ : Overlay ι) :=
      filed_setsBySection _
    have hfiled : Filed (s.sectionPlan.foldl (overlaySection uuid4 working)
        ⟨setsBySection s.sectionCandidates, [], s⟩) :=
      (overlay_plan uuid4 s.sectionPlan hstart (by simp)).1
    have hview : (s.sectionPlan.foldl (overlaySection uuid4 working)
        ⟨setsBySection s.sectionCandidates, [], s⟩).view id = overlaidView uuid4 s working id := by
      rw [view_foldl hstart, overlaidView, Overlay.view, lastFor_setsBySection]
      rfl
    generalize s.sectionPlan.foldl (overlaySection uuid4 working)
      ⟨setsBySection s.sectionCandidates, [], s⟩ = o at hfiled hview
    have hleft : setFor id (o.bySec.map (·.2)) = none := by
      have hback : (o.bySec.map (·.2)).map (fun cs => (cs.sectionId, cs)) = o.bySec := by
        rw [List.map_map]
        calc o.bySec.map ((fun cs => (cs.sectionId, cs)) ∘ (·.2))
            = o.bySec.map fun y => y := List.map_congr_left fun y hy => Prod.ext (hfiled y hy) rfl
          _ = o.bySec := List.map_id' _
      rw [setFor, hback]
      exact (congrArg View.unvisited hview).trans (unvisited_overlaidView h)
    have hset : setFor id (o.newSets ++ o.bySec.map (·.2)) = setFor id o.newSets := by
      unfold setFor at hleft ⊢
      rw [List.map_append, lastFor_append, hleft, Option.none_or]
    rw [← hview]
    exact ⟨hset, rfl⟩

theorem selectedDraft_overlay (h : id ∈ s.sectionPlan) :
    selectedDraft (overlayWorkingCopy uuid4 s working) id =
      chosenIn (overlaidView uuid4 s working id).placed
        (overlaidView uuid4 s working id).chosen := by
  rw [selectedDraft, (overlay_view h).1, (overlay_view h).2]

/-- A section without a written row is selected as before. -/
theorem selectedDraft_overlay_none (h : id ∈ s.sectionPlan) (hrow : writtenRow working id = none) :
    selectedDraft (overlayWorkingCopy uuid4 s working) id = selectedDraft s id := by
  obtain ⟨n, hn⟩ := Nat.exists_eq_add_one.mpr (List.count_pos_iff.mpr h)
  have hview : overlaidView uuid4 s working id =
      ⟨none, setFor id s.sectionCandidates, lastFor id s.sectionSelections⟩ := by
    rw [overlaidView, hn, hrow, Function.iterate_succ_apply]
    simp only [View.visit, Option.or_none]
    exact Function.iterate_fixed rfl _
  rw [selectedDraft_overlay h, hview]
  rfl

/-- The draft of a section that has only its row. -/
def freshDraft (id : ι) (content : Text) (cited : List ι) : SectionDraft ι :=
  ⟨id, content, cited, [], false, false⟩

/-- The section has candidates, if selected or not. -/
def HasCandidates (s : ProjectState ι) (id : ι) : Prop :=
  ∃ cs ∈ setFor id s.sectionCandidates, cs.candidates ≠ []

/-- The selection of the section names one of its candidates. -/
def NamesCandidate (s : ProjectState ι) (id : ι) : Prop :=
  ∃ chosen ∈ lastFor id s.sectionSelections, ∃ cs ∈ setFor id s.sectionCandidates,
    ∃ cand ∈ cs.candidates, cand.candidateId = chosen

theorem selectedDraft_isSome : (selectedDraft s id).isSome ↔ NamesCandidate s id := by
  unfold selectedDraft NamesCandidate chosenIn
  cases lastFor id s.sectionSelections with
  | none => simp
  | some chosen =>
    cases setFor id s.sectionCandidates with
    | none => simp
    | some cs =>
      simp only [Option.bind_some, Option.isSome_map, List.find?_isSome, decide_eq_true_eq,
        Option.mem_def, Option.some.injEq, exists_eq_left']

omit [DecidableEq ι] in
theorem chosenIn_withContent [DecidableEq ι] {chosen : Option ι} {cs : SectionCandidateSet ι} :
    chosenIn (some ⟨cs.sectionId, cs.candidates.map fun c =>
        { c with draft := withContent c.draft content cited }⟩) chosen =
      (chosenIn (some cs) chosen).map (withContent · content cited) := by
  unfold chosenIn
  cases chosen with
  | none => rfl
  | some chosen =>
    simp only [Option.bind_some, List.find?_map, Option.map_map]
    rfl

/-- A section with a written row after one visit, and after more of them. -/
theorem overlaidView_some (h : id ∈ s.sectionPlan)
    (hrow : writtenRow working id = some (content, cited)) :
    overlaidView uuid4 s working id =
      let placed := overlaySet uuid4 id content cited
        (if s.sectionPlan.count id = 1 then setFor id s.sectionCandidates else none)
      ⟨none, some placed.1, placed.2.or (lastFor id s.sectionSelections)⟩ := by
  obtain ⟨n, hn⟩ := Nat.exists_eq_add_one.mpr (List.count_pos_iff.mpr h)
  rw [overlaidView, hn, hrow]
  cases n with
  | zero => simp [View.visit]
  | succ n =>
    rw [if_neg (by omega), Function.iterate_succ_apply']
    have hun : ((View.visit uuid4 id (some (content, cited)))^[n + 1]
        ⟨setFor id s.sectionCandidates, none, lastFor id s.sectionSelections⟩).unvisited = none := by
      rw [Function.iterate_succ_apply']
      exact unvisited_visit _
    generalize (View.visit uuid4 id (some (content, cited)))^[n + 1] _ = v at hun
    simp [View.visit, hun, overlaySet]

omit [DecidableEq ι] in
theorem overlaySet_of_candidates {cs : SectionCandidateSet ι} (h : cs.candidates ≠ []) :
    overlaySet uuid4 id content cited (some cs) =
      (⟨cs.sectionId, cs.candidates.map fun c =>
        { c with draft := withContent c.draft content cited }⟩, none) := by
  obtain ⟨csetId, candidates⟩ := cs
  cases candidates with
  | nil => exact absurd rfl h
  | cons c cs => rfl

omit [DecidableEq ι] in
theorem overlaySet_of_none {cset : Option (SectionCandidateSet ι)}
    (h : ∀ cs ∈ cset, cs.candidates = []) :
    overlaySet uuid4 id content cited cset =
      (⟨id, [⟨uuid4 id, freshDraft id content cited⟩]⟩, some (uuid4 id)) := by
  cases cset with
  | none => rfl
  | some cs =>
    obtain ⟨csetId, candidates⟩ := cs
    obtain rfl : candidates = [] := h _ rfl
    rfl

/-- The candidates of a section carry its written row, selected or not. -/
theorem selectedDraft_overlay_candidates (h : s.sectionPlan.count id = 1)
    (hcand : HasCandidates s id) (hrow : writtenRow working id = some (content, cited)) :
    selectedDraft (overlayWorkingCopy uuid4 s working) id =
      (selectedDraft s id).map (withContent · content cited) := by
  have hmem : id ∈ s.sectionPlan := List.count_pos_iff.mp (by omega)
  obtain ⟨cs, hcs, hne⟩ := hcand
  rw [Option.mem_def] at hcs
  rw [selectedDraft_overlay hmem, overlaidView_some hmem hrow, selectedDraft, hcs]
  simp only [if_pos h, overlaySet_of_candidates hne, Option.none_or]
  exact chosenIn_withContent

/-- A written row without candidates stands alone. -/
theorem selectedDraft_overlay_fresh (h : id ∈ s.sectionPlan)
    (hrow : writtenRow working id = some (content, cited))
    (hcand : s.sectionPlan.count id = 1 → ¬ HasCandidates s id) :
    selectedDraft (overlayWorkingCopy uuid4 s working) id =
      some (freshDraft id content cited) := by
  have hnone : ∀ cs ∈ (if s.sectionPlan.count id = 1 then setFor id s.sectionCandidates else none),
      cs.candidates = [] := by
    intro cs hcs
    split at hcs
    · by_contra hne
      exact hcand ‹_› ⟨cs, hcs, hne⟩
    · cases hcs
  rw [selectedDraft_overlay h, overlaidView_some h hrow]
  simp only [overlaySet_of_none hnone]
  simp [chosenIn]

/-- With a written row a section has candidates after the overlay. -/
theorem hasCandidates_overlay (h : id ∈ s.sectionPlan)
    (hrow : writtenRow working id = some (content, cited)) :
    HasCandidates (overlayWorkingCopy uuid4 s working) id := by
  unfold HasCandidates
  rw [(overlay_view h).1, overlaidView_some h hrow]
  refine ⟨_, rfl, ?_⟩
  unfold overlaySet
  split <;> simp

/-- The written row has its place in the report: once, and as it stands. -/
structure RowsWin (uuid4 : ι → ι) (s : ProjectState ι) (working : List (ι × Text × List ι)) :
    Prop where
  written : ∀ id ∈ s.sectionPlan, ∀ content cited, writtenRow working id = some (content, cited) →
    ∃ d, (keyed (selectedDraft (overlayWorkingCopy uuid4 s working)) s.sectionPlan).filter
        (fun y => y.1 = id) = [(id, d)] ∧ d.content = content ∧ d.citedChunkIds = cited
  others : ∀ id ∈ s.sectionPlan, writtenRow working id = none →
    selectedDraft (overlayWorkingCopy uuid4 s working) id = selectedDraft s id
  again : ∀ uuid4' : ι → ι,
    (overlayWorkingCopy uuid4' (overlayWorkingCopy uuid4 s working) working).selectedDrafts =
      (overlayWorkingCopy uuid4 s working).selectedDrafts

theorem selectedDraft_again {uuid4' : ι → ι} (h : id ∈ s.sectionPlan) :
    selectedDraft (overlayWorkingCopy uuid4' (overlayWorkingCopy uuid4 s working) working) id =
      selectedDraft (overlayWorkingCopy uuid4 s working) id := by
  have hplan : (overlayWorkingCopy uuid4 s working).sectionPlan = s.sectionPlan :=
    overlayWorkingCopy_plan
  have h' : id ∈ (overlayWorkingCopy uuid4 s working).sectionPlan := hplan ▸ h
  cases hrow : writtenRow working id with
  | none => exact selectedDraft_overlay_none h' hrow
  | some row =>
    obtain ⟨content, cited⟩ := row
    by_cases hc : s.sectionPlan.count id = 1
    · rw [selectedDraft_overlay_candidates (hplan ▸ hc) (hasCandidates_overlay h hrow) hrow]
      by_cases hcand : HasCandidates s id
      · rw [selectedDraft_overlay_candidates hc hcand hrow, Option.map_map]
        rfl
      · rw [selectedDraft_overlay_fresh h hrow fun _ => hcand]
        rfl
    · rw [selectedDraft_overlay_fresh h' hrow fun hc' => absurd (hplan ▸ hc') hc,
        selectedDraft_overlay_fresh h hrow fun hc' => absurd hc' hc]

theorem selectedDrafts_again (uuid4' : ι → ι) :
    (overlayWorkingCopy uuid4' (overlayWorkingCopy uuid4 s working) working).selectedDrafts =
      (overlayWorkingCopy uuid4 s working).selectedDrafts := by
  rw [selectedDrafts_eq, selectedDrafts_eq, overlayWorkingCopy_plan, overlayWorkingCopy_plan]
  exact List.filterMap_congr fun id h => selectedDraft_again h

/-- The rows win exactly where each written row is planned once and the candidates of its section,
if there are any, have one that is selected. -/
theorem rowsWin_iff : RowsWin uuid4 s working ↔
    ∀ id ∈ s.sectionPlan, (writtenRow working id).isSome →
      s.sectionPlan.count id = 1 ∧ (HasCandidates s id → NamesCandidate s id) := by
  constructor
  · intro h id hid hrow
    obtain ⟨⟨content, cited⟩, hrow⟩ := Option.isSome_iff_exists.mp hrow
    obtain ⟨d, hd, -⟩ := h.written id hid content cited hrow
    rw [filter_keyed] at hd
    cases hsel : selectedDraft (overlayWorkingCopy uuid4 s working) id with
    | none => simp [hsel] at hd
    | some d' =>
      have hc : s.sectionPlan.count id = 1 := by
        have := congrArg List.length hd
        simpa [hsel] using this
      refine ⟨hc, fun hcand => selectedDraft_isSome.1 ?_⟩
      rw [selectedDraft_overlay_candidates hc hcand hrow] at hsel
      obtain ⟨d₀, hd₀, -⟩ := Option.map_eq_some_iff.mp hsel
      simp [hd₀]
  · intro h
    refine ⟨fun id hid content cited hrow => ?_, fun id => selectedDraft_overlay_none,
      selectedDrafts_again⟩
    obtain ⟨hc, hnames⟩ := h id hid (by simp [hrow])
    have hsel : ∃ d, selectedDraft (overlayWorkingCopy uuid4 s working) id = some d ∧
        d.content = content ∧ d.citedChunkIds = cited := by
      by_cases hcand : HasCandidates s id
      · obtain ⟨d, hd⟩ := Option.isSome_iff_exists.mp (selectedDraft_isSome.2 (hnames hcand))
        rw [selectedDraft_overlay_candidates hc hcand hrow, hd]
        exact ⟨_, rfl, rfl, rfl⟩
      · exact ⟨_, selectedDraft_overlay_fresh hid hrow fun _ => hcand, rfl, rfl⟩
    obtain ⟨d, hd, hcontent, hcited⟩ := hsel
    refine ⟨d, ?_, hcontent, hcited⟩
    rw [filter_keyed, hd, hc]
    rfl

/-- A section whose candidates were all excluded loses the text a human wrote for it. -/
theorem not_rowsWin_excluded : ¬ ∀ (uuid4 : Nat → Nat) (s : ProjectState Nat)
    (working : List (Nat × Text × List Nat)), RowsWin uuid4 s working := by
  intro h
  obtain ⟨d, hd, -⟩ := (h (fun _ => 9)
    ⟨[1], [⟨1, [⟨5, ⟨1, "초안".toList, [], [], false, false⟩⟩]⟩], [], []⟩
    [(1, "고친 본문".toList, [])]).written 1 (by simp) "고친 본문".toList [] (by decide)
  have hnone : selectedDraft (overlayWorkingCopy (fun _ : Nat => 9)
      ⟨[1], [⟨1, [⟨5, ⟨1, "초안".toList, [], [], false, false⟩⟩]⟩], [], []⟩
      [(1, "고친 본문".toList, [])]) 1 = none := by decide
  rw [filter_keyed, hnone] at hd
  cases hd

end RownRg.Workflows

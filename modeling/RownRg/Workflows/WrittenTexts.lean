import RownRg.Lib.Runs
import RownRg.Sections.Versions
import RownRg.Workflows.KeptRows

/-! Whether a text that was stored before a run is still there behind it. -/

open PyText RownRg.Sections RownRg.Workflows

namespace RownRg.WriteRun

variable {δ η : Type} [DecidableEq η] {env : Env δ} {plan : List SectionPlan} {p : SectionPlan}
  {rows : List (SectionRow δ)} {r r' : SectionRow δ} {t t' : SectionTable δ} {s : RunState}
  {versions : List (ReportVersion Uuid η)} {id : Uuid} {content : Text}
  {contentByRef : List (Text × Text)}

/-- The versions of a report; each snapshot leaves no more than the recent small ones. -/
structure Versions (η : Type) where
  list : List (ReportVersion Uuid η)
  recent : (list.filter isChurn).length ≤ keepRecentChurn

/-- What a version keeps of a row. -/
def frozenRow (r : SectionRow δ) : Section Uuid :=
  ⟨r.id, r.chapterNumber, r.sectionNumber, r.content, r.sourceIds, .empty, r.locked,
    r.status = .completed⟩

omit [DecidableEq η] in
theorem recent_pruneVersions (versions : List (ReportVersion Uuid η)) :
    ((pruneVersions versions).filter isChurn).length ≤ keepRecentChurn := by
  have hsub : ((pruneVersions versions).filter isChurn).Sublist
      ((versions.filter isChurn).take keepRecentChurn) := by
    unfold pruneVersions
    rw [List.filter_comm]
    generalize versions.filter isChurn = churn
    have hsplit := List.take_append_drop keepRecentChurn churn
    generalize churn.take keepRecentChurn = kept at hsplit
    generalize churn.drop keepRecentChurn = doomed at hsplit
    subst hsplit
    rw [List.filter_append]
    have hnone : doomed.filter (fun v => v.versionNo ∉ doomed.map (·.versionNo)) = [] := by
      refine List.filter_eq_nil_iff.mpr fun v hv => ?_
      simpa using ⟨v, hv, rfl⟩
    rw [hnone, List.append_nil]
    exact List.filter_sublist
  exact hsub.length_le.trans (List.length_take_le ..)

/-- Nothing goes where a version is added that is no small one. -/
theorem snapshotReport_assemble (digest : List (SectionSnap Uuid) → η) (rows : List (Section Uuid))
    (h : (versions.filter isChurn).length ≤ keepRecentChurn) :
    versions ⊆ (snapshotReport digest "assemble".toList rows versions).2 ∧
      ((snapshotReport digest "assemble".toList rows versions).2.filter isChurn).length ≤
        keepRecentChurn := by
  have hprune : ∀ v : ReportVersion Uuid η, v.reason = "assemble".toList →
      pruneVersions (v :: versions) = v :: versions := by
    intro v hv
    have hchurn : isChurn v = false := by
      rw [isChurn, hv]
      decide
    have hdoomed : ((v :: versions).filter isChurn).drop keepRecentChurn = [] := by
      rw [List.filter_cons_of_neg (by simp [hchurn])]
      exact List.drop_eq_nil_of_le h
    unfold pruneVersions
    simp only [hdoomed, List.map_nil]
    simp
  have hcons : ∀ v : ReportVersion Uuid η, v.reason = "assemble".toList →
      versions ⊆ pruneVersions (v :: versions) := by
    intro v hv
    rw [hprune v hv]
    exact List.subset_cons_self _ _
  unfold snapshotReport
  simp only
  split
  · exact ⟨List.Subset.refl _, h⟩
  · split
    · rename_i hnil
      obtain rfl := List.head?_eq_none_iff.mp hnil
      exact ⟨List.nil_subset _, recent_pruneVersions _⟩
    · split
      · exact ⟨List.Subset.refl _, h⟩
      · exact ⟨hcons _ rfl, recent_pruneVersions _⟩

def Versions.snapshot (digest : List (SectionSnap Uuid) → η) (rows : List (SectionRow δ))
    (v : Versions η) : Versions η where
  list := (snapshotReport digest "assemble".toList (rows.map frozenRow) v.list).2
  recent := (snapshotReport_assemble digest _ v.recent).2

/-- How far a run has come; the write stage knows the sections that it is to write. -/
inductive Stage where
  | idle
  | writing (sections : List SectionPlan)
  | assembled
  | frozen

structure Life (δ η : Type) where
  table : SectionTable δ
  versions : Versions η
  stage : Stage

/-- What the assembly is given, and the texts that the rewriting of repeated paragraphs gives. -/
structure Assembly where
  candidates : OwnSets
  selections : List (Uuid × Uuid)
  records : List (Uuid × RowMeta)
  contentByRef : List (Text × Text)

inductive Event where
  | start
  | draft (call : DraftCall)
  | assemble (a : Assembly)
  | snapshot

def Assembly.state (plan : List SectionPlan) (a : Assembly) : RunState :=
  ⟨plan, a.candidates.sets, a.selections, a.records⟩

/-- One step of a run; it may come to the assembly with or without a write stage. -/
def step (env : Env δ) (digest : List (SectionSnap Uuid) → η) (plan : List SectionPlan)
    (life : Life δ η) : Event → Option (Life δ η)
  | .start =>
    match life.stage with
    | .idle => some { life with
        table := cleaned plan life.table
        stage := .writing (remaining plan life.table.rows) }
    | _ => none
  | .draft call =>
    match life.stage with
    | .writing sections =>
      if call.plan ∈ sections then
        some { life with table := persistDraftSection env sections call life.table }
      else none
    | _ => none
  | .assemble a =>
    match life.stage with
    | .idle | .writing _ =>
      let s := assembled env life.table.rows (a.state plan)
      (persistSections env (compress a.contentByRef s) life.table).map fun table =>
        { life with table, stage := .assembled }
    | _ => none
  | .snapshot =>
    match life.stage with
    | .assembled => some { life with
        versions := life.versions.snapshot digest life.table.rows
        stage := .frozen }
    | _ => none

def Frozen (life : Life δ η) (content : Text) : Prop :=
  ∃ v ∈ life.versions.list, ∃ part ∈ v.sections, part.content = content

/-- Each text that was stored before is the text of some row, or some version holds it. -/
def TextsKept (before : SectionTable δ) (life : Life δ η) : Prop :=
  ∀ r ∈ before.rows, isWritten r →
    (∃ r' ∈ life.table.rows, r'.content = r.content) ∨ Frozen life r.content

/-! When a step harms no text. -/

/-- The row holds a text from before that no version holds. -/
def AtRisk (before : SectionTable δ) (life : Life δ η) (r : SectionRow δ) : Prop :=
  (∃ r₀ ∈ before.rows, isWritten r₀ ∧ r₀.content = r.content) ∧ ¬ Frozen life r.content

instance : Decidable (Renumbers env s) :=
  inferInstanceAs (Decidable (_ ∧ _))

/-- What an assembly makes of the text of a row. -/
def assembledText (env : Env δ) (plan : List SectionPlan) (rows : List (SectionRow δ))
    (a : Assembly) (p : SectionPlan) (r : SectionRow δ) : Option Text :=
  let o := (a.state plan).overlay env.uuid4 rows
  let text := if Renumbers env o then
      (renumberContent r.content r.sourceIds (chunkNumber env o)).map env.scrub
    else some r.content
  text.map fun text =>
    (a.contentByRef.lookup (BuildsOn.sectionLabel p.chapterNumber p.sectionNumber)).getD text

/-- The assembly takes the text of a row over as it stands: the row is that of a planned section,
its candidates, if there are any, have one that is selected, and no pass changes the text. -/
def TakesOver (env : Env δ) (plan : List SectionPlan) (rows : List (SectionRow δ)) (a : Assembly)
    (r : SectionRow δ) : Prop :=
  ∃ p ∈ plan, p.sectionId = r.id ∧
    (HasCandidates (a.state plan).core r.id → NamesCandidate (a.state plan).core r.id) ∧
    assembledText env plan rows a p r = some r.content

/-- A draft is stored over no row at risk, and an assembly takes over the texts at risk, unless
the text stands elsewhere. -/
def Harmless (env : Env δ) (plan : List SectionPlan) (before : SectionTable δ)
    (life : Life δ η) : Event → Prop
  | .draft call => ∀ r ∈ life.table.rows, AtRisk before life r → replacedBy call r →
      (∃ r' ∈ life.table.rows, replacedBy call r' = false ∧ r'.content = r.content) ∨
        call.draft.any fun d => d.content = r.content
  | .assemble a => ∀ r ∈ life.table.rows, AtRisk before life r →
      ∃ r' ∈ life.table.rows, r'.content = r.content ∧ TakesOver env plan life.table.rows a r'
  | _ => True

/-! What one step keeps. -/

variable {digest : List (SectionSnap Uuid) → η} {before : SectionTable δ} {life life' : Life δ η}
  {e : Event} {call : DraftCall} {a : Assembly}

omit [DecidableEq η] in
theorem TextsKept.of_risk (h : TextsKept before life)
    (hversions : life.versions.list ⊆ life'.versions.list)
    (hrows : ∀ r ∈ life.table.rows, AtRisk before life r →
      ∃ r' ∈ life'.table.rows, r'.content = r.content) :
    TextsKept before life' := by
  intro r hr hw
  have hfrozen : ∀ c, Frozen life c → Frozen life' c := by
    rintro c ⟨v, hv, hpart⟩
    exact ⟨v, hversions hv, hpart⟩
  rcases h r hr hw with ⟨r', hr', hc⟩ | hf
  · by_cases hf : Frozen life r'.content
    · exact .inr (hc ▸ hfrozen _ hf)
    · obtain ⟨r'', hr'', hc'⟩ := hrows r' hr' ⟨⟨r, hr, hw, hc.symm⟩, hf⟩
      exact .inl ⟨r'', hr'', hc'.trans hc⟩
  · exact .inr (hfrozen _ hf)

theorem isWritten_of_content (h : r'.content = r.content) : isWritten r' = isWritten r := by
  rw [isWritten, isWritten, h]

/-- The table is cleared only of rows without a text. -/
theorem mem_cleaned (hr : r ∈ t.rows) (hw : isWritten r) : r ∈ (cleaned plan t).rows := by
  unfold cleaned
  split
  · rename_i h
    simp only [Bool.and_eq_true, List.isEmpty_iff] at h
    exfalso
    cases hplan : (plan.map (·.sectionId)).contains r.id with
    | true =>
      have hmem : r ∈ doneRows plan t.rows := List.mem_filter.mpr ⟨hr, by rw [hw, hplan]; rfl⟩
      rw [h.1] at hmem
      cases hmem
    | false =>
      have hmem : r ∈ orphans plan t.rows := List.mem_filter.mpr ⟨hr, by rw [hw, hplan]; rfl⟩
      rw [h.2] at hmem
      cases hmem
  · exact hr

omit [DecidableEq η] in
theorem textsKept_draft {sections : List SectionPlan}
    (hsafe : Harmless env plan before life (.draft call)) (h : TextsKept before life) :
    TextsKept before { life with table := persistDraftSection env sections call life.table } := by
  refine h.of_risk (List.Subset.refl _) fun r hr hrisk => ?_
  have hstays : ∀ r' ∈ life.table.rows, replacedBy call r' = false →
      r' ∈ (persistDraftSection env sections call life.table).rows := fun r' hr' hkept =>
    List.mem_append_left _ (List.mem_filter.mpr ⟨hr', by simp [hkept]⟩)
  cases hrep : replacedBy call r with
  | false => exact ⟨r, hstays r hr hrep, rfl⟩
  | true =>
    rcases hsafe r hr hrisk hrep with ⟨r', hr', hkept, hc⟩ | hdraft
    · exact ⟨r', hstays r' hr' hkept, hc⟩
    · refine ⟨draftRow env sections call, List.mem_append_right _ (.head _), ?_⟩
      cases hd : call.draft with
      | none => simp [hd] at hdraft
      | some d =>
        rw [hd] at hdraft
        simpa [draftRow, hd] using hdraft

theorem refOf_eq (hids : (s.sectionPlan.map (·.sectionId)).Nodup) (hp : p ∈ s.sectionPlan) :
    refOf s p.sectionId = some (BuildsOn.sectionLabel p.chapterNumber p.sectionNumber) := by
  have hkeys : ((s.sectionPlan.map fun p =>
      (p.sectionId, BuildsOn.sectionLabel p.chapterNumber p.sectionNumber)).map Prod.fst).Nodup := by
    rw [List.map_map]
    exact hids
  exact (lastFor_eq_some hkeys).mpr (List.mem_map.mpr ⟨p, hp, rfl⟩)

/-- What is stored of a selected section. -/
theorem content_stored {d : SectionDraft Uuid} (hids : (s.sectionPlan.map (·.sectionId)).Nodup)
    (hown : OwnDrafts s) (hp : p ∈ s.sectionPlan) (hd : selectedDraft s.core p.sectionId = some d)
    (hstored : persistSections env (compress contentByRef s) t = some t') :
    ∃ r' ∈ t'.rows, r'.content = (contentByRef.lookup
      (BuildsOn.sectionLabel p.chapterNumber p.sectionNumber)).getD d.content := by
  refine ⟨_, mem_stored hstored hp, ?_⟩
  have hdraft : draftFor (compress contentByRef s) p.sectionId =
      selectedDraft (compress contentByRef s).core p.sectionId :=
    draftFor_eq hids (ownDrafts_compress hown) (List.mem_map_of_mem hp)
  rw [withPrior_content, rowOf, hdraft, selectedDraft_compress, refOf_eq hids hp, hd]
  rfl

/-- A text that is taken over stands in the new table. -/
theorem content_assembled (hr : r ∈ t.rows) (hw : isWritten r)
    (htakes : TakesOver env plan t.rows a r)
    (hstored : persistSections env
      (compress a.contentByRef (assembled env t.rows (a.state plan))) t = some t') :
    ∃ r' ∈ t'.rows, r'.content = r.content := by
  obtain ⟨p, hp, hpid, hselects, htext⟩ := htakes
  have hplan : (assembled env t.rows (a.state plan)).sectionPlan = plan := assembled_sectionPlan
  have hids : (plan.map (·.sectionId)).Nodup := by
    have hdistinct := persistSections_isSome.1 (Option.isSome_of_eq_some hstored)
    rw [← hplan]
    exact hdistinct.1
  have hmem : r.id ∈ plan.map (·.sectionId) := hpid ▸ List.mem_map_of_mem hp
  have hrow : writtenRow (workingCopy t.rows) r.id = some (r.content, r.sourceIds) :=
    writtenRow_workingCopy t.ids hr hw
  have hsome : (selectedDraft ((a.state plan).overlay env.uuid4 t.rows).core r.id).isSome :=
    selected_of_row hids hmem hrow hselects
  obtain ⟨d, hd⟩ := Option.isSome_iff_exists.mp hsome
  obtain ⟨hcontent, hcited⟩ := selectedDraft_of_row (s := a.state plan) hids hmem hrow hd
  have hown : OwnDrafts (assembled env t.rows (a.state plan)) :=
    ownDrafts_assembled hids (ownDrafts_of_own a.candidates.own rfl)
  have hids' : ((assembled env t.rows (a.state plan)).sectionPlan.map (·.sectionId)).Nodup := by
    rw [hplan]
    exact hids
  have hp' : p ∈ (assembled env t.rows (a.state plan)).sectionPlan := by
    rw [hplan]
    exact hp
  unfold assembledText at htext
  rcases selectedDraft_assembled env t.rows (a.state plan) r.id with ⟨hno, h⟩ | ⟨hren, h⟩
  · rw [hd, ← hpid] at h
    obtain ⟨r', hr', hc⟩ := content_stored hids' hown hp' h hstored
    refine ⟨r', hr', hc.trans ?_⟩
    simpa [hno, hcontent] using htext
  · rw [hd] at h
    obtain ⟨d', hd', hren'⟩ := Option.map_eq_some_iff.mp h.symm
    obtain ⟨text, htext', hd''⟩ := Option.bind_eq_some_iff.mp hren'.symm
    obtain rfl := Option.some.inj hd''
    rw [hcontent, hcited] at htext'
    rw [← hpid] at hd'
    obtain ⟨r', hr', hc⟩ := content_stored hids' hown hp' hd' hstored
    refine ⟨r', hr', hc.trans ?_⟩
    simpa [hren, htext'] using htext

/-- A step that is harmless keeps the texts. -/
theorem textsKept_step (hstep : step env digest plan life e = some life')
    (hsafe : Harmless env plan before life e) (h : TextsKept before life) :
    TextsKept before life' := by
  cases e with
  | start =>
    simp only [step] at hstep
    split at hstep
    · obtain rfl := Option.some.inj hstep
      refine h.of_risk (List.Subset.refl _) fun r hr hrisk => ?_
      obtain ⟨⟨r₀, -, hw, hc⟩, -⟩ := hrisk
      exact ⟨r, mem_cleaned hr (by rw [← isWritten_of_content hc, hw]), rfl⟩
    · cases hstep
  | draft call =>
    simp only [step] at hstep
    split at hstep
    · split at hstep
      · obtain rfl := Option.some.inj hstep
        exact textsKept_draft hsafe h
      · cases hstep
    · cases hstep
  | assemble a =>
    have hassemble : ∃ table, persistSections env (compress a.contentByRef
        (assembled env life.table.rows (a.state plan))) life.table = some table ∧
        { life with table, stage := .assembled } = life' := by
      simp only [step] at hstep
      split at hstep
      · exact Option.map_eq_some_iff.mp hstep
      · exact Option.map_eq_some_iff.mp hstep
      · cases hstep
    obtain ⟨table, hstored, rfl⟩ := hassemble
    refine h.of_risk (List.Subset.refl _) fun r hr hrisk => ?_
    obtain ⟨r', hr', hc, htakes⟩ := hsafe r hr hrisk
    obtain ⟨⟨r₀, -, hw, hc₀⟩, -⟩ := hrisk
    have hw' : isWritten r' := by rw [isWritten_of_content hc, ← isWritten_of_content hc₀, hw]
    obtain ⟨r'', hr'', hc'⟩ := content_assembled hr' hw' htakes hstored
    exact ⟨r'', hr'', hc'.trans hc⟩
  | snapshot =>
    simp only [step] at hstep
    split at hstep
    · obtain rfl := Option.some.inj hstep
      exact h.of_risk (snapshotReport_assemble digest _ life.versions.recent).1 fun r hr _ =>
        ⟨r, hr, rfl⟩
    · cases hstep

/-- A run keeps all texts, wherever it stops, if no draft is stored over a text at risk and the
assembly takes over the texts at risk. -/
theorem textsKept_along {table : SectionTable δ} {versions : Versions η} {es : List Event}
    (h : Runs.Along (step env digest plan) (fun life e _ => Harmless env plan table life e)
      ⟨table, versions, .idle⟩ es) :
    Runs.Always (step env digest plan) (TextsKept table) ⟨table, versions, .idle⟩ es :=
  Runs.always_of_step (fun _ _ _ hstep hsafe h => textsKept_step hstep hsafe h)
    (fun r hr _ => .inl ⟨r, hr, rfl⟩) h

/-! Runs on small tables. -/

instance {life : Life δ η} : Decidable (Frozen life content) :=
  inferInstanceAs (Decidable (∃ v ∈ life.versions.list, ∃ part ∈ v.sections, part.content = content))

instance : Decidable (AtRisk before life r) :=
  inferInstanceAs (Decidable ((∃ r₀ ∈ before.rows, isWritten r₀ ∧ r₀.content = r.content) ∧ _))

instance {st : ProjectState Uuid} : Decidable (NamesCandidate st id) :=
  decidable_of_iff _ selectedDraft_isSome

instance {st : ProjectState Uuid} : Decidable (HasCandidates st id) :=
  decidable_of_iff ((setFor id st.sectionCandidates).any fun cs => !cs.candidates.isEmpty) (by
    unfold HasCandidates
    cases setFor id st.sectionCandidates <;> simp)

instance : Decidable (TakesOver env plan rows a r) :=
  inferInstanceAs (Decidable (∃ p ∈ plan, p.sectionId = r.id ∧ _ ∧ _))

instance : (e : Event) → Decidable (Harmless env plan before life e)
  | .start => isTrue trivial
  | .draft call => inferInstanceAs (Decidable (∀ r ∈ life.table.rows, AtRisk before life r →
      replacedBy call r → _ ∨ _))
  | .assemble a => inferInstanceAs (Decidable (∀ r ∈ life.table.rows, AtRisk before life r →
      ∃ r' ∈ life.table.rows, _ ∧ TakesOver env plan life.table.rows a r'))
  | .snapshot => isTrue trivial

def nextSection : SectionPlan :=
  ⟨Outlines.drawn 2, 1, 2, "전망".toList, [], [], [], [], [], [], none, none⟩

def noVersions : Versions Nat := ⟨[], Nat.zero_le _⟩

/-- A row with a text, under the number 1.1. -/
def textRow (id : Uuid) : SectionRow Nat :=
  ⟨id, 1, 1, "1장".toList, "개요".toList, "옛 본문".toList, [], none, false, [], .passed, .completed,
    0⟩

def textTable (id : Uuid) : SectionTable Nat :=
  ⟨[textRow id], List.nodup_singleton _, List.nodup_singleton _⟩

def draftOf (id : Uuid) : SectionDraft Uuid := ⟨id, "새 본문".toList, [], [], false, false⟩

/-- The candidate sets of the section that is written. -/
def nextSets : OwnSets where
  sets := [⟨Outlines.drawn 2, [⟨Outlines.drawn 3, draftOf (Outlines.drawn 2)⟩]⟩]
  own := by simp [draftOf]

/-- One section stays and the next is written. -/
def secondRun : List Event :=
  [.start, .draft ⟨nextSection, [], some (draftOf (Outlines.drawn 2))⟩,
    .assemble ⟨nextSets, [(Outlines.drawn 2, Outlines.drawn 3)], [], []⟩, .snapshot]

theorem textsKept_secondRun :
    (Runs.run (step plainEnv (fun _ => 0) [onlySection, nextSection])
      ⟨textTable (Outlines.drawn 1), noVersions, .idle⟩ secondRun).isSome ∧
    Runs.Always (step plainEnv (fun _ => 0) [onlySection, nextSection])
      (TextsKept (textTable (Outlines.drawn 1))) ⟨textTable (Outlines.drawn 1), noVersions, .idle⟩
      secondRun :=
  ⟨by decide, textsKept_along (by decide)⟩

/-- A text that the plan does not know is deleted by the draft at its number. -/
theorem not_textsKept_orphan : ¬ ∀ (env : Env Nat) (digest : List (SectionSnap Uuid) → Nat)
    (plan : List SectionPlan) (table : SectionTable Nat) (versions : Versions Nat)
    (es : List Event), Runs.Always (step env digest plan) (TextsKept table)
      ⟨table, versions, .idle⟩ es := by
  intro h
  have hrun := h plainEnv (fun _ => 0) [onlySection] (textTable (Outlines.drawn 9)) noVersions
    [.start, .draft ⟨onlySection, [], some (draftOf (Outlines.drawn 1))⟩]
  have hends : ((Runs.run (step plainEnv (fun _ => 0) [onlySection])
      ⟨textTable (Outlines.drawn 9), noVersions, .idle⟩
      [.start, .draft ⟨onlySection, [], some (draftOf (Outlines.drawn 1))⟩]).map
        fun life => (life.table.rows.map (·.content), life.versions.list.length)) =
      some (["새 본문".toList], 0) := by decide
  obtain ⟨life, hlife, hend⟩ := Option.map_eq_some_iff.mp hends
  obtain ⟨hrows, hversions⟩ := Prod.mk.inj hend
  have hkept : TextsKept (textTable (Outlines.drawn 9)) life := Runs.Always.last hrun hlife
  rcases hkept (textRow (Outlines.drawn 9)) (.head _) (by decide) with ⟨r, hr, hc⟩ | ⟨v, hv, -⟩
  · have hmem := List.mem_map_of_mem (f := fun r : SectionRow Nat => r.content) hr
    rw [hrows, List.mem_singleton, hc] at hmem
    exact absurd hmem (by decide)
  · rw [List.length_eq_zero_iff.mp hversions] at hv
    cases hv

end RownRg.WriteRun

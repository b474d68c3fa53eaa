import RownRg.Core.OutlineIds
import RownRg.Workflows.WriteRun

/-! What a run leaves of the rows that it does not write. -/

open PyText RownRg.SectionPlan RownRg.Sections RownRg.Workflows

namespace RownRg.WriteRun

variable {δ : Type} {env : Env δ} {s s' : RunState} {plan : List SectionPlan}
  {p : SectionPlan} {rows : List (SectionRow δ)} {r r' row : SectionRow δ} {t t' : SectionTable δ}
  {id : Uuid} {key : Text} {entry : Entry plan t} {d : SectionDraft Uuid}

/-- The table as the comparison with the plan sees it. -/
def snapshots (excluded : SectionRow δ → List Uuid) (t : SectionTable δ) :
    List (Uuid × SectionSnapshot δ Uuid) :=
  t.rows.map fun r => (r.id, ⟨isWritten r, r.planHash, excluded r⟩)

/-- A section is reported as written under another plan. -/
def Changed [DecidableEq δ] (env : Env δ) (excluded : SectionRow δ → List Uuid)
    (plan : List SectionPlan) (t : SectionTable δ) (id : Uuid) : Prop :=
  ∃ x ∈ detectDrift env.digest plan (snapshots excluded t), x.sectionId = id ∧
    DriftReason.planChanged ∈ x.reasons

/-- The body of a planned section is taken from the row that was stored for it. -/
structure Taken (env : Env δ) (entry : Entry plan t) (p : SectionPlan) (r : SectionRow δ) :
    Prop where
  planned : p ∈ plan
  before : r ∈ t.rows
  there : r ∈ (entry.table env).rows
  same : r.id = p.sectionId
  written : isWritten r
  selected : (selectedDraft ((entry.state env).overlay env.uuid4 (entry.table env).rows).core
    p.sectionId).isSome

/-- All that is on record of a row stays, but for the chunks behind its numbers. -/
structure Unchanged (r r' : SectionRow δ) : Prop where
  id : r'.id = r.id
  locked : r'.locked = r.locked
  planHash : r'.planHash = r.planHash
  rowMeta : ∀ key, key ≠ citationChunksKey → r'.rowMeta.lookup key = r.rowMeta.lookup key

/-- A run keeps the rows whose bodies it takes over. -/
def KeepsRows [DecidableEq δ] (env : Env δ) (entry : Entry plan t) : Prop :=
  ∀ t', entry.stored env = some t' → ∀ p r, Taken env entry p r →
    (∃ r' ∈ t'.rows, Unchanged r r') ∧
      ∀ excluded, Changed env excluded plan t' r.id ↔ Changed env excluded plan t r.id

/-! The records. -/

theorem mem_chunkMeta {m : RowMeta} (h : (id, m) ∈ s.sectionCandidates.flatMap (chunkMeta env s)) :
    ∃ j, m = setKey (s.metaOf id) citationChunksKey j := by
  obtain ⟨cset, -, h⟩ := List.mem_flatMap.mp h
  obtain ⟨cand, -, heq⟩ := List.mem_map.mp h
  obtain ⟨rfl, rfl⟩ := Prod.mk.inj heq
  exact ⟨_, rfl⟩

/-- A selected section gets a new record of its chunks. -/
theorem lastFor_chunkMeta (hd : selectedDraft s.core id = some d) :
    ∃ j, lastFor id (s.sectionCandidates.flatMap (chunkMeta env s)) =
      some (setKey (s.metaOf id) citationChunksKey j) := by
  obtain ⟨chosen, hchosen, hd⟩ := Option.bind_eq_some_iff.mp hd
  obtain ⟨cset, hcset, hd⟩ := Option.bind_eq_some_iff.mp hd
  obtain ⟨c, hc, rfl⟩ := Option.map_eq_some_iff.mp hd
  obtain ⟨cs, hcs, heq⟩ := List.mem_map.mp (mem_of_lastFor hcset)
  obtain ⟨rfl, rfl⟩ := Prod.mk.inj heq
  have hcid : c.candidateId = chosen := by simpa using List.find?_some hc
  have hmem : c ∈ cs.candidates.filter (isChosen s cs) := by
    refine List.mem_filter.mpr ⟨List.mem_of_find?_eq_some hc, ?_⟩
    have hsel : lastFor cs.sectionId s.sectionSelections = some chosen := hchosen
    simp [isChosen, hsel, hcid]
  have hentry : _ ∈ chunkMeta env s cs := List.mem_map.mpr ⟨c, hmem, rfl⟩
  obtain ⟨m, hm⟩ := Option.isSome_iff_exists.mp
    (lastFor_isSome (List.mem_flatMap.mpr ⟨cs, hcs, hentry⟩))
  obtain ⟨j, rfl⟩ := mem_chunkMeta (mem_of_lastFor hm)
  exact ⟨j, hm⟩

theorem metaOf_renumber (hun : unnumbered env s = false) (h : renumberState env s = some s')
    (hd : selectedDraft s.core id = some d) :
    ∃ j, s'.metaOf id = setKey (s.metaOf id) citationChunksKey j := by
  obtain ⟨sets, -, rfl⟩ := renumberState_spec hun h
  obtain ⟨j, hj⟩ : ∃ j, lastFor id (s.sectionCandidates.flatMap (chunkMeta env s)) =
      some (setKey (s.metaOf id) citationChunksKey j) := lastFor_chunkMeta hd
  refine ⟨j, ?_⟩
  rw [RunState.metaOf, lastFor_append, hj]
  rfl

theorem setKey_ne_nil {m : RowMeta} {j : Json} : setKey m key j ≠ [] := by
  unfold setKey
  split
  · rename_i h
    intro hnil
    obtain rfl := List.map_eq_nil_iff.mp hnil
    cases h
  · simp

theorem withPrior_of_ne_nil (h : row.rowMeta ≠ []) : withPrior rows row = row := by
  unfold withPrior
  simp [h]

theorem withPrior_of_nil (hids : (rows.map (·.id)).Nodup) (hr : r ∈ rows) (hid : row.id = r.id)
    (h : row.rowMeta = []) : (withPrior rows row).rowMeta = r.rowMeta := by
  have hfind : rows.find? (fun x => x.id = row.id) = some r := by
    rw [hid]
    cases hfind : rows.find? (fun x => x.id = r.id) with
    | none => simpa using List.find?_eq_none.mp hfind r hr
    | some r' =>
      have hid' : r'.id = r.id := by simpa using List.find?_some hfind
      rw [List.inj_on_of_nodup_map hids (List.mem_of_find?_eq_some hfind) hr hid']
  unfold withPrior
  simp [h, hfind]

theorem Entry.state_sectionPlan : (entry.state env).sectionPlan = plan := by
  cases entry <;> rfl

theorem Entry.ownDrafts : OwnDrafts (entry.state env) := by
  cases entry with
  | write loop => exact ownDrafts_of_own loop.candidates.own rfl
  | assembly candidates selections => exact ownDrafts_of_own candidates.own rfl

/-- Without a write stage new numbers are all that the assembly has on record. -/
def Entry.forgets (env : Env δ) : Entry plan t → Prop
  | .write _ => False
  | .assembly candidates selections =>
    Renumbers env (RunState.overlay env.uuid4 t.rows ⟨plan, candidates.sets, selections, []⟩)

/-- What a state carries on record of a section that is not written again. -/
theorem Entry.metaOf_taken (htaken : Taken env entry p r) :
    (entry.state env).metaOf r.id = match entry with
      | .write _ => r.rowMeta
      | .assembly _ _ => [] := by
  cases entry with
  | assembly candidates selections => rfl
  | write loop =>
    have hdone : r ∈ doneRows plan t.rows := by
      refine List.mem_filter.mpr ⟨htaken.before, ?_⟩
      have hmem : r.id ∈ plan.map (·.sectionId) :=
        List.mem_map.mpr ⟨p, htaken.planned, htaken.same.symm⟩
      simp only [htaken.written, Bool.true_and, List.contains_iff_mem]
      exact hmem
    have hnot : ∀ y ∈ loop.records, y.1 ≠ r.id := by
      intro y hy heq
      have hmem : r.id ∈ (remaining plan t.rows).map (·.sectionId) := by
        rw [← loop.recordIds, ← heq]
        exact List.mem_map_of_mem hy
      obtain ⟨q, hq, hid⟩ := List.mem_map.mp hmem
      have hrem := (List.mem_filter.mp hq).2
      rw [hid] at hrem
      simp only [Bool.not_eq_eq_eq_not, Bool.not_true, List.contains_eq_mem,
        decide_eq_false_iff_not] at hrem
      exact hrem (List.mem_map_of_mem hdone)
    have hkeys : (((doneRows plan t.rows).map fun r => (r.id, r.rowMeta)).map Prod.fst).Nodup := by
      rw [List.map_map]
      exact t.ids.sublist (List.filter_sublist.map _)
    have hlast : lastFor r.id ((doneRows plan t.rows).map fun r => (r.id, r.rowMeta)) =
        some r.rowMeta :=
      (lastFor_eq_some hkeys).mpr (List.mem_map.mpr ⟨r, hdone, rfl⟩)
    show (lastFor r.id (_ ++ loop.records)).getD [] = r.rowMeta
    rw [lastFor_append_of_forall_ne hnot, hlast]
    rfl

/-- What is on record of a selected section at the end of the assembly. -/
theorem metaOf_assembled (hd : selectedDraft (s.overlay env.uuid4 rows).core id = some d) :
    (¬ Renumbers env (s.overlay env.uuid4 rows) ∧ (assembled env rows s).metaOf id = s.metaOf id) ∨
    (Renumbers env (s.overlay env.uuid4 rows) ∧
      ∃ j, (assembled env rows s).metaOf id = setKey (s.metaOf id) citationChunksKey j) := by
  rcases assembled_cases env rows s with ⟨hno, h⟩ | ⟨hren, hun, h⟩
  · refine .inl ⟨hno, ?_⟩
    rw [h]
    rfl
  · have hrec : ∃ j, (assembled env rows s).metaOf id =
        setKey ((s.overlay env.uuid4 rows).metaOf id) citationChunksKey j :=
      metaOf_renumber hun h hd
    exact .inr ⟨hren, hrec⟩

/-- The row that takes the place of a row whose body is taken over. -/
theorem row_of_taken (htaken : Taken env entry p r) (hstored : entry.stored env = some t') :
    ∃ r' ∈ t'.rows, r'.id = r.id ∧ r'.locked = false ∧
      r'.planHash = some (contentFingerprint env.digest p) ∧
      (entry.forgets env → ∃ j, r'.rowMeta = [(citationChunksKey, j)]) ∧
      (¬ entry.forgets env → r'.rowMeta = r.rowMeta ∨
        ∃ j, r'.rowMeta = setKey r.rowMeta citationChunksKey j) := by
  have hplan : (entry.state env).sectionPlan = plan := Entry.state_sectionPlan
  have hdistinct := persistSections_isSome.1 (Option.isSome_of_eq_some hstored)
  rw [assembled_sectionPlan] at hdistinct
  have hid : r.id ∈ (entry.state env).sectionPlan.map (·.sectionId) := by
    rw [hplan, htaken.same]
    exact List.mem_map_of_mem htaken.planned
  have hselected := htaken.selected
  rw [← htaken.same] at hselected
  obtain ⟨d, hd⟩ := Option.isSome_iff_exists.mp hselected
  have hrow : withPrior (entry.table env).rows
      (rowOf env (assembled env (entry.table env).rows (entry.state env)) p) ∈ t'.rows := by
    rw [stored_rows hstored, newRows, assembled_sectionPlan, hplan]
    exact List.mem_map_of_mem htaken.planned
  have hnil : (assembled env (entry.table env).rows (entry.state env)).metaOf p.sectionId = [] →
      (withPrior (entry.table env).rows
        (rowOf env (assembled env (entry.table env).rows (entry.state env)) p)).rowMeta =
          r.rowMeta := by
    intro h
    exact withPrior_of_nil (entry.table env).ids htaken.there htaken.same.symm h
  have hne : ∀ m, m ≠ [] →
      (assembled env (entry.table env).rows (entry.state env)).metaOf p.sectionId = m →
      (withPrior (entry.table env).rows
        (rowOf env (assembled env (entry.table env).rows (entry.state env)) p)).rowMeta = m := by
    rintro m hm rfl
    rw [withPrior_of_ne_nil hm]
    rfl
  have hbase := Entry.metaOf_taken htaken
  refine ⟨_, hrow, Eq.trans withPrior_id htaken.same.symm, withPrior_locked, ?_, ?_⟩
  · rw [withPrior_planHash]
    have hsome : (draftFor (assembled env (entry.table env).rows (entry.state env)) r.id).isSome := by
      have hown : OwnDrafts (assembled env (entry.table env).rows (entry.state env)) :=
        ownDrafts_assembled hdistinct.1 Entry.ownDrafts
      have hsame : (assembled env (entry.table env).rows (entry.state env)).sectionPlan =
          (entry.state env).sectionPlan := assembled_sectionPlan
      rw [draftFor_eq (by rw [hsame]; exact hdistinct.1) hown (by rw [hsame]; exact hid)]
      rcases selectedDraft_assembled env (entry.table env).rows (entry.state env) r.id with
        ⟨-, h⟩ | ⟨-, h⟩
      · rw [h, hd]
        rfl
      · rw [hd] at h
        obtain ⟨d', hd', -⟩ := Option.map_eq_some_iff.mp h.symm
        rw [hd']
        rfl
    obtain ⟨d', hd'⟩ := Option.isSome_iff_exists.mp hsome
    rw [htaken.same] at hd'
    simp [rowOf, hd']
  · have hrecord := metaOf_assembled hd
    rw [htaken.same] at hrecord hbase
    cases entry with
    | write loop =>
      refine ⟨False.elim, fun _ => ?_⟩
      rcases hrecord with ⟨-, h⟩ | ⟨-, j, h⟩
      · rw [hbase] at h
        by_cases hm : r.rowMeta = []
        · exact .inl (hnil (h.trans hm))
        · exact .inl (hne _ hm h)
      · rw [hbase] at h
        exact .inr ⟨j, hne _ setKey_ne_nil h⟩
    | assembly candidates selections =>
      rcases hrecord with ⟨hno, h⟩ | ⟨hren, j, h⟩
      · exact ⟨fun hforgets => absurd hforgets hno, fun _ => .inl (hnil (h.trans hbase))⟩
      · rw [hbase] at h
        exact ⟨fun _ => ⟨j, hne _ (List.cons_ne_nil _ _) h⟩, fun hforgets => absurd hren hforgets⟩

/-- A row with the fingerprint of its plan is not reported. -/
theorem not_changed [DecidableEq δ] {excluded : SectionRow δ → List Uuid}
    (hids : (plan.map (·.sectionId)).Nodup) (hp : p ∈ plan) (hr : r ∈ t.rows)
    (hid : r.id = p.sectionId) (hhash : r.planHash = some (contentFingerprint env.digest p)) :
    ¬ Changed env excluded plan t r.id := by
  rintro ⟨x, hx, hxid, hreason⟩
  unfold detectDrift at hx
  split at hx
  · cases hx
  · obtain ⟨q, hq, heq⟩ := List.mem_filterMap.mp hx
    have hkeys : ((snapshots excluded t).map Prod.fst).Nodup := by
      rw [snapshots, List.map_map]
      exact t.ids
    have hlookup : (snapshots excluded t).lookup r.id =
        some ⟨isWritten r, r.planHash, excluded r⟩ :=
      (Pairing.lookup_eq_some hkeys).mpr (List.mem_map.mpr ⟨r, hr, rfl⟩)
    simp only at heq
    split at heq
    · cases heq
    · obtain rfl := Option.some.inj heq
      have hqp : q = p := List.inj_on_of_nodup_map hids hq hp (hxid.trans hid)
      subst hqp
      rw [← hid, hlookup] at hreason
      cases hw : isWritten r <;> cases he : (excluded r).isEmpty <;>
        simp [driftReasons, hhash, hw, he] at hreason

/-- A run keeps its rows exactly where they have no lock, were written under the plan as it is, and
an assembly that gives new numbers without a write stage finds nothing else on record. -/
theorem keepsRows_iff [DecidableEq δ] : KeepsRows env entry ↔
    ((plan.map (·.sectionId)).Nodup ∧
        (plan.map fun p => (p.chapterNumber, p.sectionNumber)).Nodup →
      ∀ p r, Taken env entry p r → r.locked = false ∧
        r.planHash = some (contentFingerprint env.digest p) ∧
        (entry.forgets env → ∀ key, key ≠ citationChunksKey → r.rowMeta.lookup key = none)) := by
  have hplan : (assembled env (entry.table env).rows (entry.state env)).sectionPlan = plan :=
    Eq.trans assembled_sectionPlan Entry.state_sectionPlan
  have hstores : (entry.stored env).isSome ↔ (plan.map (·.sectionId)).Nodup ∧
      (plan.map fun p => (p.chapterNumber, p.sectionNumber)).Nodup := by
    rw [Entry.stored, persistSections_isSome, hplan]
  constructor
  · intro hkeeps hdistinct p r htaken
    obtain ⟨t', ht'⟩ := Option.isSome_iff_exists.mp (hstores.mpr hdistinct)
    obtain ⟨⟨r', hr', hsame⟩, -⟩ := hkeeps t' ht' p r htaken
    obtain ⟨row, hrow, hid, hlocked, hhash, hforgets, -⟩ := row_of_taken htaken ht'
    obtain rfl : r' = row := List.inj_on_of_nodup_map t'.ids hr' hrow (hsame.id.trans hid.symm)
    refine ⟨hsame.locked.symm.trans hlocked, hsame.planHash.symm.trans hhash, ?_⟩
    intro h key hkey
    obtain ⟨j, hj⟩ := hforgets h
    rw [← hsame.rowMeta key hkey, hj, List.lookup_cons, beq_eq_false_iff_ne.mpr hkey]
    rfl
  · intro hcond t' ht' p r htaken
    have hdistinct := hstores.mp (Option.isSome_of_eq_some ht')
    obtain ⟨hlocked, hhash, hnothing⟩ := hcond hdistinct p r htaken
    obtain ⟨row, hrow, hid, hlocked', hhash', hforgets, hkeeps⟩ := row_of_taken htaken ht'
    refine ⟨⟨row, hrow, hid, hlocked'.trans hlocked.symm, hhash'.trans hhash.symm, ?_⟩, ?_⟩
    · intro key hkey
      by_cases h : entry.forgets env
      · obtain ⟨j, hj⟩ := hforgets h
        rw [hnothing h key hkey, hj, List.lookup_cons, beq_eq_false_iff_ne.mpr hkey]
        rfl
      · rcases hkeeps h with hm | ⟨j, hm⟩
        · rw [hm]
        · rw [hm, lookup_setKey_ne hkey]
    · intro excluded
      have hbefore : ¬ Changed env excluded plan t r.id :=
        not_changed hdistinct.1 htaken.planned htaken.before htaken.same hhash
      have hafter : ¬ Changed env excluded plan t' row.id :=
        not_changed hdistinct.1 htaken.planned hrow (hid.trans htaken.same) hhash'
      rw [hid] at hafter
      exact iff_of_false hafter hbefore

/-- Nothing has a number, every candidate passes. -/
def plainEnv : Env Nat :=
  ⟨fun _ => 0, fun _ => none, fun t => t, fun _ => Outlines.drawn 0, [], fun _ => true,
    fun _ => false, 0⟩

def onlySection : SectionPlan :=
  ⟨Outlines.drawn 1, 1, 1, "개요".toList, [], [], [], [], [], [], none, none⟩

/-- A text that a human wrote and locked. -/
def lockedRow : SectionRow Nat :=
  ⟨Outlines.drawn 1, 1, 1, "1장".toList, "개요".toList, "고친 본문".toList, [], some 0, true, [],
    .passed, .completed, 0⟩

def lockedTable : SectionTable Nat :=
  ⟨[lockedRow], List.nodup_singleton _, List.nodup_singleton _⟩

/-- An assembly takes the lock off. -/
theorem not_keepsRows_locked : ¬ ∀ (env : Env Nat) (plan : List SectionPlan) (t : SectionTable Nat)
    (entry : Entry plan t), KeepsRows env entry := by
  intro h
  have hkeeps := h plainEnv [onlySection] lockedTable (.assembly ⟨[], by simp⟩ [])
  have htaken : Taken plainEnv (.assembly ⟨[], by simp⟩ [] : Entry [onlySection] lockedTable)
      onlySection lockedRow :=
    ⟨.head _, .head _, .head _, rfl, by decide, by decide⟩
  have hstored : (Entry.stored plainEnv
      (.assembly ⟨[], by simp⟩ [] : Entry [onlySection] lockedTable)).isSome :=
    persistSections_isSome.2 ⟨List.nodup_singleton _, List.nodup_singleton _⟩
  obtain ⟨t', ht'⟩ := Option.isSome_iff_exists.mp hstored
  obtain ⟨⟨r', hr', hsame⟩, -⟩ := hkeeps t' ht' _ _ htaken
  obtain ⟨row, hrow, hid, hlocked, -⟩ := row_of_taken htaken ht'
  obtain rfl := List.inj_on_of_nodup_map t'.ids hr' hrow (hsame.id.trans hid.symm)
  rw [hsame.locked] at hlocked
  cases hlocked

end RownRg.WriteRun

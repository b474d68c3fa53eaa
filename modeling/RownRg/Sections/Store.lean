import RownRg.Core.BuildsOn
import RownRg.Sections.Drift

/-! The section table, and its rows carried along when the outline changes. -/

open PyText RownRg.BuildsOn RownRg.SectionPlan

namespace RownRg.Sections

inductive QaStatus where
  | passed | failed | pending
  deriving DecidableEq

inductive SectionStatus where
  | pending | writing | completed | failed
  deriving DecidableEq

/-- The JSON dictionary beside a body. -/
abbrev RowMeta := List (Text × Json)

/-- A row of the section table; an empty fingerprint is `none`. -/
structure SectionRow (δ : Type) where
  id : Uuid
  chapterNumber : Nat
  sectionNumber : Nat
  chapterTitle : Text
  title : Text
  content : Text
  sourceIds : List Uuid
  planHash : Option δ
  locked : Bool
  rowMeta : RowMeta
  qaStatus : QaStatus
  status : SectionStatus
  createdAt : Nat

def SectionRow.position {δ : Type} (r : SectionRow δ) : Nat × Nat :=
  (r.chapterNumber, r.sectionNumber)

def SectionRow.label {δ : Type} (r : SectionRow δ) : Text :=
  sectionLabel r.chapterNumber r.sectionNumber

/-- The rows of a project: the id is the primary key, the position is unique. -/
structure SectionTable (δ : Type) where
  rows : List (SectionRow δ)
  ids : (rows.map (·.id)).Nodup
  positions : (rows.map (·.position)).Nodup

/-- A plan that names no section and no position twice. -/
structure DistinctPlan where
  sections : List SectionPlan
  ids : (sections.map (·.sectionId)).Nodup
  positions : (sections.map fun p => (p.chapterNumber, p.sectionNumber)).Nodup

variable {δ : Type}

def ledgerEntries : Text := "ledger_entries".toList

def chainSummary : Text := "chain_summary".toList

def sectionRef : Text := "section_ref".toList

def sectionKey : Text := "section".toList

/-- Writes a new value under a key, where the old one calls for it. -/
def updateKey (rowMeta : RowMeta) (key : Text) (f : Json → Option Json) : RowMeta :=
  match (rowMeta.lookup key).bind f with
  | some x => setKey rowMeta key x
  | none => rowMeta

/-- An entry that is no dictionary is left alone. -/
def relabelEntry (newLabel : Text) : Json → Json
  | .obj e => .obj (setKey e sectionRef (.str newLabel))
  | e => e

def relabelLedger (newLabel : Text) : Json → Option Json
  | .arr entries => some (.arr (entries.map (relabelEntry newLabel)))
  | _ => none

/-- Only a summary that bears a label gets the new one. -/
def relabelChain (newLabel : Text) : Json → Option Json
  | .obj chain =>
    if (Json.get chain sectionKey).truthy then
      some (.obj (setKey chain sectionKey (.str newLabel)))
    else none
  | _ => none

/-- The labels that a row's own record bears move with the row. -/
def relabelMeta (rowMeta : RowMeta) (newLabel : Text) : RowMeta :=
  updateKey (updateKey rowMeta ledgerEntries (relabelLedger newLabel)) chainSummary
    (relabelChain newLabel)

/-- `p.chapter_title or f"{p.chapter_number}장"` -/
def chapterTitleOf (p : SectionPlan) : Text :=
  if p.chapterTitle.isEmpty then ofNat p.chapterNumber ++ ['장'] else p.chapterTitle

def blankRow (now : Nat) (p : SectionPlan) : SectionRow δ where
  id := p.sectionId
  chapterNumber := p.chapterNumber
  sectionNumber := p.sectionNumber
  chapterTitle := chapterTitleOf p
  title := p.title
  content := []
  sourceIds := []
  planHash := none
  locked := false
  rowMeta := []
  qaStatus := .pending
  status := .pending
  createdAt := now

/-- The columns that name a place come from the plan, all others from the row. -/
def movedRow (prev : SectionRow δ) (p : SectionPlan) : SectionRow δ where
  id := prev.id
  chapterNumber := p.chapterNumber
  sectionNumber := p.sectionNumber
  chapterTitle := chapterTitleOf p
  title := p.title
  content := prev.content
  sourceIds := prev.sourceIds
  planHash := prev.planHash
  locked := prev.locked
  rowMeta := relabelMeta prev.rowMeta (sectionLabel p.chapterNumber p.sectionNumber)
  qaStatus := prev.qaStatus
  status := prev.status
  createdAt := prev.createdAt

def syncRow (now : Nat) (rows : List (SectionRow δ)) (p : SectionPlan) : SectionRow δ :=
  match rows.find? (·.id = p.sectionId) with
  | none => blankRow now p
  | some prev => movedRow prev p

/-- Puts the rows in line with a changed plan; a project without rows stays without. -/
def syncRowsToPlan (now : Nat) (plan : List SectionPlan) (rows : List (SectionRow δ)) :
    List (SectionRow δ) :=
  if rows.isEmpty then [] else plan.map (syncRow now rows)

/-! What a row keeps when it moves. -/

/-- What a move makes of the value of a key. -/
def relabelItem (newLabel key : Text) (x : Json) : Json :=
  if key = ledgerEntries then (relabelLedger newLabel x).getD x
  else if key = chainSummary then (relabelChain newLabel x).getD x
  else x

variable {rowMeta : RowMeta} {label l l' : Text} {key j : Text} {x : Json} {now : Nat}
  {plan : List SectionPlan} {rows : List (SectionRow δ)} {p : SectionPlan} {r r' : SectionRow δ}
  {id : Uuid} {f : Json → Option Json}

theorem lookup_updateKey : (updateKey rowMeta key f).lookup j =
    if j = key then (rowMeta.lookup key).map fun x => (f x).getD x else rowMeta.lookup j := by
  unfold updateKey
  cases hlookup : rowMeta.lookup key with
  | none =>
    simp only [Option.bind_none, Option.map_none]
    split
    · subst j
      exact hlookup
    · rfl
  | some x =>
    cases hf : f x with
    | none =>
      simp only [Option.bind_some, hf, Option.map_some, Option.getD_none]
      split
      · subst j
        exact hlookup
      · rfl
    | some y =>
      simp only [Option.bind_some, hf, Option.map_some, Option.getD_some]
      split
      · subst j
        exact lookup_setKey
      · exact lookup_setKey_ne ‹_›

theorem lookup_relabelMeta : (relabelMeta rowMeta label).lookup key =
    (rowMeta.lookup key).map (relabelItem label key) := by
  have hne : chainSummary ≠ ledgerEntries := by decide
  unfold relabelMeta relabelItem
  simp only [lookup_updateKey]
  by_cases hledger : key = ledgerEntries
  · subst hledger
    simp [hne.symm]
  · by_cases hchain : key = chainSummary
    · subst hchain
      simp [hne]
    · simp [hledger, hchain]

theorem relabelEntry_relabelEntry (x : Json) :
    relabelEntry l' (relabelEntry l x) = relabelEntry l' x := by
  cases x <;> simp [relabelEntry, setKey_setKey]

/-- The label that was given last counts. -/
theorem relabelItem_relabelItem (hl : l ≠ []) (x : Json) :
    relabelItem l' key (relabelItem l key x) = relabelItem l' key x := by
  unfold relabelItem
  split
  · cases x <;> simp [relabelLedger, Function.comp_def, relabelEntry_relabelEntry]
  · split
    · cases x with
      | obj chain =>
        by_cases hc : (Json.get chain sectionKey).truthy
        · have hget : (Json.get (setKey chain sectionKey (.str l)) sectionKey).truthy := by
            rw [Json.get, lookup_setKey]
            simpa [Json.truthy] using hl
          simp only [relabelChain, hc, if_true, Option.getD_some, hget, setKey_setKey]
        · simp only [relabelChain, hc, if_false, Option.getD_none, Bool.false_eq_true]
      | _ => rfl
    · rfl

/-- One row has become the other under moves alone. -/
structure Carried (r r' : SectionRow δ) : Prop where
  id : r'.id = r.id
  content : r'.content = r.content
  sourceIds : r'.sourceIds = r.sourceIds
  planHash : r'.planHash = r.planHash
  locked : r'.locked = r.locked
  qaStatus : r'.qaStatus = r.qaStatus
  status : r'.status = r.status
  createdAt : r'.createdAt = r.createdAt
  rowMeta : ∀ key, r'.rowMeta.lookup key = (r.rowMeta.lookup key).map (relabelItem r'.label key)

/-- The record of a row bears the label that the row has. -/
structure Labelled (r : SectionRow δ) : Prop where
  ledger : ∀ entries, r.rowMeta.lookup ledgerEntries = some (.arr entries) →
    ∀ e, .obj e ∈ entries → e.lookup sectionRef = some (.str r.label)
  chain : ∀ chain, r.rowMeta.lookup chainSummary = some (.obj chain) →
    (Json.get chain sectionKey).truthy → chain.lookup sectionKey = some (.str r.label)

theorem label_ne_nil : r.label ≠ [] := by
  simp [SectionRow.label, sectionLabel]

/-- A move carries the row. -/
theorem carried_movedRow (prev : SectionRow δ) (p : SectionPlan) :
    Carried prev (movedRow prev p) where
  id := rfl
  content := rfl
  sourceIds := rfl
  planHash := rfl
  locked := rfl
  qaStatus := rfl
  status := rfl
  createdAt := rfl
  rowMeta _ := lookup_relabelMeta

/-- Two moves are one. -/
theorem Carried.trans {r'' : SectionRow δ} (h : Carried r r') (h' : Carried r' r'') :
    Carried r r'' where
  id := h'.id.trans h.id
  content := h'.content.trans h.content
  sourceIds := h'.sourceIds.trans h.sourceIds
  planHash := h'.planHash.trans h.planHash
  locked := h'.locked.trans h.locked
  qaStatus := h'.qaStatus.trans h.qaStatus
  status := h'.status.trans h.status
  createdAt := h'.createdAt.trans h.createdAt
  rowMeta key := by
    rw [h'.rowMeta, h.rowMeta, Option.map_map]
    exact Option.map_congr fun x _ => relabelItem_relabelItem label_ne_nil x

theorem labelled_movedRow (prev : SectionRow δ) (p : SectionPlan) :
    Labelled (movedRow prev p) where
  ledger entries h e he := by
    obtain ⟨x, -, hx⟩ := Option.map_eq_some_iff.mp (Eq.trans (Eq.symm lookup_relabelMeta) h)
    simp only [relabelItem, if_true] at hx
    cases x with
    | arr olds =>
      obtain rfl : olds.map (relabelEntry _) = entries := by simpa [relabelLedger] using hx
      obtain ⟨old, -, hold⟩ := List.mem_map.mp he
      cases old with
      | obj fields =>
        obtain rfl : setKey fields _ _ = e := by simpa [relabelEntry] using hold
        exact lookup_setKey
      | _ => simp [relabelEntry] at hold
    | _ => simp [relabelLedger] at hx
  chain chain h ht := by
    have hne : chainSummary ≠ ledgerEntries := by decide
    obtain ⟨x, -, hx⟩ := Option.map_eq_some_iff.mp (Eq.trans (Eq.symm lookup_relabelMeta) h)
    simp only [relabelItem, hne, if_true, if_false] at hx
    cases x with
    | obj old =>
      by_cases hold : (Json.get old sectionKey).truthy
      · obtain rfl : setKey old _ _ = chain := by simpa [relabelChain, hold] using hx
        exact lookup_setKey
      · obtain rfl : old = chain := by simpa [relabelChain, hold] using hx
        exact absurd ht hold
    | _ => simp [relabelChain] at hx

theorem labelled_blankRow : Labelled (blankRow now p : SectionRow δ) where
  ledger _ h := by simp [blankRow] at h
  chain _ h := by simp [blankRow] at h

theorem syncRow_id : (syncRow now rows p).id = p.sectionId := by
  unfold syncRow
  split
  · rfl
  · rename_i prev h
    simpa [movedRow] using List.find?_some h

/-- The place of a row, with the words for it. -/
def SectionRow.place (r : SectionRow δ) : Uuid × Nat × Nat × Text × Text :=
  (r.id, r.chapterNumber, r.sectionNumber, r.chapterTitle, r.title)

def planPlace (p : SectionPlan) : Uuid × Nat × Nat × Text × Text :=
  (p.sectionId, p.chapterNumber, p.sectionNumber, chapterTitleOf p, p.title)

theorem syncRow_place : (syncRow now rows p).place = planPlace p := by
  unfold SectionRow.place planPlace
  rw [syncRow_id]
  unfold syncRow
  split <;> rfl

theorem syncRow_position : (syncRow now rows p).position = (p.chapterNumber, p.sectionNumber) := by
  unfold syncRow
  split <;> rfl

/-- A call of the sync: the plan of the changed outline, and the time. -/
structure Call where
  plan : DistinctPlan
  now : Nat

/-- The table takes the rows of a plan that names nothing twice. -/
def SectionTable.sync (t : SectionTable δ) (call : Call) : SectionTable δ where
  rows := syncRowsToPlan call.now call.plan.sections t.rows
  ids := by
    unfold syncRowsToPlan
    split
    · simp
    · have hids : (call.plan.sections.map (syncRow call.now t.rows)).map (·.id) =
          call.plan.sections.map (·.sectionId) := by
        rw [List.map_map]
        exact List.map_congr_left fun p _ => syncRow_id
      exact hids ▸ call.plan.ids
  positions := by
    unfold syncRowsToPlan
    split
    · simp
    · have hpositions : (call.plan.sections.map (syncRow call.now t.rows)).map (·.position) =
          call.plan.sections.map fun p => (p.chapterNumber, p.sectionNumber) := by
        rw [List.map_map]
        exact List.map_congr_left fun p _ => syncRow_position
      exact hpositions ▸ call.plan.positions

/-- The table behind the first `n` calls. -/
def tableAfter (calls : Nat → Call) (t : SectionTable δ) : Nat → SectionTable δ
  | 0 => t
  | n + 1 => (tableAfter calls t n).sync (calls n)

variable {t : SectionTable δ} {call : Call} {calls : Nat → Call}

theorem find_row (h : r ∈ t.rows) : t.rows.find? (·.id = r.id) = some r := by
  cases hfind : t.rows.find? (·.id = r.id) with
  | none => simpa using List.find?_eq_none.mp hfind r h
  | some r' =>
    have hid : r'.id = r.id := by simpa using List.find?_some hfind
    rw [List.inj_on_of_nodup_map t.ids (List.mem_of_find?_eq_some hfind) h hid]

theorem sync_rows (h : t.rows ≠ []) :
    (t.sync call).rows = call.plan.sections.map (syncRow call.now t.rows) := by
  simp [SectionTable.sync, syncRowsToPlan, h]

/-- What one call does to a row whose section stays in the plan. -/
theorem sync_carried (hr : r ∈ t.rows) (hid : r.id ∈ (t.sync call).rows.map (·.id)) :
    ∃ r' ∈ (t.sync call).rows, Carried r r' := by
  have hne : t.rows ≠ [] := List.ne_nil_of_mem hr
  rw [sync_rows hne] at hid ⊢
  obtain ⟨_, hrow, hid⟩ := List.mem_map.mp hid
  obtain ⟨p, hp, rfl⟩ := List.mem_map.mp hrow
  have hpid : p.sectionId = r.id := Eq.trans (Eq.symm syncRow_id) hid
  refine ⟨_, List.mem_map_of_mem hp, ?_⟩
  have hmoved : syncRow call.now t.rows p = movedRow r p := by
    rw [syncRow, hpid, find_row hr]
  rw [hmoved]
  exact carried_movedRow r p

theorem sync_labelled (hr : r ∈ (t.sync call).rows) : Labelled r := by
  by_cases hne : t.rows = []
  · simp [SectionTable.sync, syncRowsToPlan, hne] at hr
  · rw [sync_rows hne] at hr
    obtain ⟨p, hp, rfl⟩ := List.mem_map.mp hr
    unfold syncRow
    split
    · exact labelled_blankRow
    · exact labelled_movedRow _ p

/-- A row without a past is blank. -/
theorem sync_blank (hr : r ∈ (t.sync call).rows) (hid : r.id ∉ t.rows.map (·.id)) :
    ∃ p ∈ call.plan.sections, r = blankRow call.now p := by
  by_cases hne : t.rows = []
  · simp [SectionTable.sync, syncRowsToPlan, hne] at hr
  · rw [sync_rows hne] at hr
    obtain ⟨p, hp, rfl⟩ := List.mem_map.mp hr
    rw [syncRow_id] at hid
    refine ⟨p, hp, ?_⟩
    have hnone : t.rows.find? (·.id = p.sectionId) = none := by
      refine List.find?_eq_none.mpr fun r hr => ?_
      simpa using fun he => hid (List.mem_map.mpr ⟨r, hr, he⟩)
    rw [syncRow, hnone]

/-- Whatever the outline goes through, the rows follow it. -/
structure RowsFollow (calls : Nat → Call) (t : SectionTable δ) : Prop where
  places : ∀ n, (tableAfter calls t n).rows = [] ∧ (tableAfter calls t (n + 1)).rows = [] ∨
    (tableAfter calls t (n + 1)).rows.map (·.place) = (calls n).plan.sections.map planPlace
  carried : ∀ i j, i < j → ∀ r ∈ (tableAfter calls t i).rows,
    (∀ k, i ≤ k → k ≤ j → r.id ∈ (tableAfter calls t k).rows.map (·.id)) →
    ∃ r' ∈ (tableAfter calls t j).rows, Carried r r'
  labelled : ∀ n, ∀ r ∈ (tableAfter calls t (n + 1)).rows, Labelled r
  back : ∀ n, ∀ r ∈ (tableAfter calls t (n + 1)).rows,
    r.id ∉ (tableAfter calls t n).rows.map (·.id) →
    ∃ p ∈ (calls n).plan.sections, r = blankRow (calls n).now p

theorem carried_tableAfter (i j : Nat) (hij : i < j) :
    ∀ r ∈ (tableAfter calls t i).rows,
      (∀ k, i ≤ k → k ≤ j → r.id ∈ (tableAfter calls t k).rows.map (·.id)) →
      ∃ r' ∈ (tableAfter calls t j).rows, Carried r r' := by
  induction j, hij using Nat.le_induction with
  | base =>
    intro r hr hids
    exact sync_carried hr (hids (i + 1) (by omega) (by omega))
  | succ j hij ih =>
    intro r hr hids
    obtain ⟨r', hr', hc⟩ := ih r hr fun k hik hkj => hids k hik (by omega)
    obtain ⟨r'', hr'', hc'⟩ : ∃ r'' ∈ (tableAfter calls t (j + 1)).rows, Carried r' r'' :=
      sync_carried hr' (hc.id ▸ hids (j + 1) (by omega) (by omega))
    exact ⟨r'', hr'', hc.trans hc'⟩

theorem rows_follow_plan (calls : Nat → Call) (t : SectionTable δ) : RowsFollow calls t where
  places n := by
    by_cases hne : (tableAfter calls t n).rows = []
    · refine .inl ⟨hne, ?_⟩
      simp [tableAfter, SectionTable.sync, syncRowsToPlan, hne]
    · refine .inr ?_
      rw [tableAfter, sync_rows hne, List.map_map]
      exact List.map_congr_left fun p _ => syncRow_place
  carried := carried_tableAfter
  labelled n _ hr := sync_labelled hr
  back n _ hr hid := sync_blank hr hid

end RownRg.Sections

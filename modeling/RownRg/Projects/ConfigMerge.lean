import RownRg.Core.State
import RownRg.Generation.Planner

/-! A saved form replaces the config of a project, all but the keys that the server keeps there. -/

open PyText

namespace RownRg.Projects

open Outlines SectionPlan Generation

/-- The config of a project: a dictionary. -/
structure Config where
  fields : List (Text × Json)
  nodup : (fields.map Prod.fst).Nodup

namespace Config

def empty : Config := ⟨[], List.nodup_nil⟩

def lookup (c : Config) (key : Text) : Option Json := c.fields.lookup key

def get (c : Config) (key : Text) : Json := Json.get c.fields key

def set (c : Config) (key : Text) (value : Json) : Config :=
  ⟨setKey c.fields key value, nodup_setKey c.nodup⟩

/-- The entries whose key passes. -/
def keeping (c : Config) (p : Text → Bool) : Config :=
  ⟨c.fields.filter fun f => p f.1, c.nodup.sublist (List.filter_sublist.map _)⟩

def pop (c : Config) (key : Text) : Config := c.keeping fun k => k != key

/-- `{**base, **more}` -/
def overlay (base more : Config) : Config := more.fields.foldl (fun c f => c.set f.1 f.2) base

variable {c base more : Config} {k j : Text} {x : Json} {p : Text → Bool}

@[simp] theorem lookup_empty : empty.lookup k = none := rfl

@[simp] theorem lookup_set_self : (c.set k x).lookup k = some x := lookup_setKey

theorem lookup_set_ne (h : j ≠ k) : (c.set k x).lookup j = c.lookup j := lookup_setKey_ne h

theorem lookup_keeping : (c.keeping p).lookup k = if p k then c.lookup k else none := by
  obtain ⟨fields, hnodup⟩ := c
  show (fields.filter fun f => p f.1).lookup k = if p k then fields.lookup k else none
  clear hnodup
  induction fields with
  | nil => simp
  | cons f fields ih =>
    obtain ⟨i, y⟩ := f
    by_cases hi : k = i
    · subst hi
      by_cases hp : p k <;> simp [hp, ih]
    · have hne : (k == i) = false := beq_false_of_ne hi
      by_cases hp : p i <;> simp [hp, List.lookup_cons, hne, ih]

theorem lookup_pop_self : (c.pop k).lookup k = none := by
  rw [pop, lookup_keeping]
  simp

theorem lookup_pop_ne (h : j ≠ k) : (c.pop k).lookup j = c.lookup j := by
  rw [pop, lookup_keeping]
  simp [h]

theorem lookup_overlay : (overlay base more).lookup k = (more.lookup k).or (base.lookup k) := by
  obtain ⟨fields, hnodup⟩ := more
  show (fields.foldl (fun c f => c.set f.1 f.2) base).lookup k =
    (fields.lookup k).or (base.lookup k)
  induction fields generalizing base with
  | nil => rfl
  | cons f fields ih =>
    obtain ⟨i, y⟩ := f
    obtain ⟨hi, htail⟩ := List.nodup_cons.mp hnodup
    rw [List.foldl_cons, ih htail]
    by_cases he : k = i
    · subst he
      have hnone : fields.lookup k = none := by
        rw [List.lookup_eq_none_iff]
        intro g hg
        simpa using fun heq => hi (List.mem_map.mpr ⟨g, hg, heq.symm⟩)
      simp [hnone]
    · have hne : (k == i) = false := beq_false_of_ne he
      rw [lookup_set_ne he, List.lookup_cons, hne]

end Config

/-! The outline as the config keeps it. -/

/-- The texts of a list; every other item is passed over. -/
def textItems : Json → List Text
  | .arr xs => xs.filterMap fun
    | .str t => some t
    | _ => none
  | _ => []

/-- `value if isinstance(value, str) else ""` -/
def textOr : Json → Text
  | .str t => t
  | _ => []

def volumeOf (fs : List (Text × Json)) : Volume where
  minChars := Json.get fs "min_chars".toList
  maxChars := Json.get fs "max_chars".toList

/-- A section of the outline. What is no dictionary takes a place and has no title. -/
def readSection (repr : Json → Text) : Json → OutlineSection
  | .obj fs => {
      id := some (Json.toText repr (Json.get fs "id".toList))
      title := textOr (Json.get fs "title".toList)
      direction := textOr (Json.get fs "direction".toList)
      keyPoints := textItems (Json.get fs "key_points".toList)
      analysts := textItems (Json.get fs "analysts".toList)
      buildsOn := textItems (Json.get fs "builds_on".toList)
      volume := volumeOf fs
      volumeTarget :=
        match Json.get fs "volume_target".toList with
        | .obj gs => some (volumeOf gs)
        | _ => none }
  | _ => ⟨none, [], [], [], [], [], ⟨.null, .null⟩, none⟩

/-- The items of a list, none for what a loop runs through without finding a dictionary, and
`none` where the loop raises. -/
def dictItems (x : Json) : Option (List Json) :=
  match x.orElse (.arr []) with
  | .arr xs => some xs
  | x => x.items?.map fun _ => []

def readChapter (repr : Json → Text) : Json → Option OutlineChapter
  | .obj fs => (dictItems (Json.get fs "sections".toList)).map fun secs => {
      id := some (Json.toText repr (Json.get fs "id".toList))
      title := textOr (Json.get fs "title".toList)
      sections := secs.map (readSection repr) }
  | _ => some ⟨none, [], []⟩

/-- The outline under its key; `none` where going through it raises. -/
def readOutline (repr : Json → Text) (x : Json) : Option Outline :=
  match x.orElse (.obj []) with
  | .obj fs => (dictItems (Json.get fs "chapters".toList)).bind fun chs =>
      chs.mapM (readChapter repr)
  | _ => some []

/-! The merge. -/

def outlineKey : Text := "outline".toList
def cancelledFromKey : Text := "cancelled_from".toList
def resumeFromKey : Text := "resume_from".toList
def designPlanKey : Text := "_design_plan".toList
def rehearsalReopensKey : Text := "_rehearsal_reopens".toList

/-- `_INTERNAL_CONFIG_KEYS` -/
def internalConfigKeys : List Text :=
  [cancelledFromKey, "verify_resolved".toList, "_evidence_composition".toList,
    "_verify_stamp".toList, "models".toList, "analysts".toList, sectionPlanKey, designPlanKey,
    rehearsalReopensKey]

/-- The plan of a changed outline: a section that is still there takes over its queries. -/
def mergeSectionPlan (fresh : Nat → Uuid) (oldPlan : List SectionPlan) (outline : Outline) :
    Option (List SectionPlan) :=
  (planFromOutline fresh outline).map fun newPlan => newPlan.map fun p =>
    match lastFor p.sectionId (oldPlan.map fun q => (q.sectionId, q)) with
    | some prev =>
      if p.searchQueries.isEmpty && !prev.searchQueries.isEmpty then
        { p with searchQueries := prev.searchQueries }
      else p
    | none => p

/-- The config that a save leaves; `none` where the save raises. -/
def mergeConfigUpdate (repr : Json → Text) (fresh : Nat → Uuid) (current : Option Config)
    (incoming : Config) : Option Config :=
  let current := current.getD Config.empty
  let keep := current.keeping (· ∈ internalConfigKeys)
  if Json.same (incoming.get outlineKey) (current.get outlineKey) then
    some (incoming.overlay keep)
  else do
    let oldPlan := loadSectionPlan repr (keep.get sectionPlanKey)
    let keep := keep.pop sectionPlanKey
    let keep ←
      if oldPlan.isEmpty then some keep
      else
        match mergeSectionPlan fresh oldPlan (← readOutline repr (incoming.get outlineKey)) with
        | some merged => some (keep.set sectionPlanKey (dumpSectionPlan merged))
        | none => some keep
    return incoming.overlay ((keep.pop designPlanKey).pop rehearsalReopensKey)

/-! What only the server writes. -/

/-- The keys that only the server writes and that no outline decides. -/
def serverKeys : List Text :=
  [cancelledFromKey, resumeFromKey, "verify_resolved".toList, "_evidence_composition".toList,
    "_verify_stamp".toList, "models".toList, "analysts".toList]

/-- The keys that follow the outline. -/
def outlineKeys : List Text := [sectionPlanKey, designPlanKey, rehearsalReopensKey]

/-- The ids of the sections of an outline. -/
def sectionIds (o : Outline) : List Uuid := (sections o).filterMap fun s => s.id.bind Uuid.parse

/-- The entry of a section in the plan that a config keeps. -/
def planned (repr : Json → Text) (c : Config) (id : Uuid) : Option SectionPlan :=
  lastFor id ((loadSectionPlan repr (c.get sectionPlanKey)).map fun p => (p.sectionId, p))

def sameOutline (current incoming : Config) : Bool :=
  Json.same (incoming.get outlineKey) (current.get outlineKey)

/-- A save keeps what the server wrote, and the queries of the sections that stay. -/
structure KeepsServerState (repr : Json → Text) (current incoming saved : Config) : Prop where
  server : ∀ k ∈ serverKeys, saved.lookup k = current.lookup k
  unchanged : sameOutline current incoming →
    ∀ k ∈ outlineKeys, saved.lookup k = current.lookup k
  changed : sameOutline current incoming = false →
    ∀ o ∈ readOutline repr (current.get outlineKey),
    ∀ o' ∈ readOutline repr (incoming.get outlineKey),
    ∀ id ∈ sectionIds o, id ∈ sectionIds o' → ∀ p ∈ planned repr current id,
      ∃ p' ∈ planned repr saved id, p'.searchQueries = p.searchQueries

/-- A section with this id has a title and stands among the sections that a plan takes. -/
def Plannable (o : Outline) (id : Uuid) : Prop :=
  ∃ e ∈ (titled o).take maxSections, e.2.2.2.id.bind Uuid.parse = some id

/-- The form carries the server's resume point, no key of the server that the config lacks,
and a changed outline plans every section that has queries to keep. -/
structure Harmless (repr : Json → Text) (current incoming : Config) : Prop where
  resume : incoming.lookup resumeFromKey = current.lookup resumeFromKey
  absent : ∀ k ∈ serverKeys, current.lookup k = none → incoming.lookup k = none
  unchanged : sameOutline current incoming →
    ∀ k ∈ outlineKeys, current.lookup k = none → incoming.lookup k = none
  changed : sameOutline current incoming = false →
    ∀ o ∈ readOutline repr (current.get outlineKey),
    ∀ o' ∈ readOutline repr (incoming.get outlineKey),
    ∀ id ∈ sectionIds o, id ∈ sectionIds o' → ∀ p ∈ planned repr current id,
      Plannable o' id ∨ titled o' = [] ∧
        ∃ p' ∈ planned repr incoming id, p'.searchQueries = p.searchQueries

variable {repr : Json → Text} {fresh : Nat → Uuid} {current incoming saved : Config} {k : Text}
  {o o' : Outline} {id : Uuid} {maps : PositionMaps} {st : PlanIds} {n : Nat} {p : SectionPlan}
  {plan oldPlan merged : List SectionPlan} {entries : List (Text × Nat × Nat × OutlineSection)}

/-! The ids of a plan. -/

theorem take_planSections :
    (planSections fresh maps st entries).take n = planSections fresh maps st (entries.take n) := by
  induction entries generalizing st n with
  | nil => simp [planSections]
  | cons e entries ih =>
    obtain ⟨title, ci, si, sec⟩ := e
    cases n with
    | zero => rfl
    | succ n => simp [planSections, ih]

/-- A section with an id is planned under it, or the id was taken before. -/
theorem mem_planSections {e : Text × Nat × Nat × OutlineSection} (he : e ∈ entries)
    (hid : e.2.2.2.id.bind Uuid.parse = some id) :
    id ∈ st.seen ∨ ∃ p ∈ planSections fresh maps st entries, p.sectionId = id := by
  induction entries generalizing st with
  | nil => cases he
  | cons d entries ih =>
    obtain ⟨title, ci, si, sec⟩ := d
    have hseen : ∀ {v}, v ∈ (outlineSectionId fresh st sec).2.seen →
        v ∈ st.seen ∨ v = (outlineSectionId fresh st sec).1 := by
      intro v hv
      unfold outlineSectionId at hv ⊢
      cases hparse : sec.id.bind Uuid.parse <;> simp only [hparse] at hv ⊢ <;> split at hv <;>
        simp_all <;> tauto
    rcases List.mem_cons.mp he with rfl | he
    · by_cases hmem : id ∈ st.seen
      · exact .inl hmem
      · refine .inr ⟨_, List.mem_cons_self, ?_⟩
        simp [planSection, outlineSectionId, show sec.id.bind Uuid.parse = some id from hid, hmem]
    · have hrest : id ∈ (outlineSectionId fresh st sec).2.seen ∨
          ∃ p ∈ planSections fresh maps (outlineSectionId fresh st sec).2 entries,
            p.sectionId = id := ih he
      rcases hrest with h | ⟨p, hp, hpid⟩
      · rcases hseen h with h | rfl
        · exact .inl h
        · exact .inr ⟨_, List.mem_cons_self, rfl⟩
      · exact .inr ⟨p, List.mem_cons_of_mem _ hp, hpid⟩

theorem given_or_drawn {sec : OutlineSection} :
    sec.id.bind Uuid.parse = some (outlineSectionId fresh st sec).1 ∨
      ∃ i, (outlineSectionId fresh st sec).1 = fresh i := by
  unfold outlineSectionId
  cases hparse : sec.id.bind Uuid.parse with
  | none =>
    right
    dsimp only
    split
    · exact ⟨_, rfl⟩
    · exact ⟨_, rfl⟩
  | some sid =>
    dsimp only
    split
    · exact .inr ⟨_, rfl⟩
    · exact .inl rfl

/-- An id of the plan is one of the outline or one that was drawn. -/
theorem of_mem_planSections (hp : p ∈ planSections fresh maps st entries) :
    (∃ e ∈ entries, e.2.2.2.id.bind Uuid.parse = some p.sectionId) ∨
      ∃ i, p.sectionId = fresh i := by
  induction entries generalizing st with
  | nil => cases hp
  | cons e entries ih =>
    obtain ⟨title, ci, si, sec⟩ := e
    rcases List.mem_cons.mp hp with rfl | hp
    · rcases given_or_drawn with h | h
      · exact .inl ⟨_, List.mem_cons_self, h⟩
      · exact .inr h
    · rcases ih hp with ⟨d, hd, hid⟩ | h
      · exact .inl ⟨d, List.mem_cons_of_mem _ hd, hid⟩
      · exact .inr h

theorem planSections_eq_nil : planSections fresh maps st entries = [] ↔ entries = [] := by
  cases entries with
  | nil => simp [planSections]
  | cons e entries => simp [planSections]

theorem planFromOutline_eq_none : planFromOutline fresh o = none ↔ titled o = [] := by
  simp [planFromOutline, planSections_eq_nil]

theorem planFromOutline_eq_some (h : planFromOutline fresh o = some plan) :
    plan = planSections fresh (positionMaps o) ⟨[], 0⟩ ((titled o).take maxSections) := by
  simp only [planFromOutline] at h
  split at h
  · cases h
  · rw [← Option.some.inj h, take_planSections]

/-- A section of the outline is in the plan exactly when the plan had room and a title for it. -/
theorem plannable_iff (hplan : planFromOutline fresh o = some plan) (hnew : NewTo fresh o)
    (hid : id ∈ sectionIds o) : Plannable o id ↔ ∃ p ∈ plan, p.sectionId = id := by
  rw [planFromOutline_eq_some hplan]
  constructor
  · rintro ⟨e, he, hparse⟩
    have hmem : id ∈ (⟨[], 0⟩ : PlanIds).seen ∨ ∃ p ∈ planSections fresh (positionMaps o) ⟨[], 0⟩
        ((titled o).take maxSections), p.sectionId = id := mem_planSections he hparse
    exact hmem.resolve_left List.not_mem_nil
  · rintro ⟨p, hp, rfl⟩
    rcases of_mem_planSections hp with ⟨e, he, hparse⟩ | ⟨i, hi⟩
    · exact ⟨e, he, hparse⟩
    · obtain ⟨s, hs, hparse⟩ := List.mem_filterMap.mp hid
      exact absurd (hi ▸ hparse) (hnew i s hs)

theorem searchQueries_planSections (hp : p ∈ planSections fresh maps st entries) :
    p.searchQueries = [] := by
  induction entries generalizing st with
  | nil => cases hp
  | cons e entries ih =>
    obtain ⟨title, ci, si, sec⟩ := e
    rcases List.mem_cons.mp hp with rfl | hp
    · rfl
    · exact ih hp

/-- A merged section stands for a section of the new plan, with the queries it had. -/
theorem mem_mergeSectionPlan (h : mergeSectionPlan fresh oldPlan o = some merged)
    (hplan : planFromOutline fresh o = some plan) :
    (∀ p ∈ merged, (∃ q ∈ plan, q.sectionId = p.sectionId) ∧
      ∀ prev ∈ lastFor p.sectionId (oldPlan.map fun q => (q.sectionId, q)),
        p.searchQueries = prev.searchQueries) ∧
      ∀ q ∈ plan, ∃ p ∈ merged, p.sectionId = q.sectionId := by
  rw [mergeSectionPlan, hplan, Option.map_some] at h
  obtain rfl := Option.some.inj h
  have hnone : ∀ q ∈ plan, q.searchQueries = [] := by
    rw [planFromOutline_eq_some hplan]
    exact fun q hq => searchQueries_planSections hq
  constructor
  · intro p hp
    obtain ⟨q, hq, rfl⟩ := List.mem_map.mp hp
    cases hprev : lastFor q.sectionId (oldPlan.map fun q => (q.sectionId, q)) with
    | none =>
      refine ⟨⟨q, hq, rfl⟩, fun prev hmem => ?_⟩
      rw [hprev] at hmem
      cases hmem
    | some prev =>
      by_cases hempty : prev.searchQueries = []
      · refine ⟨⟨q, hq, by simp [hempty]⟩, fun r hr => ?_⟩
        have hr' : prev = r := by simpa [hempty, hprev] using hr
        simp [← hr', hempty, hnone q hq]
      · refine ⟨⟨q, hq, by simp [hempty, hnone q hq]⟩, fun r hr => ?_⟩
        have hr' : prev = r := by simpa [hempty, hprev, hnone q hq] using hr
        simp [← hr', hempty, hnone q hq]
  · intro q hq
    refine ⟨_, List.mem_map_of_mem hq, ?_⟩
    split
    · split
      · rfl
      · rfl
    · rfl

/-! What a save leaves. -/

/-- The entries that a save takes from the current config. -/
theorem mergeConfigUpdate_cases
    (h : mergeConfigUpdate repr fresh (some current) incoming = some saved) :
    ∃ keep : Config, saved = incoming.overlay keep ∧
      (∀ k ∉ outlineKeys, keep.lookup k =
        if k ∈ internalConfigKeys then current.lookup k else none) ∧
      (sameOutline current incoming → ∀ k ∈ outlineKeys, keep.lookup k = current.lookup k) ∧
      (sameOutline current incoming = false →
        loadSectionPlan repr (current.get sectionPlanKey) = [] ∨
          ∃ o ∈ readOutline repr (incoming.get outlineKey),
            (mergeSectionPlan fresh (loadSectionPlan repr (current.get sectionPlanKey)) o).map
              dumpSectionPlan = keep.lookup sectionPlanKey) := by
  have hget : (current.keeping (· ∈ internalConfigKeys)).get sectionPlanKey =
      current.get sectionPlanKey := by
    have hlookup : (current.keeping (· ∈ internalConfigKeys)).lookup sectionPlanKey =
        current.lookup sectionPlanKey := by
      rw [Config.lookup_keeping]
      rfl
    exact congrArg (Option.getD · Json.null) hlookup
  have hinternal : ∀ {k : Text}, (current.keeping (· ∈ internalConfigKeys)).lookup k =
      if k ∈ internalConfigKeys then current.lookup k else none := by
    intro k
    simp [Config.lookup_keeping]
  unfold mergeConfigUpdate at h
  simp only [Option.getD_some, hget] at h
  split at h
  · rename_i hsame
    refine ⟨_, (Option.some.inj h).symm, fun k _ => hinternal, fun _ k hk => ?_, fun hne => ?_⟩
    · have hmem : k ∈ internalConfigKeys := List.mem_append_right (internalConfigKeys.take 6) hk
      rw [hinternal, if_pos hmem]
    · exact absurd hsame (by simpa [sameOutline] using hne)
  · rename_i hdiffer
    have hpops : ∀ (keep : Config) {k : Text}, k ≠ designPlanKey → k ≠ rehearsalReopensKey →
        ((keep.pop designPlanKey).pop rehearsalReopensKey).lookup k = keep.lookup k :=
      fun keep k h₁ h₂ => by rw [Config.lookup_pop_ne h₂, Config.lookup_pop_ne h₁]
    have houter : ∀ {k : Text}, k ∉ outlineKeys →
        k ≠ sectionPlanKey ∧ k ≠ designPlanKey ∧ k ≠ rehearsalReopensKey := by
      intro k hk
      simpa [outlineKeys] using hk
    have hsection : sectionPlanKey ≠ designPlanKey ∧ sectionPlanKey ≠ rehearsalReopensKey := by
      decide
    have hsame : ¬ sameOutline current incoming := hdiffer
    split at h
    · rename_i hempty
      refine ⟨_, (Option.some.inj h).symm, fun k hk => ?_, fun hs => absurd hs hsame, fun _ => ?_⟩
      · obtain ⟨h₁, h₂, h₃⟩ := houter hk
        rw [hpops _ h₂ h₃, Config.lookup_pop_ne h₁, hinternal]
      · exact .inl (List.isEmpty_iff.mp hempty)
    · cases hread : readOutline repr (incoming.get outlineKey) with
      | none => simp [hread] at h
      | some o =>
        simp only [hread, Option.bind_eq_bind, Option.bind_some] at h
        split at h
        · rename_i merged hmerged
          refine ⟨_, (Option.some.inj h).symm, fun k hk => ?_, fun hs => absurd hs hsame,
            fun _ => .inr ⟨o, rfl, ?_⟩⟩
          · obtain ⟨h₁, h₂, h₃⟩ := houter hk
            rw [hpops _ h₂ h₃, Config.lookup_set_ne h₁, Config.lookup_pop_ne h₁, hinternal]
          · rw [hpops _ hsection.1 hsection.2, Config.lookup_set_self, hmerged, Option.map_some]
        · rename_i hmerged
          refine ⟨_, (Option.some.inj h).symm, fun k hk => ?_, fun hs => absurd hs hsame,
            fun _ => .inr ⟨o, rfl, ?_⟩⟩
          · obtain ⟨h₁, h₂, h₃⟩ := houter hk
            rw [hpops _ h₂ h₃, Config.lookup_pop_ne h₁, hinternal]
          · rw [hpops _ hsection.1 hsection.2, Config.lookup_pop_self, hmerged, Option.map_none]

theorem planned_merged {keep : Config}
    (h : keep.lookup sectionPlanKey = some (dumpSectionPlan merged)) :
    planned repr keep id = (lastFor id (merged.map fun p => (p.sectionId, p))).map withoutLength := by
  have hget : keep.get sectionPlanKey = dumpSectionPlan merged := congrArg (Option.getD · Json.null) h
  rw [planned, hget, loadSectionPlan_stored repr (Json.stored_refl _), lastFor, lastFor,
    List.map_map, ← List.map_reverse, ← List.map_reverse]
  induction merged.reverse with
  | nil => rfl
  | cons p plan ih =>
    by_cases hp : id = p.sectionId
    · subst hp
      simp [withoutLength]
    · have hne : (id == p.sectionId) = false := beq_false_of_ne hp
      simpa [List.lookup_cons, hne, withoutLength] using ih

theorem of_lastFor_sectionId (h : lastFor id (plan.map fun p => (p.sectionId, p)) = some p) :
    p ∈ plan ∧ p.sectionId = id := by
  obtain ⟨q, hq, heq⟩ := List.mem_map.mp (mem_of_lastFor h)
  obtain ⟨rfl, rfl⟩ := Prod.mk.inj heq
  exact ⟨hq, rfl⟩

/-- The merged plan keeps the queries of a section exactly when it plans the section. -/
theorem queries_kept_iff (hmerged : mergeSectionPlan fresh oldPlan o = some merged)
    (hplan : planFromOutline fresh o = some plan) (hnew : NewTo fresh o) (hid : id ∈ sectionIds o)
    (hp : lastFor id (oldPlan.map fun q => (q.sectionId, q)) = some p) :
    (∃ p' ∈ (lastFor id (merged.map fun q => (q.sectionId, q))).map withoutLength,
      p'.searchQueries = p.searchQueries) ↔ Plannable o id := by
  obtain ⟨hfrom, hto⟩ := mem_mergeSectionPlan hmerged hplan
  rw [plannable_iff hplan hnew hid]
  constructor
  · rintro ⟨p', hp', -⟩
    obtain ⟨r, hr, -⟩ := Option.map_eq_some_iff.mp hp'
    obtain ⟨hmem, rfl⟩ := of_lastFor_sectionId hr
    exact (hfrom r hmem).1
  · rintro ⟨q, hq, rfl⟩
    obtain ⟨r, hr, hrid⟩ := hto q hq
    have hentry : (q.sectionId, r) ∈ merged.map fun q => (q.sectionId, q) :=
      List.mem_map.mpr ⟨r, hr, by rw [hrid]⟩
    obtain ⟨r', hr'⟩ := Option.isSome_iff_exists.mp (lastFor_isSome hentry)
    obtain ⟨hmem, hid'⟩ := of_lastFor_sectionId hr'
    refine ⟨withoutLength r', by rw [hr']; rfl, ?_⟩
    exact (hfrom r' hmem).2 p (by rw [hid']; exact hp)

theorem lookup_or_eq {x y : Option Json} : x.or y = x ↔ (x = none → y = none) := by
  cases x <;> simp

/-- The server's keys are kept exactly when the form brings none that the config lacks. -/
theorem server_iff {keep : Config} (incoming : Config) (hkeep : ∀ k ∉ outlineKeys, keep.lookup k =
      if k ∈ internalConfigKeys then current.lookup k else none) :
    (∀ k ∈ serverKeys, (incoming.overlay keep).lookup k = current.lookup k) ↔
      incoming.lookup resumeFromKey = current.lookup resumeFromKey ∧
        ∀ k ∈ serverKeys, current.lookup k = none → incoming.lookup k = none := by
  have hresume : keep.lookup resumeFromKey = none := by
    rw [hkeep _ (by decide), if_neg (by decide)]
  have hother : ∀ k ∈ serverKeys, k ≠ resumeFromKey → keep.lookup k = current.lookup k := by
    intro k hk hne
    have hout : k ∉ outlineKeys := by
      revert k
      decide
    rw [hkeep k hout, if_pos]
    revert k
    decide
  constructor
  · intro hall
    have hpoint := hall resumeFromKey (by decide)
    rw [Config.lookup_overlay, hresume, Option.none_or] at hpoint
    refine ⟨hpoint, fun k hk hnone => ?_⟩
    by_cases hr : k = resumeFromKey
    · rw [hr, hpoint, ← hr, hnone]
    · have hk' := hall k hk
      rw [Config.lookup_overlay, hother k hk hr] at hk'
      exact lookup_or_eq.1 hk' hnone
  · rintro ⟨hpoint, hall⟩ k hk
    rw [Config.lookup_overlay]
    by_cases hr : k = resumeFromKey
    · rw [hr, hresume, Option.none_or, hpoint]
    · rw [hother k hk hr]
      exact lookup_or_eq.2 (hall k hk)

theorem server_of_harmless
    (h : mergeConfigUpdate repr fresh (some current) incoming = some saved)
    (hok : Harmless repr current incoming) :
    ∀ k ∈ serverKeys, saved.lookup k = current.lookup k := by
  obtain ⟨keep, rfl, hkeep, -, -⟩ := mergeConfigUpdate_cases h
  exact (server_iff incoming hkeep).mpr ⟨hok.resume, hok.absent⟩

/-- A save keeps the server's state exactly when its form is harmless. -/
theorem keepsServerState_iff_harmless
    (h : mergeConfigUpdate repr fresh (some current) incoming = some saved)
    (hnew : ∀ o ∈ readOutline repr (incoming.get outlineKey), NewTo fresh o) :
    KeepsServerState repr current incoming saved ↔ Harmless repr current incoming := by
  obtain ⟨keep, rfl, hkeep, hsame, hdiffer⟩ := mergeConfigUpdate_cases h
  have hserver := server_iff incoming hkeep
  have hunchanged : ∀ hs : sameOutline current incoming,
      (∀ k ∈ outlineKeys, (incoming.overlay keep).lookup k = current.lookup k) ↔
        ∀ k ∈ outlineKeys, current.lookup k = none → incoming.lookup k = none := by
    intro hs
    refine forall₂_congr fun k hk => ?_
    rw [Config.lookup_overlay, hsame hs k hk, lookup_or_eq]
  have hchanged : ∀ hd : sameOutline current incoming = false,
      ∀ o' ∈ readOutline repr (incoming.get outlineKey), ∀ id ∈ sectionIds o',
      ∀ p ∈ planned repr current id,
        ((∃ p' ∈ planned repr (incoming.overlay keep) id, p'.searchQueries = p.searchQueries) ↔
          Plannable o' id ∨ titled o' = [] ∧
            ∃ p' ∈ planned repr incoming id, p'.searchQueries = p.searchQueries) := by
    intro hd o' ho' id hid p hp
    rcases hdiffer hd with hempty | ⟨o, ho, hmerged⟩
    · rw [planned, hempty] at hp
      cases hp
    · obtain rfl := Option.mem_unique ho ho'
      cases hplan : planFromOutline fresh o with
      | none =>
        have hnil := planFromOutline_eq_none.1 hplan
        have hlookup : (incoming.overlay keep).lookup sectionPlanKey =
            incoming.lookup sectionPlanKey := by
          rw [Config.lookup_overlay, ← hmerged, mergeSectionPlan, hplan]
          rfl
        have hget : (incoming.overlay keep).get sectionPlanKey = incoming.get sectionPlanKey :=
          congrArg (Option.getD · Json.null) hlookup
        have hunplanned : ¬ Plannable o id := by
          rintro ⟨e, he, -⟩
          rw [hnil] at he
          cases he
        rw [planned, hget, ← planned]
        simp [hunplanned, hnil]
      | some plan =>
        have htitled : titled o ≠ [] := fun hnil => by
          rw [planFromOutline_eq_none.2 hnil] at hplan
          cases hplan
        cases hmerge : mergeSectionPlan fresh (loadSectionPlan repr (current.get sectionPlanKey)) o with
        | none => simp [mergeSectionPlan, hplan] at hmerge
        | some merged =>
          rw [hmerge, Option.map_some] at hmerged
          have hlookup : (incoming.overlay keep).lookup sectionPlanKey =
              some (dumpSectionPlan merged) := by
            rw [Config.lookup_overlay, ← hmerged]
            rfl
          rw [planned_merged hlookup, queries_kept_iff hmerge hplan (hnew o ho) hid hp]
          simp [htitled]
  constructor
  · rintro ⟨h₁, h₂, h₃⟩
    obtain ⟨hpoint, habsent⟩ := hserver.mp h₁
    refine ⟨hpoint, habsent, fun hs => (hunchanged hs).mp (h₂ hs), ?_⟩
    intro hd o ho o' ho' id hid hid' p hp
    exact (hchanged hd o' ho' id hid' p hp).mp (h₃ hd o ho o' ho' id hid hid' p hp)
  · rintro ⟨hpoint, habsent, h₂, h₃⟩
    refine ⟨hserver.mpr ⟨hpoint, habsent⟩, fun hs => (hunchanged hs).mpr (h₂ hs), ?_⟩
    intro hd o ho o' ho' id hid hid' p hp
    exact (hchanged hd o' ho' id hid' p hp).mpr (h₃ hd o ho o' ho' id hid hid' p hp)

end RownRg.Projects

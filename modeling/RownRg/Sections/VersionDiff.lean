import Mathlib.Data.List.Perm.Basic
import RownRg.Sections.Versions

/-! Two versions of a report compared section by section. -/

open PyText

namespace RownRg.Sections

/-- A section as a version keeps it, with its titles. -/
structure SnapSection (ι : Type) extends SectionSnap ι where
  chapterTitle : Text
  title : Text
  deriving DecidableEq

/-- The sections of a version; the id is the key. -/
structure Snapshot (ι : Type) where
  sections : List (SnapSection ι)
  distinct : (sections.map (·.sectionId)).Nodup

inductive DiffStatus where
  | added | removed | modified | unchanged
  deriving DecidableEq

structure DiffEntry (ι : Type) where
  sectionId : ι
  status : DiffStatus
  moved : Bool
  base : Option (SnapSection ι)
  target : Option (SnapSection ι)

variable {ι : Type} [DecidableEq ι] {base target rest sections : List (SnapSection ι)}
  {s t : SnapSection ι} {ids : List ι} {id : ι} {key prev : Option ι}

/-- `entry(s, None)` -/
def goneEntry (s : SnapSection ι) : DiffEntry ι := ⟨s.sectionId, .removed, false, some s, none⟩

/-- `entry(base_by_id.get(s["section_id"]), s)` -/
def liveEntry : Option (SnapSection ι) → SnapSection ι → DiffEntry ι
  | none, s => ⟨s.sectionId, .added, false, none, some s⟩
  | some b, s =>
    let modified := b.content ≠ s.content ∨ b.title ≠ s.title
    let moved := (b.chapterNumber, b.sectionNumber) ≠ (s.chapterNumber, s.sectionNumber)
    ⟨b.sectionId, if modified then .modified else .unchanged, decide moved, some b, some s⟩

/-- `base_by_id.get(id)`: the last section of the id. -/
def baseById (base : List (SnapSection ι)) (id : ι) : Option (SnapSection ι) :=
  base.reverse.find? fun s => s.sectionId = id

/-- One turn of the loop that fills `removed_after`, with `prev_alive`. -/
def noteRemoved (targetIds : List ι) (st : (Option ι → List (SnapSection ι)) × Option ι)
    (s : SnapSection ι) : (Option ι → List (SnapSection ι)) × Option ι :=
  if s.sectionId ∈ targetIds then (st.1, some s.sectionId)
  else (Function.update st.1 st.2 (st.1 st.2 ++ [s]), st.2)

def removedAfter (targetIds : List ι) (base : List (SnapSection ι)) :
    Option ι → List (SnapSection ι) :=
  (base.foldl (noteRemoved targetIds) (fun _ => [], none)).1

def diffSections (base target : List (SnapSection ι)) : List (DiffEntry ι) :=
  let targetIds := target.map (·.sectionId)
  let out := (removedAfter targetIds base none).map goneEntry ++ target.flatMap fun s =>
    liveEntry (baseById base s.sectionId) s ::
      (removedAfter targetIds base (some s.sectionId)).map goneEntry
  let emitted := out.map (·.sectionId)
  out ++ (base.filter fun s => s.sectionId ∉ emitted).map goneEntry

/-! What the comparison should show. -/

/-- The sections in front of the first one that survives. -/
def goneFirst (targetIds : List ι) (base : List (SnapSection ι)) : List (SnapSection ι) :=
  base.takeWhile fun s => s.sectionId ∉ targetIds

/-- The sections behind the one with the id, up to the next one that survives. -/
def goneBehind (targetIds : List ι) (base : List (SnapSection ι)) (id : ι) :
    List (SnapSection ι) :=
  goneFirst targetIds ((base.dropWhile fun s => s.sectionId ≠ id).drop 1)

/-- Status and move of an entry follow from the sections of its id in the two versions. -/
def Documented (base target : List (SnapSection ι)) (e : DiffEntry ι) : Prop :=
  e.base = base.find? (·.sectionId = e.sectionId) ∧
  e.target = target.find? (·.sectionId = e.sectionId) ∧
  match e.base, e.target with
  | none, none => False
  | none, some _ => e.status = .added ∧ e.moved = false
  | some _, none => e.status = .removed ∧ e.moved = false
  | some b, some t =>
    (e.status = if b.title = t.title ∧ b.content = t.content then .unchanged else .modified) ∧
    (e.moved = true ↔
      (b.chapterNumber, b.sectionNumber) ≠ (t.chapterNumber, t.sectionNumber))

/-! The removed sections, each with the last surviving one in front of it. -/

def taggedFrom (targetIds : List ι) : Option ι → List (SnapSection ι) →
    List (Option ι × SnapSection ι)
  | _, [] => []
  | prev, s :: rest =>
    if s.sectionId ∈ targetIds then taggedFrom targetIds (some s.sectionId) rest
    else (prev, s) :: taggedFrom targetIds prev rest

/-- The removed sections that carry the tag. -/
def taggedWith (key : Option ι) (tagged : List (Option ι × SnapSection ι)) :
    List (SnapSection ι) :=
  (tagged.filter fun x => x.1 = key).map (·.2)

theorem taggedFrom_alive (h : s.sectionId ∈ ids) :
    taggedFrom ids prev (s :: base) = taggedFrom ids (some s.sectionId) base :=
  if_pos h

theorem taggedFrom_gone (h : s.sectionId ∉ ids) :
    taggedFrom ids prev (s :: base) = (prev, s) :: taggedFrom ids prev base :=
  if_neg h

theorem removedAfter_eq (targetIds : List ι) (base : List (SnapSection ι)) (key : Option ι) :
    removedAfter targetIds base key = taggedWith key (taggedFrom targetIds none base) := by
  have hrun : ∀ (base : List (SnapSection ι)) (after : Option ι → List (SnapSection ι)) prev,
      (base.foldl (noteRemoved targetIds) (after, prev)).1 key =
        after key ++ taggedWith key (taggedFrom targetIds prev base) := by
    intro base
    induction base with
    | nil =>
      intro after prev
      exact (List.append_nil _).symm
    | cons s base ih =>
      intro after prev
      rw [List.foldl_cons]
      by_cases halive : s.sectionId ∈ targetIds
      · rw [noteRemoved, if_pos halive, ih, taggedFrom_alive halive]
      · rw [noteRemoved, if_neg halive, ih, taggedFrom_gone halive]
        by_cases hkey : key = prev
        · subst hkey
          simp [taggedWith]
        · have hne : prev ≠ key := fun h => hkey h.symm
          simp [taggedWith, Function.update_of_ne hkey, hne]
  simpa [removedAfter] using hrun base (fun _ => []) none

theorem map_taggedFrom (targetIds : List ι) (prev : Option ι) (base : List (SnapSection ι)) :
    (taggedFrom targetIds prev base).map (·.2) =
      base.filter fun s => s.sectionId ∉ targetIds := by
  induction base generalizing prev with
  | nil => rfl
  | cons s base ih =>
    by_cases halive : s.sectionId ∈ targetIds
    · simp [taggedFrom_alive halive, halive, ih]
    · simp [taggedFrom_gone halive, halive, ih]

theorem mem_taggedFrom {x : Option ι × SnapSection ι} (hx : x ∈ taggedFrom ids prev base) :
    x.1 = prev ∨ ∃ s ∈ base, s.sectionId ∈ ids ∧ x.1 = some s.sectionId := by
  induction base generalizing prev with
  | nil => cases hx
  | cons s base ih =>
    by_cases halive : s.sectionId ∈ ids
    · rw [taggedFrom_alive halive] at hx
      rcases ih hx with h | ⟨t, ht, hid, h⟩
      · exact .inr ⟨s, List.mem_cons_self, halive, h⟩
      · exact .inr ⟨t, List.mem_cons_of_mem _ ht, hid, h⟩
    · rw [taggedFrom_gone halive] at hx
      rcases List.mem_cons.mp hx with rfl | hx
      · exact .inl rfl
      · rcases ih hx with h | ⟨t, ht, hid, h⟩
        · exact .inl h
        · exact .inr ⟨t, List.mem_cons_of_mem _ ht, hid, h⟩

theorem taggedWith_nil (hprev : prev ≠ key) (hbase : ∀ s ∈ base, key ≠ some s.sectionId) :
    taggedWith key (taggedFrom ids prev base) = [] := by
  rw [taggedWith, List.map_eq_nil_iff, List.filter_eq_nil_iff]
  intro x hx heq
  obtain rfl : x.1 = key := by simpa using heq
  rcases mem_taggedFrom hx with h | ⟨s, hs, -, h⟩
  · exact hprev h.symm
  · exact hbase s hs h

/-- Up to the first section that survives, the sections carry the tag the walk begins with. -/
theorem taggedWith_prev (hprev : ∀ s ∈ base, prev ≠ some s.sectionId) :
    taggedWith prev (taggedFrom ids prev base) = goneFirst ids base := by
  induction base with
  | nil => rfl
  | cons s base ih =>
    have hrest : ∀ t ∈ base, prev ≠ some t.sectionId := fun t ht =>
      hprev t (List.mem_cons_of_mem _ ht)
    by_cases halive : s.sectionId ∈ ids
    · have hnone : taggedWith prev (taggedFrom ids (some s.sectionId) base) = [] :=
        taggedWith_nil (fun h => hprev s List.mem_cons_self h.symm) hrest
      rw [taggedFrom_alive halive, hnone]
      simp [goneFirst, halive]
    · have htail := ih hrest
      simp only [taggedWith, goneFirst] at htail ⊢
      simp [taggedFrom_gone halive, halive, htail]

/-- A section that survives is the tag of those behind it. -/
theorem taggedWith_some (hnodup : (base.map (·.sectionId)).Nodup) (hid : id ∈ ids)
    (hprev : prev ≠ some id) :
    taggedWith (some id) (taggedFrom ids prev base) = goneBehind ids base id := by
  induction base generalizing prev with
  | nil => rfl
  | cons s base ih =>
    obtain ⟨hs, hrest⟩ := List.nodup_cons.mp hnodup
    by_cases heq : s.sectionId = id
    · subst heq
      have hother : ∀ t ∈ base, some s.sectionId ≠ some t.sectionId := fun t ht h =>
        hs (List.mem_map.mpr ⟨t, ht, (Option.some.inj h).symm⟩)
      rw [taggedFrom_alive hid, taggedWith_prev hother]
      simp [goneBehind]
    · have hbehind : goneBehind ids (s :: base) id = goneBehind ids base id := by
        simp [goneBehind, heq]
      rw [hbehind]
      by_cases halive : s.sectionId ∈ ids
      · rw [taggedFrom_alive halive]
        exact ih hrest fun h => heq (Option.some.inj h)
      · rw [taggedFrom_gone halive, ← ih hrest hprev]
        simp [taggedWith, hprev]

/-- Tag by tag, nothing is lost. -/
theorem perm_flatMap_taggedWith {keys : List (Option ι)} (hkeys : keys.Nodup)
    {tagged : List (Option ι × SnapSection ι)} (htags : ∀ x ∈ tagged, x.1 ∈ keys) :
    (keys.flatMap fun key => taggedWith key tagged).Perm (tagged.map (·.2)) := by
  induction keys generalizing tagged with
  | nil =>
    cases tagged with
    | nil => exact .nil
    | cons x tagged => cases htags x List.mem_cons_self
  | cons key keys ih =>
    obtain ⟨hkey, hrest⟩ := List.nodup_cons.mp hkeys
    have hothers : ∀ x ∈ tagged.filter (fun x => !decide (x.1 = key)), x.1 ∈ keys := by
      intro x hx
      obtain ⟨hmem, hne⟩ := List.mem_filter.mp hx
      rcases List.mem_cons.mp (htags x hmem) with h | h
      · simp [h] at hne
      · exact h
    have hsame : (keys.flatMap fun other => taggedWith other tagged) =
        keys.flatMap fun other =>
          taggedWith other (tagged.filter fun x => !decide (x.1 = key)) := by
      refine List.flatMap_congr fun other hother => ?_
      have hne : other ≠ key := fun h => hkey (h ▸ hother)
      rw [taggedWith, taggedWith, List.filter_filter]
      refine congrArg _ (List.filter_congr fun x _ => ?_)
      by_cases hx : x.1 = other
      · simp [hx, hne]
      · simp [hx]
    rw [List.flatMap_cons, hsame]
    refine ((ih hrest hothers).append_left _).trans ?_
    rw [taggedWith, ← List.map_append]
    exact (List.filter_append_perm _ _).map _

/-! The comparison. -/

theorem find?_of_mem (hnodup : (base.map (·.sectionId)).Nodup) (hs : s ∈ base) :
    base.find? (·.sectionId = s.sectionId) = some s := by
  cases hfind : base.find? (·.sectionId = s.sectionId) with
  | none => exact absurd (List.find?_eq_none.mp hfind s hs) (by simp)
  | some t =>
    have hid : t.sectionId = s.sectionId := by simpa using List.find?_some hfind
    rw [List.inj_on_of_nodup_map hnodup (List.mem_of_find?_eq_some hfind) hs hid]

theorem baseById_eq (hnodup : (base.map (·.sectionId)).Nodup) (id : ι) :
    baseById base id = base.find? (·.sectionId = id) := by
  have hback : (base.reverse.map (·.sectionId)).Nodup := by
    rw [List.map_reverse]
    exact List.nodup_reverse.mpr hnodup
  unfold baseById
  cases hfind : base.find? (·.sectionId = id) with
  | none =>
    refine List.find?_eq_none.mpr fun s hs => List.find?_eq_none.mp hfind s ?_
    exact List.mem_reverse.mp hs
  | some s =>
    have hid : s.sectionId = id := by simpa using List.find?_some hfind
    rw [← hid]
    exact find?_of_mem hback (List.mem_reverse.mpr (List.mem_of_find?_eq_some hfind))

/-- The entries before the sections of `base` that are still missing. -/
def placed (base target : List (SnapSection ι)) : List (DiffEntry ι) :=
  (goneFirst (target.map (·.sectionId)) base).map goneEntry ++ target.flatMap fun s =>
    liveEntry (base.find? (·.sectionId = s.sectionId)) s ::
      (goneBehind (target.map (·.sectionId)) base s.sectionId).map goneEntry

theorem liveEntry_sectionId (t : SnapSection ι) :
    (liveEntry (base.find? (·.sectionId = t.sectionId)) t).sectionId = t.sectionId := by
  cases hfind : base.find? (·.sectionId = t.sectionId) with
  | none => rfl
  | some s =>
    have hid : s.sectionId = t.sectionId := by simpa using List.find?_some hfind
    exact hid

omit [DecidableEq ι] in
theorem liveEntry_target (b : Option (SnapSection ι)) (t : SnapSection ι) :
    (liveEntry b t).target = some t := by
  cases b <;> rfl

/-- The ids of the entries: those of the target, and those of the base that are not there. -/
theorem ids_placed (hbase : (base.map (·.sectionId)).Nodup)
    (htarget : (target.map (·.sectionId)).Nodup) :
    ((placed base target).map (·.sectionId)).Perm
      (target.map (·.sectionId) ++
        (base.filter fun s => s.sectionId ∉ target.map (·.sectionId)).map (·.sectionId)) := by
  generalize hids : target.map (·.sectionId) = ids at htarget
  generalize htags : taggedFrom ids none base = tagged
  have hkeys : (none :: ids.map some).Nodup :=
    List.nodup_cons.mpr ⟨by simp, htarget.map (Option.some_injective ι)⟩
  have hcover : ∀ x ∈ tagged, x.1 ∈ none :: ids.map some := by
    intro x hx
    rw [← htags] at hx
    rcases mem_taggedFrom hx with h | ⟨s, -, hid, h⟩
    · rw [h]
      exact List.mem_cons_self
    · rw [h]
      exact List.mem_cons_of_mem _ (List.mem_map_of_mem hid)
  have hgone : (none :: ids.map some).flatMap (fun key => taggedWith key tagged) =
      goneFirst ids base ++ target.flatMap fun s => goneBehind ids base s.sectionId := by
    rw [List.flatMap_cons, List.flatMap_map, ← hids, List.flatMap_map, hids, ← htags,
      taggedWith_prev (by simp)]
    congr 1
    refine List.flatMap_congr fun s hs => taggedWith_some hbase ?_ (by simp)
    rw [← hids]
    exact List.mem_map_of_mem hs
  have hperm := perm_flatMap_taggedWith hkeys hcover
  rw [hgone, ← htags, map_taggedFrom] at hperm
  have hsplit : ((placed base target).map (·.sectionId)).Perm
      (target.map (·.sectionId) ++ (goneFirst ids base ++
        target.flatMap fun s => goneBehind ids base s.sectionId).map (·.sectionId)) := by
    have hlive := List.map_append_flatMap_perm target (·.sectionId)
      fun s => (goneBehind ids base s.sectionId).map (·.sectionId)
    have hmap : (placed base target).map (·.sectionId) =
        (goneFirst ids base).map (·.sectionId) ++ target.flatMap fun s =>
          s.sectionId :: (goneBehind ids base s.sectionId).map (·.sectionId) := by
      simp [placed, hids, List.map_flatMap, liveEntry_sectionId, goneEntry, Function.comp_def]
    rw [hmap]
    refine (hlive.symm.append_left _).trans ?_
    rw [List.map_append, List.map_flatMap, ← List.append_assoc, ← List.append_assoc]
    exact List.Perm.append_right _ List.perm_append_comm
  rw [hids] at hsplit
  exact hsplit.trans ((hperm.map _).append_left _)

theorem diffSections_eq (hbase : (base.map (·.sectionId)).Nodup)
    (htarget : (target.map (·.sectionId)).Nodup) :
    diffSections base target = placed base target := by
  have hout : ((removedAfter (target.map (·.sectionId)) base none).map goneEntry ++
      target.flatMap fun s => liveEntry (baseById base s.sectionId) s ::
        (removedAfter (target.map (·.sectionId)) base (some s.sectionId)).map goneEntry) =
      placed base target := by
    rw [removedAfter_eq, taggedWith_prev (by simp), placed]
    congr 1
    refine List.flatMap_congr fun s hs => ?_
    have hid : s.sectionId ∈ target.map (·.sectionId) := List.mem_map.mpr ⟨s, hs, rfl⟩
    rw [baseById_eq hbase, removedAfter_eq, taggedWith_some hbase hid (by simp)]
  have hleft : (base.filter fun s => s.sectionId ∉ (placed base target).map (·.sectionId)) = [] := by
    refine List.filter_eq_nil_iff.mpr fun s hs => ?_
    have hmem : s.sectionId ∈ (placed base target).map (·.sectionId) := by
      refine (ids_placed hbase htarget).mem_iff.mpr (List.mem_append.mpr ?_)
      by_cases halive : s.sectionId ∈ target.map (·.sectionId)
      · exact .inl halive
      · exact .inr (List.mem_map.mpr ⟨s, List.mem_filter.mpr ⟨hs, by simpa using halive⟩, rfl⟩)
    simpa using hmem
  unfold diffSections
  simp only
  rw [hout, hleft, List.map_nil, List.append_nil]

theorem goneFirst_subset (h : s ∈ goneFirst ids base) : s ∈ base ∧ s.sectionId ∉ ids :=
  ⟨(List.takeWhile_sublist _).subset h, by simpa using List.mem_takeWhile_imp h⟩

theorem goneBehind_subset (h : s ∈ goneBehind ids base id) : s ∈ base ∧ s.sectionId ∉ ids := by
  obtain ⟨hmem, hgone⟩ := goneFirst_subset h
  exact ⟨(List.dropWhile_sublist _).subset (List.mem_of_mem_drop hmem), hgone⟩

theorem documented_gone (hbase : (base.map (·.sectionId)).Nodup) (hs : s ∈ base)
    (hgone : s.sectionId ∉ target.map (·.sectionId)) :
    Documented base target (goneEntry s) := by
  refine ⟨(find?_of_mem hbase hs).symm, ?_, rfl, rfl⟩
  refine (List.find?_eq_none.mpr fun t ht hid => hgone ?_).symm
  have heq : t.sectionId = s.sectionId := of_decide_eq_true hid
  exact List.mem_map.mpr ⟨t, ht, heq⟩

theorem documented_live (htarget : (target.map (·.sectionId)).Nodup) (ht : t ∈ target) :
    Documented base target (liveEntry (base.find? (·.sectionId = t.sectionId)) t) := by
  refine ⟨?_, ?_, ?_⟩
  · rw [liveEntry_sectionId]
    cases base.find? (·.sectionId = t.sectionId) <;> rfl
  · rw [liveEntry_sectionId, liveEntry_target, find?_of_mem htarget ht]
  · cases base.find? (·.sectionId = t.sectionId) with
    | none => exact ⟨rfl, rfl⟩
    | some b =>
      refine ⟨?_, by simp only [liveEntry, decide_eq_true_eq]⟩
      by_cases htitle : b.title = t.title
      · by_cases hcontent : b.content = t.content
        · simp [liveEntry, htitle, hcontent]
        · simp [liveEntry, htitle, hcontent]
      · simp [liveEntry, htitle]

/-- The comparison shows every section of the two versions once: those of the target in their
order, those that are gone behind what stood in front of them. -/
theorem diffSections_exact (base target : Snapshot ι) :
    (((diffSections base.sections target.sections).map (·.sectionId)).Nodup ∧
      ∀ id, id ∈ (diffSections base.sections target.sections).map (·.sectionId) ↔
        id ∈ base.sections.map (·.sectionId) ∨ id ∈ target.sections.map (·.sectionId)) ∧
    (diffSections base.sections target.sections).filterMap (·.target) = target.sections ∧
    diffSections base.sections target.sections =
      (goneFirst (target.sections.map (·.sectionId)) base.sections).map goneEntry ++
        (target.sections.flatMap fun s =>
          liveEntry (base.sections.find? (·.sectionId = s.sectionId)) s ::
            (goneBehind (target.sections.map (·.sectionId)) base.sections s.sectionId).map
              goneEntry) ∧
    ∀ e ∈ diffSections base.sections target.sections,
      Documented base.sections target.sections e := by
  rw [diffSections_eq base.distinct target.distinct]
  have hids := ids_placed base.distinct target.distinct
  refine ⟨⟨?_, fun id => ?_⟩, ?_, rfl, fun e he => ?_⟩
  · rw [hids.nodup_iff, List.nodup_append]
    refine ⟨target.distinct, base.distinct.sublist (List.filter_sublist.map _), ?_⟩
    rintro a ha b hb rfl
    obtain ⟨s, hs, rfl⟩ := List.mem_map.mp hb
    exact absurd ha (by simpa using (List.mem_filter.mp hs).2)
  · rw [hids.mem_iff, List.mem_append]
    constructor
    · rintro (h | h)
      · exact .inr h
      · obtain ⟨s, hs, rfl⟩ := List.mem_map.mp h
        exact .inl (List.mem_map_of_mem (List.mem_of_mem_filter hs))
    · intro h
      by_cases halive : id ∈ target.sections.map (·.sectionId)
      · exact .inl halive
      · obtain ⟨s, hs, rfl⟩ := List.mem_map.mp (h.resolve_right halive)
        exact .inr (List.mem_map.mpr ⟨s, List.mem_filter.mpr ⟨hs, by simpa using halive⟩, rfl⟩)
  · simp [placed, List.filterMap_append, List.filterMap_flatMap, List.filterMap_map,
      liveEntry_target, goneEntry, Function.comp_def]
  · rcases List.mem_append.mp he with he | he
    · obtain ⟨s, hs, rfl⟩ := List.mem_map.mp he
      obtain ⟨hmem, hgone⟩ := goneFirst_subset hs
      exact documented_gone base.distinct hmem hgone
    · obtain ⟨t, ht, he⟩ := List.mem_flatMap.mp he
      rcases List.mem_cons.mp he with rfl | he
      · exact documented_live target.distinct ht
      · obtain ⟨s, hs, rfl⟩ := List.mem_map.mp he
        obtain ⟨hmem, hgone⟩ := goneBehind_subset hs
        exact documented_gone base.distinct hmem hgone

end RownRg.Sections

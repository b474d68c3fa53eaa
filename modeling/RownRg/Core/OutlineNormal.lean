import RownRg.Core.OutlineIds

/-! Normalised outlines: what normalising gives, and that it leaves them alone. -/

open PyText

namespace RownRg.Outlines

open RownRg.BuildsOn

variable {o : Outline} {f : OutlineSection → OutlineSection} {s sec : OutlineSection} {ch : OutlineChapter}
  {ci si N : Nat} {u : Uuid} {m : Option Text} {r r' : BuildsOnRef} {fresh : Nat → Uuid} {renew : Bool}
  {selfId selfLabel label raw tok x : Text} {remap : List (Text × Text)}
  {resolve : Text → Except OutlineError Text} {out raws : List Text} {errors : List OutlineError}

/-- All sections, in order. -/
def sections (o : Outline) : List OutlineSection := o.flatMap (·.sections)

def mapSections (f : OutlineSection → OutlineSection) (o : Outline) : Outline :=
  o.map fun ch => { ch with sections := ch.sections.map f }

/-- What a token names: a section, with a metric perhaps, or a chapter. -/
inductive Target where
  | ofSection (u : Uuid) (metric : Option Text)
  | ofChapter (u : Uuid)

def Target.token : Target → Text
  | .ofSection u metric => formatSectionToken u.str metric
  | .ofChapter u => formatChapterToken u.str

def Target.Fine : Target → Prop
  | .ofSection _ metric => MetricFine metric
  | .ofChapter _ => True

/-- Not the section itself. -/
def Target.Other (selfId : Option Text) : Target → Prop
  | .ofSection u _ => selfId ≠ some u.str
  | .ofChapter _ => True

/-- The place where an outline has a target. -/
def Target.At (o : Outline) : Target → BuildsOnRef → Prop
  | .ofSection u metric, r => ∃ ci si s, (ci, si, s) ∈ places o ∧ validId s.id = some u.str ∧
      r = ⟨ci, some si, metric⟩
  | .ofChapter u, r => ∃ ch ci, (ch, ci) ∈ o.zipIdx 1 ∧ validId ch.id = some u.str ∧ r = ⟨ci, none, none⟩

/-- No two sections and no two chapters hold one id. -/
structure Apart (o : Outline) : Prop where
  sections : ((sections o).filterMap fun s => validId s.id).Nodup
  chapters : (o.filterMap fun ch => validId ch.id).Nodup

/-- The references of a section as normalising leaves them. -/
structure RefsOk (o : Outline) (sec : OutlineSection) : Prop where
  nodup : sec.buildsOn.Nodup
  few : sec.buildsOn.length ≤ maxRefsPerSection
  targets : ∀ tok ∈ sec.buildsOn, ∃ t : Target, t.token = tok ∧ t.Fine ∧ t.Other sec.id ∧
    ∃ r, t.At o r

/-- A normalised outline. -/
structure Normal (o : Outline) : Prop where
  ids : ∃ us : List Uuid, us.Nodup ∧ rawIds o = us.map fun u => some u.str
  refs : ∀ sec ∈ sections o, RefsOk o sec
  agents : ∀ sec ∈ sections o, sec.analysts.length ≤ maxAgentsPerSection

/-! Places. -/

theorem places_sections (o : Outline) : (places o).map (fun x => x.2.2) = sections o := by
  have hchapter : ∀ (secs : List OutlineSection) (ci n : Nat),
      ((secs.zipIdx n).map fun y => (ci, y.2, y.1)).map (fun x => x.2.2) = secs := by
    intro secs ci n
    simp [Function.comp_def]
  have hall : ∀ n, ((o.zipIdx n).flatMap fun x =>
      (x.1.sections.zipIdx 1).map fun y => (x.2, y.2, y.1)).map (fun x => x.2.2) = sections o := by
    induction o with
    | nil => intro n; rfl
    | cons ch o ih =>
      intro n
      simp only [List.zipIdx_cons, List.flatMap_cons, List.map_append, hchapter, ih, sections]
  exact hall 1

theorem mem_sections (h : (ci, si, s) ∈ places o) : s ∈ sections o := by
  rw [← places_sections]
  exact List.mem_map.mpr ⟨_, h, rfl⟩

theorem places_mapSections (f : OutlineSection → OutlineSection) (o : Outline) :
    places (mapSections f o) = (places o).map fun x => (x.1, x.2.1, f x.2.2) := by
  simp [places, mapSections, List.zipIdx_map, List.flatMap_map, List.map_flatMap, Function.comp_def]

theorem sections_mapSections : sections (mapSections f o) = (sections o).map f := by
  rw [← places_sections, places_mapSections, ← places_sections]
  simp [Function.comp_def]

theorem rawIds_mapSections (hf : ∀ s, (f s).id = s.id) : rawIds (mapSections f o) = rawIds o := by
  simp [rawIds, mapSections, List.flatMap_map, Function.comp_def, hf]

theorem at_mapSections (hf : ∀ s, (f s).id = s.id) (t : Target) :
    t.At (mapSections f o) r ↔ t.At o r := by
  cases t with
  | ofSection u metric =>
    simp only [Target.At, places_mapSections, List.mem_map]
    constructor
    · rintro ⟨_, _, _, ⟨x, hx, heq⟩, hid, rfl⟩
      obtain ⟨rfl, rfl, rfl⟩ := by simpa using heq
      exact ⟨_, _, _, hx, by rwa [← hf], rfl⟩
    · rintro ⟨ci, si, s, hx, hid, rfl⟩
      exact ⟨ci, si, f s, ⟨_, hx, rfl⟩, by rwa [hf], rfl⟩
  | ofChapter u =>
    simp only [Target.At, mapSections, List.zipIdx_map, List.mem_map]
    constructor
    · rintro ⟨_, _, ⟨x, hx, heq⟩, hid, rfl⟩
      obtain ⟨rfl, rfl⟩ := by simpa using heq
      exact ⟨_, _, hx, hid, rfl⟩
    · rintro ⟨ch, ci, hx, hid, rfl⟩
      exact ⟨_, ci, ⟨_, hx, rfl⟩, hid, rfl⟩

theorem sections_sublist (o : Outline) : ((sections o).map (·.id)).Sublist (rawIds o) := by
  induction o with
  | nil => exact List.Sublist.refl _
  | cons ch o ih =>
    simp only [sections, rawIds, List.flatMap_cons, List.map_append, List.cons_append] at ih ⊢
    exact ((List.Sublist.refl _).append ih).cons _

theorem chapters_sublist (o : Outline) : (o.map (·.id)).Sublist (rawIds o) := by
  induction o with
  | nil => exact List.Sublist.refl _
  | cons ch o ih =>
    simp only [rawIds, List.flatMap_cons, List.map_cons, List.cons_append] at ih ⊢
    exact (ih.trans (List.sublist_append_right _ _)).cons_cons _

theorem apart_of_ids {us : List Uuid} (hnodup : us.Nodup)
    (hids : rawIds o = us.map fun u => some u.str) : Apart o := by
  have hvalid : ((rawIds o).filterMap validId).Nodup := by
    have hstr : (rawIds o).filterMap validId = us.map Uuid.str := by
      simp [hids, List.filterMap_map, validId_str]
    rw [hstr]
    exact hnodup.map fun _ _ => Uuid.str_injective
  refine ⟨?_, ?_⟩
  · have hsub := (sections_sublist o).filterMap validId
    rw [List.filterMap_map] at hsub
    exact hvalid.sublist hsub
  · have hsub := (chapters_sublist o).filterMap validId
    rw [List.filterMap_map] at hsub
    exact hvalid.sublist hsub

theorem Normal.apart (h : Normal o) : Apart o := by
  obtain ⟨us, hnodup, hids⟩ := h.ids
  exact apart_of_ids hnodup hids

/-! The maps. -/

theorem mem_labelBySec : (x, label) ∈ (positionMaps o).labelBySec ↔
    ∃ ci si s, (ci, si, s) ∈ places o ∧ validId s.id = some x ∧ label = sectionLabel ci si := by
  simp only [positionMaps, List.mem_filterMap, Option.map_eq_some_iff, Prod.mk.injEq]
  constructor
  · rintro ⟨⟨ci, si, s⟩, hx, id, hid, rfl, rfl⟩
    exact ⟨ci, si, s, hx, hid, rfl⟩
  · rintro ⟨ci, si, s, hx, hid, rfl⟩
    exact ⟨_, hx, x, hid, rfl, rfl⟩

theorem mem_numByCh : (x, label) ∈ (positionMaps o).numByCh ↔
    ∃ ch ci, (ch, ci) ∈ o.zipIdx 1 ∧ validId ch.id = some x ∧ label = ofNat ci := by
  simp only [positionMaps, List.mem_filterMap, Option.map_eq_some_iff, Prod.mk.injEq]
  constructor
  · rintro ⟨⟨ch, ci⟩, hx, id, hid, rfl, rfl⟩
    exact ⟨ch, ci, hx, hid, rfl⟩
  · rintro ⟨ch, ci, hx, hid, rfl⟩
    exact ⟨_, hx, x, hid, rfl, rfl⟩

theorem mem_secByPos : ((ci, si), x) ∈ (positionMaps o).secByPos ↔
    ∃ s, (ci, si, s) ∈ places o ∧ validId s.id = some x := by
  simp only [positionMaps, List.mem_filterMap, Option.map_eq_some_iff, Prod.mk.injEq]
  constructor
  · rintro ⟨⟨ci, si, s⟩, hx, id, hid, ⟨rfl, rfl⟩, rfl⟩
    exact ⟨s, hx, hid⟩
  · rintro ⟨s, hx, hid⟩
    exact ⟨_, hx, x, hid, ⟨rfl, rfl⟩, rfl⟩

theorem mem_chByNum : (ci, x) ∈ (positionMaps o).chByNum ↔
    ∃ ch, (ch, ci) ∈ o.zipIdx 1 ∧ validId ch.id = some x := by
  simp only [positionMaps, List.mem_filterMap, Option.map_eq_some_iff, Prod.mk.injEq]
  constructor
  · rintro ⟨⟨ch, ci⟩, hx, id, hid, rfl, rfl⟩
    exact ⟨ch, hx, hid⟩
  · rintro ⟨ch, hx, hid⟩
    exact ⟨_, hx, x, hid, rfl, rfl⟩

theorem keys_labelBySec (o : Outline) :
    (positionMaps o).labelBySec.map Prod.fst = (sections o).filterMap fun s => validId s.id := by
  rw [← places_sections, List.filterMap_map, positionMaps, List.map_filterMap]
  simp [Function.comp_def]

theorem keys_numByCh (o : Outline) :
    (positionMaps o).numByCh.map Prod.fst = o.filterMap fun ch => validId ch.id := by
  have hall : ∀ n, ((o.zipIdx n).filterMap fun x => validId x.1.id) =
      o.filterMap fun ch => validId ch.id := by
    induction o with
    | nil => intro n; rfl
    | cons ch o ih => intro n; simp [List.filterMap_cons, ih]
  rw [positionMaps, List.map_filterMap, ← hall 1]
  simp [Function.comp_def]

/-- The current label of a token is the label of the place of its target. -/
theorem tokenToLabel_token (h : Apart o) {t : Target} (hfine : t.Fine) :
    tokenToLabel (positionMaps o) t.token = some label ↔ ∃ r, t.At o r ∧ label = r.label := by
  cases t with
  | ofSection u metric =>
    have hkeys := keys_labelBySec o ▸ h.sections
    simp only [tokenToLabel, Target.token, parseIdToken_formatSection u hfine,
      Option.map_eq_some_iff, lastFor_eq_some hkeys, mem_labelBySec, Target.At]
    constructor
    · rintro ⟨_, ⟨ci, si, s, hx, hid, rfl⟩, rfl⟩
      exact ⟨_, ⟨ci, si, s, hx, hid, rfl⟩, rfl⟩
    · rintro ⟨_, ⟨ci, si, s, hx, hid, rfl⟩, rfl⟩
      exact ⟨_, ⟨ci, si, s, hx, hid, rfl⟩, rfl⟩
  | ofChapter u =>
    have hkeys := keys_numByCh o ▸ h.chapters
    simp only [tokenToLabel, Target.token, parseIdToken_formatChapter,
      Option.map_eq_some_iff, lastFor_eq_some hkeys, mem_numByCh, Target.At]
    constructor
    · rintro ⟨_, ⟨ch, ci, hx, hid, rfl⟩, rfl⟩
      exact ⟨_, ⟨ch, ci, hx, hid, rfl⟩, rfl⟩
    · rintro ⟨_, ⟨ch, ci, hx, hid, rfl⟩, rfl⟩
      exact ⟨_, ⟨ch, ci, hx, hid, rfl⟩, rfl⟩

/-- A token names one target. -/
theorem Target.token_injective {t t' : Target} (hfine : t.Fine) (hfine' : t'.Fine)
    (h : t.token = t'.token) : t = t' := by
  have hparse := congrArg parseIdToken h
  cases t with
  | ofSection u m =>
    cases t' with
    | ofSection u' m' =>
      simp only [Target.token, parseIdToken_formatSection u hfine,
        parseIdToken_formatSection u' hfine', Option.some.injEq, IdToken.section.injEq] at hparse
      rw [Uuid.str_injective hparse.1, hparse.2]
    | ofChapter u' =>
      simp [Target.token, parseIdToken_formatSection u hfine, parseIdToken_formatChapter] at hparse
  | ofChapter u =>
    cases t' with
    | ofSection u' m' =>
      simp [Target.token, parseIdToken_formatSection u' hfine', parseIdToken_formatChapter] at hparse
    | ofChapter u' =>
      simp only [Target.token, parseIdToken_formatChapter, Option.some.injEq,
        IdToken.chapter.injEq] at hparse
      rw [Uuid.str_injective hparse]

/-- The label of a place reads back as the place. -/
theorem parseRef_at {t : Target} (hfine : t.Fine) (h : t.At o r) : parseRef r.label = some r := by
  cases t with
  | ofSection u metric =>
    obtain ⟨_, _, _, -, -, rfl⟩ := h
    exact parseRef_label hfine (by simp)
  | ofChapter u =>
    obtain ⟨_, _, -, -, rfl⟩ := h
    exact parseRef_label (by simp [MetricFine]) (by simp)

/-- A target has one place at most. -/
theorem at_unique (hapart : Apart o) {t : Target} (hfine : t.Fine) (h : t.At o r) (h' : t.At o r') :
    r = r' := by
  have hlabel := (tokenToLabel_token hapart hfine).mpr ⟨r, h, rfl⟩
  rw [(tokenToLabel_token hapart hfine).mpr ⟨r', h', rfl⟩] at hlabel
  have hread := parseRef_at hfine h'
  rw [Option.some.inj hlabel, parseRef_at hfine h] at hread
  exact Option.some.inj hread

/-! References. -/

/-- A reference that is accepted names something of the outline, and not the section itself. -/
theorem normalizeRef_target
    (h : normalizeRef (positionMaps o) remap selfId selfLabel raw = .ok tok) :
    ∃ t : Target, t.token = tok ∧ t.Fine ∧ t.Other (some selfId) ∧ ∃ r, t.At o r := by
  have hchapter : ∀ {tid num}, (tid, num) ∈ (positionMaps o).numByCh →
      ∃ t : Target, t.token = formatChapterToken tid ∧ t.Fine ∧ t.Other (some selfId) ∧
        ∃ r, t.At o r := by
    intro tid num hmem
    obtain ⟨ch, ci, hx, hid, -⟩ := mem_numByCh.1 hmem
    obtain ⟨u, rfl⟩ := exists_of_validId hid
    exact ⟨.ofChapter u, rfl, trivial, trivial, _, ch, ci, hx, hid, rfl⟩
  have hsection : ∀ {tid metric ci si s}, (ci, si, s) ∈ places o → validId s.id = some tid →
      tid ≠ selfId → MetricFine metric →
      ∃ t : Target, t.token = formatSectionToken tid metric ∧ t.Fine ∧ t.Other (some selfId) ∧
        ∃ r, t.At o r := by
    intro tid metric ci si s hx hid hself hfine
    obtain ⟨u, rfl⟩ := exists_of_validId hid
    refine ⟨.ofSection u metric, rfl, hfine, ?_, _, ci, si, s, hx, hid, rfl⟩
    exact fun heq => hself (Option.some.inj heq).symm
  unfold normalizeRef at h
  split at h
  · simp only at h
    split at h
    · simp at h
    · rename_i hsome
      obtain ⟨num, hnum⟩ := Option.ne_none_iff_exists'.mp (mt Option.isNone_iff_eq_none.mpr hsome)
      obtain rfl := Except.ok.inj h
      exact hchapter (mem_of_lastFor hnum)
  · rename_i tid metric hparse
    simp only at h
    split at h
    · simp at h
    · rename_i hsome
      split at h
      · simp at h
      · rename_i hself
        obtain ⟨num, hnum⟩ := Option.ne_none_iff_exists'.mp (mt Option.isNone_iff_eq_none.mpr hsome)
        obtain rfl := Except.ok.inj h
        obtain ⟨ci, si, s, hx, hid, -⟩ := mem_labelBySec.1 (mem_of_lastFor hnum)
        exact hsection hx hid hself (parseIdToken_fine hparse)
  · split at h
    · simp at h
    · rename_i ref href
      split at h
      · split at h
        · simp at h
        · rename_i id hlast
          obtain rfl := Except.ok.inj h
          obtain ⟨ch, hx, hid⟩ := mem_chByNum.1 (mem_of_lastFor hlast)
          exact hchapter (mem_numByCh.2 ⟨ch, _, hx, hid, rfl⟩)
      · split at h
        · simp at h
        · rename_i id hlast
          split at h
          · simp at h
          · rename_i hself
            obtain rfl := Except.ok.inj h
            obtain ⟨s, hx, hid⟩ := mem_secByPos.1 (mem_of_lastFor hlast)
            exact hsection hx hid hself (refText_fine (parseRef_eq_some.1 href))

/-- A token of the outline stays as it is. -/
theorem normalizeRef_token {t : Target} (hfine : t.Fine) (hother : t.Other (some selfId))
    (hat : t.At o r) :
    normalizeRef (positionMaps o) [] selfId selfLabel t.token = .ok t.token := by
  cases t with
  | ofSection u metric =>
    obtain ⟨ci, si, s, hx, hid, rfl⟩ := hat
    have hsome := lastFor_isSome (mem_labelBySec.2 ⟨ci, si, s, hx, hid, rfl⟩)
    have hself : u.str ≠ selfId := fun heq => hother (congrArg some heq.symm)
    rw [normalizeRef, Target.token, parseIdToken_formatSection u hfine]
    simp [Option.isNone_eq_false_iff.mpr hsome, hself]
  | ofChapter u =>
    obtain ⟨ch, ci, hx, hid, rfl⟩ := hat
    have hsome := lastFor_isSome (mem_numByCh.2 ⟨ch, ci, hx, hid, rfl⟩)
    rw [normalizeRef, Target.token, parseIdToken_formatChapter]
    simp [Option.isNone_eq_false_iff.mpr hsome]

/-- What the loop collects. -/
theorem normalizeRefs_collects (hout : out.Nodup) (hlen : out.length ≤ maxRefsPerSection) :
    (normalizeRefs resolve label out raws).1.Nodup ∧
      (normalizeRefs resolve label out raws).1.length ≤ maxRefsPerSection ∧
      ∀ tok ∈ (normalizeRefs resolve label out raws).1, tok ∈ out ∨ ∃ raw ∈ raws, resolve raw = .ok tok := by
  induction raws generalizing out with
  | nil => exact ⟨hout, hlen, fun _ h => .inl h⟩
  | cons raw raws ih =>
    rw [normalizeRefs]
    split
    · obtain ⟨hnodup, hle, hfrom⟩ := ih hout hlen
      refine ⟨hnodup, hle, fun tok htok => (hfrom tok htok).imp_right ?_⟩
      rintro ⟨raw', hmem, hok⟩
      exact ⟨raw', by simp [hmem], hok⟩
    · rename_i new hnew
      split
      · obtain ⟨hnodup, hle, hfrom⟩ := ih hout hlen
        refine ⟨hnodup, hle, fun tok htok => (hfrom tok htok).imp_right ?_⟩
        rintro ⟨raw', hmem, hok⟩
        exact ⟨raw', by simp [hmem], hok⟩
      · rename_i hnot
        split
        · exact ⟨hout, hlen, fun _ h => .inl h⟩
        · rename_i hlt
          obtain ⟨hnodup, hle, hfrom⟩ := @ih (out ++ [new])
            (List.nodup_append'.mpr ⟨hout, List.nodup_singleton new, by simpa using hnot⟩)
            (by simp only [List.length_append, List.length_singleton]; omega)
          refine ⟨hnodup, hle, fun tok htok => ?_⟩
          rcases hfrom tok htok with hmem | ⟨raw', hmem, hok⟩
          · rcases List.mem_append.mp hmem with hmem | hmem
            · exact .inl hmem
            · obtain rfl := List.mem_singleton.mp hmem
              exact .inr ⟨raw, by simp, hnew⟩
          · exact .inr ⟨raw', by simp [hmem], hok⟩

/-- References that stand for themselves stay, as long as there are not too many. -/
theorem normalizeRefs_fixed (hself : ∀ raw ∈ raws, resolve raw = .ok raw)
    (hnodup : (out ++ raws).Nodup) (hlen : (out ++ raws).length ≤ maxRefsPerSection) :
    normalizeRefs resolve label out raws = (out ++ raws, []) := by
  induction raws generalizing out with
  | nil => simp [normalizeRefs]
  | cons raw raws ih =>
    have hnot : raw ∉ out := fun h =>
      (List.nodup_append'.mp hnodup).2.2 h (by simp)
    have hlt : ¬ out.length ≥ maxRefsPerSection := by
      simp only [List.length_append, List.length_cons] at hlen
      omega
    rw [normalizeRefs, hself raw (by simp)]
    simp only [hnot, hlt, if_false]
    rw [ih (fun x hx => hself x (by simp [hx])) (by simpa using hnodup) (by simpa using hlen)]
    simp

@[simp] theorem id_normalizeSection {maps : PositionMaps} :
    (normalizeSection maps remap s).1.id = s.id := by
  unfold normalizeSection
  simp only
  split <;> rfl

@[simp] theorem analysts_normalizeSection {maps : PositionMaps} :
    (normalizeSection maps remap s).1.analysts = s.analysts := by
  unfold normalizeSection
  simp only
  split <;> rfl

/-- What the loop gives for the references of the section with this id. -/
def sectionRefs (maps : PositionMaps) (remap : List (Text × Text)) (selfId : Text)
    (raws : List Text) : List Text × List OutlineError :=
  normalizeRefs (normalizeRef maps remap selfId ((lastFor selfId maps.labelBySec).getD ['?']))
    ((lastFor selfId maps.labelBySec).getD ['?']) [] raws

theorem normalizeSection_refs {maps : PositionMaps} (hid : s.id = some selfId)
    (hne : s.buildsOn ≠ []) (hfew : s.analysts.length ≤ maxAgentsPerSection) :
    normalizeSection maps remap s =
      ({ s with buildsOn := (sectionRefs maps remap selfId s.buildsOn).1 },
        (sectionRefs maps remap selfId s.buildsOn).2) := by
  have hmany : ¬ s.analysts.length > maxAgentsPerSection := by omega
  have hempty : s.buildsOn.isEmpty = false := by simpa using hne
  unfold normalizeSection
  simp only [hid, hmany, hempty, if_false, Option.getD_some, List.nil_append, Bool.false_eq_true]
  rw [← hid]
  rfl

theorem refsOk_normalizeSection (hid : s.id = some selfId) :
    RefsOk o (normalizeSection (positionMaps o) remap s).1 := by
  have hself : (normalizeSection (positionMaps o) remap s).1.id = some selfId := by
    rw [id_normalizeSection, hid]
  by_cases hempty : s.buildsOn = []
  · have hsame : (normalizeSection (positionMaps o) remap s).1.buildsOn = [] := by
      simp [normalizeSection, hempty]
    exact ⟨by simp [hsame], by simp [hsame], by simp [hsame]⟩
  · have hrefs : (normalizeSection (positionMaps o) remap s).1.buildsOn =
        (normalizeRefs (normalizeRef (positionMaps o) remap selfId
          ((lastFor selfId (positionMaps o).labelBySec).getD ['?']))
          ((lastFor selfId (positionMaps o).labelBySec).getD ['?']) [] s.buildsOn).1 := by
      simp [normalizeSection, hempty, hid]
    obtain ⟨hnodup, hlen, hfrom⟩ := @normalizeRefs_collects
      ((lastFor selfId (positionMaps o).labelBySec).getD ['?']) (normalizeRef (positionMaps o) remap
        selfId ((lastFor selfId (positionMaps o).labelBySec).getD ['?'])) [] s.buildsOn
      List.nodup_nil (by simp)
    rw [← hrefs] at hnodup hlen hfrom
    refine ⟨hnodup, hlen, fun tok htok => ?_⟩
    obtain ⟨raw, -, hok⟩ := (hfrom tok htok).resolve_left (by simp)
    rw [hself]
    exact normalizeRef_target hok

theorem normalizeSection_fixed (hid : s.id = some selfId) (hrefs : RefsOk o s)
    (hagents : s.analysts.length ≤ maxAgentsPerSection) :
    normalizeSection (positionMaps o) [] s = (s, []) := by
  have hfew : ¬ s.analysts.length > maxAgentsPerSection := by omega
  unfold normalizeSection
  simp only [hid, hfew, if_false, Option.getD_some, List.nil_append]
  split
  · rfl
  · have hself : ∀ label, ∀ tok ∈ s.buildsOn,
        normalizeRef (positionMaps o) [] selfId label tok = .ok tok := by
      intro label tok htok
      obtain ⟨t, rfl, hfine, hother, r, hat⟩ := hrefs.targets tok htok
      exact normalizeRef_token hfine (hid ▸ hother) hat
    rw [normalizeRefs_fixed (hself _) (by simpa using hrefs.nodup) (by simpa using hrefs.few)]
    simp [← hid]

/-! Outlines. -/

theorem normalizeOutline_fst : (normalizeOutline fresh renew o).1 =
    mapSections (fun s => (normalizeSection (positionMaps (ensureOutlineIds fresh renew o).1)
      (ensureOutlineIds fresh renew o).2 s).1) (ensureOutlineIds fresh renew o).1 := by
  simp [normalizeOutline, mapSections, Function.comp_def]

theorem normalizeOutline_snd : (normalizeOutline fresh renew o).2 =
    (sections (ensureOutlineIds fresh renew o).1).flatMap fun s =>
      (normalizeSection (positionMaps (ensureOutlineIds fresh renew o).1)
        (ensureOutlineIds fresh renew o).2 s).2 := by
  simp [normalizeOutline, sections, List.flatMap_map, List.flatMap_assoc]

/-- The ids that an outline is given. -/
def givenIds (fresh : Nat → Uuid) (renew : Bool) (o : Outline) : List Text :=
  (claimAll fresh renew ⟨[], [], 0⟩ (rawIds o)).1

theorem rawIds_ensure :
    rawIds (ensureOutlineIds fresh renew o).1 = (givenIds fresh renew o).map some :=
  claimChapters_eq.1

theorem remap_ensure : (ensureOutlineIds fresh renew o).2 =
    (claimAll fresh renew ⟨[], [], 0⟩ (rawIds o)).2.remap := by
  rw [ensureOutlineIds, claimChapters_eq.2]

theorem rawIds_normalize :
    rawIds (normalizeOutline fresh renew o).1 = (givenIds fresh renew o).map some := by
  rw [normalizeOutline_fst, rawIds_mapSections fun s => id_normalizeSection, rawIds_ensure]

theorem nodup_givenIds (hfresh : FreshFor fresh (rawIds o) (rawIds o).length) :
    (givenIds fresh renew o).Nodup :=
  (claimAll_nodup hfresh (by simp [Ahead]) (by simp)).1

/-- Every id that is given out is one that `uuid` writes. -/
theorem exists_uuids (st : ClaimState) (raws : List (Option Text)) :
    ∃ us : List Uuid, (claimAll fresh renew st raws).1 = us.map Uuid.str := by
  induction raws generalizing st with
  | nil => exact ⟨[], rfl⟩
  | cons raw raws ih =>
    obtain ⟨us, hus⟩ := ih (claim fresh renew st raw).2
    have hid : ∃ u : Uuid, (claim fresh renew st raw).1 = u.str := by
      rcases @claim_cases fresh renew st raw with ⟨id, hid, -, -, heq⟩ | ⟨hx, -⟩
      · rw [heq]
        exact exists_of_validId hid
      · exact ⟨_, hx⟩
    obtain ⟨u, hu⟩ := hid
    exact ⟨u :: us, by simp [claimAll_cons, hus, hu]⟩

theorem id_of_mem_sections (h : s ∈ sections (ensureOutlineIds fresh renew o).1) :
    ∃ selfId, s.id = some selfId := by
  have hmem := (sections_sublist _).subset (List.mem_map.mpr ⟨s, h, rfl⟩)
  rw [rawIds_ensure] at hmem
  obtain ⟨selfId, -, hid⟩ := List.mem_map.mp hmem
  exact ⟨selfId, hid.symm⟩

/-- The ids of a normalised outline are distinct, whatever is wrong with its references. -/
theorem ids_normalize (hfresh : FreshFor fresh (rawIds o) (rawIds o).length) :
    ∃ us : List Uuid, us.Nodup ∧
      rawIds (normalizeOutline fresh renew o).1 = us.map fun u => some u.str := by
  obtain ⟨us, hus⟩ := @exists_uuids fresh renew ⟨[], [], 0⟩ (rawIds o)
  have hnodup : (givenIds fresh renew o).Nodup := nodup_givenIds hfresh
  have hgiven : givenIds fresh renew o = us.map Uuid.str := hus
  rw [hgiven] at hnodup
  refine ⟨us, hnodup.of_map _, ?_⟩
  rw [rawIds_normalize, hgiven, List.map_map]
  rfl

/-- What normalising without an error gives. -/
theorem normalizeOutline_normal (hfresh : FreshFor fresh (rawIds o) (rawIds o).length)
    (h : (normalizeOutline fresh renew o).2 = []) : Normal (normalizeOutline fresh renew o).1 := by
  have hsections : ∀ sec ∈ sections (normalizeOutline fresh renew o).1,
      ∃ s ∈ sections (ensureOutlineIds fresh renew o).1,
        (normalizeSection (positionMaps (ensureOutlineIds fresh renew o).1)
          (ensureOutlineIds fresh renew o).2 s).1 = sec := by
    intro sec hsec
    rw [normalizeOutline_fst, sections_mapSections] at hsec
    exact List.mem_map.mp hsec
  refine ⟨ids_normalize hfresh, fun sec hsec => ?_, fun sec hsec => ?_⟩
  · obtain ⟨s, hs, rfl⟩ := hsections sec hsec
    obtain ⟨selfId, hid⟩ := id_of_mem_sections hs
    have hrefs : RefsOk (ensureOutlineIds fresh renew o).1 (normalizeSection
        (positionMaps (ensureOutlineIds fresh renew o).1) (ensureOutlineIds fresh renew o).2 s).1 :=
      refsOk_normalizeSection hid
    obtain ⟨hnodup, hfew, htargets⟩ := hrefs
    refine ⟨hnodup, hfew, fun tok htok => ?_⟩
    obtain ⟨t, ht, hfine, hother, r, hat⟩ := htargets tok htok
    refine ⟨t, ht, hfine, hother, r, ?_⟩
    rw [normalizeOutline_fst]
    exact (at_mapSections (fun s => id_normalizeSection) t).mpr hat
  · obtain ⟨s, hs, rfl⟩ := hsections sec hsec
    rw [normalizeOutline_snd, List.flatMap_eq_nil_iff] at h
    have hnone := h s hs
    rw [analysts_normalizeSection]
    by_contra hmany
    have hgt : s.analysts.length > maxAgentsPerSection := by omega
    unfold normalizeSection at hnone
    simp only [hgt, if_true] at hnone
    split at hnone <;> simp at hnone

theorem normal_of_normalize {O : Outline} (hfresh : FreshFor fresh (rawIds o) (rawIds o).length)
    (h : normalizeOutline fresh renew o = (O, [])) : Normal O := by
  have hnormal : Normal (normalizeOutline fresh renew o).1 :=
    normalizeOutline_normal hfresh (by rw [h])
  rwa [h] at hnormal

theorem claimSections_self {secs : List OutlineSection} {st : ClaimState}
    (h : (claimSections fresh renew st secs).1.map (·.id) = secs.map (·.id)) :
    (claimSections fresh renew st secs).1 = secs := by
  induction secs generalizing st with
  | nil => rfl
  | cons sec secs ih =>
    simp only [claimSections, List.map_cons, List.cons.injEq] at h ⊢
    exact ⟨by rw [h.1], ih h.2⟩

/-- Claiming changes ids only. -/
theorem claimChapters_self {st : ClaimState}
    (h : rawIds (claimChapters fresh renew st o).1 = rawIds o) :
    (claimChapters fresh renew st o).1 = o := by
  induction o generalizing st with
  | nil => rfl
  | cons ch o ih =>
    simp only [claimChapters, rawIds, List.flatMap_cons, List.cons_append, List.cons.injEq] at h ⊢
    have hlen := congrArg List.length (@claimSections_eq fresh renew
      (claim fresh renew st ch.id).2 ch.sections).1
    rw [List.length_map, List.length_map, length_claimAll] at hlen
    obtain ⟨hsecs, hrest⟩ := List.append_inj h.2 (by simpa using hlen)
    have hsame := claimSections_self hsecs
    exact ⟨by rw [h.1, hsame], ih hrest⟩

/-- Distinct ids are kept. -/
theorem ensured_of_ids {us : List Uuid} (hnodup : us.Nodup)
    (hids : rawIds o = us.map fun u => some u.str) : ensureOutlineIds fresh false o = (o, []) := by
  have hclaims : (claimAll fresh false ⟨[], [], 0⟩ (us.map fun u => some u.str)).1 =
      us.map Uuid.str ∧ (claimAll fresh false ⟨[], [], 0⟩ (us.map fun u => some u.str)).2.remap = [] :=
    claimAll_fixed hnodup (by simp)
  obtain ⟨hgiven, hremap⟩ := hclaims
  rw [← hids] at hgiven hremap
  have hsame : (ensureOutlineIds fresh false o).1 = o := by
    refine claimChapters_self ?_
    rw [claimChapters_eq.1, hgiven, hids, List.map_map]
    rfl
  exact Prod.ext hsame (Eq.trans remap_ensure hremap)

theorem Normal.ensured (h : Normal o) : ensureOutlineIds fresh false o = (o, []) := by
  obtain ⟨us, hnodup, hids⟩ := h.ids
  exact ensured_of_ids hnodup hids

/-- A normalised outline stays as it is. -/
theorem Normal.fixed (h : Normal o) : normalizeOutline fresh false o = (o, []) := by
  have hsection : ∀ s ∈ sections o, normalizeSection (positionMaps o) [] s = (s, []) := by
    intro s hs
    obtain ⟨us, -, hids⟩ := h.ids
    have hmem := (sections_sublist o).subset (List.mem_map.mpr ⟨s, hs, rfl⟩)
    rw [hids] at hmem
    obtain ⟨u, -, hid⟩ := List.mem_map.mp hmem
    exact normalizeSection_fixed hid.symm (h.refs s hs) (h.agents s hs)
  refine Prod.ext ?_ ?_
  · rw [normalizeOutline_fst, h.ensured]
    refine (List.map_congr_left fun ch hch => ?_).trans (List.map_id o)
    have hsecs : ch.sections.map (fun s => (normalizeSection (positionMaps o) [] s).1) =
        ch.sections := by
      refine (List.map_congr_left fun s hs => ?_).trans (List.map_id _)
      rw [hsection s (List.mem_flatMap.mpr ⟨ch, hch, hs⟩)]
      rfl
    simp [hsecs]
  · rw [normalizeOutline_snd, h.ensured, List.flatMap_eq_nil_iff]
    intro s hs
    rw [hsection s hs]

end RownRg.Outlines

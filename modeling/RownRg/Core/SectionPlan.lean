import RownRg.Lib.Json
import RownRg.Lib.Uuid

/-! The plan of a section, and the plan as the project's config keeps it. -/

open PyText

namespace RownRg

/-- The plan of one section; its numbers count from one. -/
structure SectionPlan where
  sectionId : Uuid
  chapterNumber : Nat
  sectionNumber : Nat
  title : Text
  chapterTitle : Text
  direction : Text
  keyPoints : List Text
  analysts : List Text
  searchQueries : List Text
  buildsOn : List Text
  minChars : Option Nat
  maxChars : Option Nat
  deriving DecidableEq

namespace SectionPlan

variable {plan : List SectionPlan} {s : SectionPlan} {config : List (Text × Json)} {j : Json}
  {k : Text} {x y : Json} {fs gs : List (Text × Json)}

/-- `_section_plan` -/
def sectionPlanKey : Text := "_section_plan".toList

def dumpFields (s : SectionPlan) : List (Text × Json) := [
    ("section_id".toList, .str s.sectionId.str),
    ("chapter_number".toList, .num s.chapterNumber),
    ("section_number".toList, .num s.sectionNumber),
    ("title".toList, .str s.title),
    ("chapter_title".toList, .str s.chapterTitle),
    ("direction".toList, .str s.direction),
    ("key_points".toList, .texts s.keyPoints),
    ("analysts".toList, .texts s.analysts),
    ("search_queries".toList, .texts s.searchQueries),
    ("builds_on".toList, .texts s.buildsOn)]

def dumpItem (s : SectionPlan) : Json := .obj (dumpFields s)

def dumpSectionPlan (plan : List SectionPlan) : Json := .arr (plan.map dumpItem)

/-- `repr` gives the text of a JSON value that is no text. -/
def loadTexts (repr : Json → Text) (x : Json) : Option (List Text) :=
  (x.orElse (.arr [])).items?.map (List.map (Json.toText repr))

/-- One entry of the stored plan; `none` where reading it raises, which skips the entry. -/
def loadItem (repr : Json → Text) (item : Json) : Option SectionPlan := do
  let .obj fs := item | none
  let sectionId ← Uuid.parse (Json.toText repr (← fs.lookup "section_id".toList))
  let chapterNumber ← (← fs.lookup "chapter_number".toList).toInt?
  let sectionNumber ← (← fs.lookup "section_number".toList).toInt?
  let title := Json.toText repr (← fs.lookup "title".toList)
  let keyPoints ← loadTexts repr (Json.get fs "key_points".toList)
  let analysts ← loadTexts repr (Json.get fs "analysts".toList)
  let searchQueries ← loadTexts repr (Json.get fs "search_queries".toList)
  let buildsOn ← loadTexts repr (Json.get fs "builds_on".toList)
  return {
    sectionId
    chapterNumber := chapterNumber.toNat
    sectionNumber := sectionNumber.toNat
    title
    chapterTitle := Json.toText repr ((Json.get fs "chapter_title".toList).orElse (.str []))
    direction := Json.toText repr ((Json.get fs "direction".toList).orElse (.str []))
    keyPoints
    analysts
    searchQueries
    buildsOn
    minChars := none
    maxChars := none }

def loadSectionPlan (repr : Json → Text) : Json → List SectionPlan
  | .arr items => items.filterMap (loadItem repr)
  | _ => []

def planFromConfig (repr : Json → Text) : Json → List SectionPlan
  | .obj config => loadSectionPlan repr (Json.get config sectionPlanKey)
  | _ => []

/-- `updated[key] = value` on a dictionary. -/
def setKey (config : List (Text × Json)) (key : Text) (value : Json) : List (Text × Json) :=
  if config.any fun f => f.1 = key then
    config.map fun f => if f.1 = key then (key, value) else f
  else config ++ [(key, value)]

/-- The config with the plan in it; an empty plan leaves no key. -/
def configWithPlan (config : List (Text × Json)) (plan : List SectionPlan) :
    List (Text × Json) :=
  if plan.isEmpty then config.filter fun f => f.1 ≠ sectionPlanKey
  else setKey config sectionPlanKey (dumpSectionPlan plan)

/-! What the codec keeps. -/

/-- The plan without its length limits. -/
def withoutLength (s : SectionPlan) : SectionPlan := { s with minChars := none, maxChars := none }

theorem nodup_dumpFields (s : SectionPlan) : ((dumpFields s).map Prod.fst).Nodup := by
  show ["section_id".toList, "chapter_number".toList, "section_number".toList, "title".toList,
    "chapter_title".toList, "direction".toList, "key_points".toList, "analysts".toList,
    "search_queries".toList, "builds_on".toList].Nodup
  decide

theorem loadTexts_texts (repr : Json → Text) (ts : List Text) :
    loadTexts repr (.texts ts) = some ts := by
  rw [loadTexts, Json.texts_orElse]
  show some ((ts.map Json.str).map (Json.toText repr)) = some ts
  rw [List.map_map]
  simp [Function.comp_def, Json.toText]

theorem loadItem_stored (repr : Json → Text) (h : Json.Stored (dumpItem s) j) :
    loadItem repr j = some (withoutLength s) := by
  obtain ⟨gs, rfl, hgs⟩ := Json.get_stored (nodup_dumpFields s) h
  have htext : ∀ k t, (dumpFields s).lookup k = some (.str t) → gs.lookup k = some (.str t) := by
    intro k t hk
    obtain ⟨z, hz, hx⟩ := hgs k _ hk
    rw [hz, Json.stored_str.mp hx]
  have hnum : ∀ k (n : Nat), (dumpFields s).lookup k = some (.num n) →
      gs.lookup k = some (.num n) := by
    intro k n hk
    obtain ⟨z, hz, hx⟩ := hgs k _ hk
    rw [hz, Json.stored_num.mp hx]
  have htexts : ∀ k ts, (dumpFields s).lookup k = some (.texts ts) →
      gs.lookup k = some (.texts ts) := by
    intro k ts hk
    obtain ⟨z, hz, hx⟩ := hgs k _ hk
    rw [hz, Json.stored_texts.mp hx]
  have hid := htext "section_id".toList s.sectionId.str rfl
  have hchapter := hnum "chapter_number".toList s.chapterNumber rfl
  have hsection := hnum "section_number".toList s.sectionNumber rfl
  have htitle := htext "title".toList s.title rfl
  have hchapterTitle := htext "chapter_title".toList s.chapterTitle rfl
  have hdirection := htext "direction".toList s.direction rfl
  have hpoints := htexts "key_points".toList s.keyPoints rfl
  have hanalysts := htexts "analysts".toList s.analysts rfl
  have hqueries := htexts "search_queries".toList s.searchQueries rfl
  have hrefs := htexts "builds_on".toList s.buildsOn rfl
  simp only [loadItem, hid, hchapter, hsection, htitle, hchapterTitle, hdirection, hpoints,
    hanalysts, hqueries, hrefs, Json.get, Option.getD_some, Json.toText, Uuid.parse_str,
    Json.toInt?, loadTexts_texts, Json.str_orElse, Option.bind_eq_bind, Option.bind_some,
    Int.toNat_natCast, withoutLength]
  rfl

theorem loadSectionPlan_stored (repr : Json → Text) (h : Json.Stored (dumpSectionPlan plan) j) :
    loadSectionPlan repr j = plan.map withoutLength := by
  cases h with
  | @arr _ ys h =>
    show ys.filterMap (loadItem repr) = _
    induction plan generalizing ys with
    | nil =>
      obtain rfl := List.forall₂_nil_left_iff.mp h
      rfl
    | cons s plan ih =>
      cases ys with
      | nil => cases h
      | cons y ys =>
        obtain ⟨hy, h⟩ := List.forall₂_cons.mp h
        rw [List.filterMap_cons_some (loadItem_stored repr hy), ih h]
        rfl

theorem lookup_setKey : (setKey config k x).lookup k = some x := by
  have hmap : ∀ {config : List (Text × Json)}, (config.any fun f => f.1 = k) →
      (config.map fun f => if f.1 = k then (k, x) else f).lookup k = some x := by
    intro config
    induction config with
    | nil => simp
    | cons f config ih =>
      intro hany
      by_cases hf : f.1 = k
      · simp [hf]
      · have hne : (k == f.1) = false := beq_false_of_ne (Ne.symm hf)
        rw [List.map_cons, if_neg hf, List.lookup_cons, hne]
        exact ih (by simpa [hf] using hany)
  unfold setKey
  split
  · exact hmap ‹_›
  · rename_i hany
    have hnone : config.lookup k = none := by
      rw [List.lookup_eq_none_iff]
      intro f hf
      have hne : f.1 ≠ k := by simpa using fun he => hany (List.any_eq_true.mpr ⟨f, hf, by simpa using he⟩)
      simpa using hne.symm
    simp [List.lookup_append, hnone]

theorem lookup_setKey_ne {j : Text} (h : j ≠ k) : (setKey config k x).lookup j = config.lookup j := by
  have hmap : (config.map fun f => if f.1 = k then (k, x) else f).lookup j = config.lookup j := by
    induction config with
    | nil => rfl
    | cons f config ih =>
      obtain ⟨i, z⟩ := f
      by_cases hi : i = k
      · have hne : (j == k) = false := beq_false_of_ne h
        simpa [List.lookup_cons, hi, hne] using ih
      · simp only [List.map_cons, if_neg hi, List.lookup_cons, ih]
  unfold setKey
  split
  · exact hmap
  · have hne : (j == k) = false := beq_false_of_ne h
    rw [List.lookup_append, List.lookup_cons, hne]
    simp

theorem setKey_setKey : setKey (setKey config k x) k y = setKey config k y := by
  have hsame : ∀ config : List (Text × Json), (config.map fun f => if f.1 = k then (k, x) else f).map
      (fun f => if f.1 = k then (k, y) else f) = config.map fun f => if f.1 = k then (k, y) else f := by
    intro config
    rw [List.map_map]
    refine List.map_congr_left fun f _ => ?_
    by_cases hf : f.1 = k <;> simp [hf]
  unfold setKey
  by_cases hany : config.any fun f => f.1 = k
  · have hany' : (config.map fun f => if f.1 = k then (k, x) else f).any fun f => f.1 = k := by
      obtain ⟨f, hf, he⟩ := List.any_eq_true.mp hany
      exact List.any_eq_true.mpr ⟨_, List.mem_map_of_mem hf, by simpa using by simp_all⟩
    rw [if_pos hany, if_pos hany, if_pos hany', hsame]
  · have hmap : config.map (fun f => if f.1 = k then (k, y) else f) = config := by
      refine (List.map_congr_left fun f hf => if_neg ?_).trans (List.map_id' _)
      exact fun he => hany (List.any_eq_true.mpr ⟨f, hf, by simpa using he⟩)
    rw [if_neg hany, if_neg hany, if_pos (by simp), List.map_append, hmap]
    simp

theorem nodup_setKey (h : (config.map Prod.fst).Nodup) :
    ((setKey config k x).map Prod.fst).Nodup := by
  unfold setKey
  split
  · have hkeys : (config.map fun f => if f.1 = k then (k, x) else f).map Prod.fst =
        config.map Prod.fst := by
      rw [List.map_map]
      refine List.map_congr_left fun f _ => ?_
      by_cases hf : f.1 = k <;> simp [hf]
    rwa [hkeys]
  · rename_i hany
    rw [List.map_append, List.nodup_append]
    refine ⟨h, by simp, ?_⟩
    simp only [List.map_cons, List.map_nil, List.mem_singleton]
    rintro _ hmem _ rfl rfl
    obtain ⟨f, hf, he⟩ := List.mem_map.mp hmem
    exact hany (List.any_eq_true.mpr ⟨f, hf, by simpa using he⟩)

/-- The stored config gives back the plan without its length limits. -/
theorem planFromConfig_stored (repr : Json → Text) (hdict : (config.map Prod.fst).Nodup)
    (h : Json.Stored (.obj (configWithPlan config plan)) j) :
    planFromConfig repr j = plan.map withoutLength := by
  unfold configWithPlan at h
  cases plan with
  | nil =>
    have hnone : (config.filter fun f => f.1 ≠ sectionPlanKey).lookup sectionPlanKey = none := by
      rw [List.lookup_eq_none_iff]
      intro f hf
      simpa using Ne.symm (by simpa using (List.mem_filter.mp hf).2)
    obtain ⟨gs, rfl, hgs⟩ := Json.lookup_stored_none (by simpa using h) hnone
    simp [planFromConfig, Json.get, hgs, loadSectionPlan]
  | cons s plan =>
    obtain ⟨gs, rfl, hgs⟩ := Json.get_stored (nodup_setKey hdict) (by simpa using h)
    obtain ⟨z, hz, hstored⟩ := hgs sectionPlanKey _ lookup_setKey
    simp [planFromConfig, Json.get, hz, loadSectionPlan_stored repr hstored]

end SectionPlan
end RownRg

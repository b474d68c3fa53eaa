import RownRg.Generation.Planner

/-! Sections and their references through edits of the outline. -/

open PyText

namespace RownRg.Generation

open RownRg.BuildsOn RownRg.Outlines

variable {o O O' : Outline} {s s' : OutlineSection} {fresh fresh' : Nat → Uuid} {renew : Bool}
  {ci si k : Nat} {chapterTitle : Text} {labels toks : List Text}

/-- What an edit leaves: chapters and sections move, come and go, but whatever stays keeps its id
and its references, and whatever comes brings no id that is there already. -/
structure Edited (O O' : Outline) : Prop where
  apart : Apart O'
  keeps : ∀ s ∈ sections O, ∀ s' ∈ sections O', s'.id = s.id → s'.buildsOn = s.buildsOn

/-- The tokens of a section as current references: those whose targets are still there, in order,
each read as the place of its target. -/
inductive Rendered (o : Outline) : List Text → List Text → Prop
  | nil : Rendered o [] []
  | kept {t : Target} {r : BuildsOnRef} {toks labels : List Text} (hat : t.At o r)
      (hread : parseRef r.label = some r) (hrest : Rendered o toks labels) :
      Rendered o (t.token :: toks) (r.label :: labels)
  | gone {t : Target} {toks labels : List Text} (hgone : ∀ r, ¬ t.At o r)
      (hrest : Rendered o toks labels) : Rendered o (t.token :: toks) labels

/-- The section is planned under its id, at its place, with its references. -/
def SectionKept (fresh : Nat → Uuid) (o : Outline) (s : OutlineSection) (ci si : Nat) : Prop :=
  ∃ plan p, planFromOutline fresh o = some plan ∧ p ∈ plan ∧ s.id = some p.sectionId.str ∧
    p.chapterNumber = ci ∧ p.sectionNumber = si ∧ Rendered o s.buildsOn p.buildsOn

theorem rendered_labels (hapart : Apart o)
    (htoks : ∀ tok ∈ toks, ∃ t : Target, t.token = tok ∧ t.Fine) :
    Rendered o toks (toks.filterMap (tokenToLabel (positionMaps o))) := by
  induction toks with
  | nil => exact .nil
  | cons tok toks ih =>
    obtain ⟨t, rfl, hfine⟩ := htoks tok (by simp)
    have hrest := ih fun tok htok => htoks tok (by simp [htok])
    cases hlabel : tokenToLabel (positionMaps o) t.token with
    | none =>
      rw [List.filterMap_cons_none hlabel]
      refine .gone (fun r hat => ?_) hrest
      rw [(tokenToLabel_token hapart hfine).mpr ⟨r, hat, rfl⟩] at hlabel
      simp at hlabel
    | some label =>
      rw [List.filterMap_cons_some hlabel]
      obtain ⟨r, hat, rfl⟩ := (tokenToLabel_token hapart hfine).mp hlabel
      exact .kept hat (parseRef_at hfine hat) hrest

theorem Normal.id_of_mem (h : Normal o) (hs : s ∈ sections o) : ∃ u : Uuid, s.id = some u.str := by
  obtain ⟨us, -, hids⟩ := h.ids
  have hmem := (sections_sublist o).subset (List.mem_map.mpr ⟨s, hs, rfl⟩)
  rw [hids] at hmem
  obtain ⟨u, -, hid⟩ := List.mem_map.mp hmem
  exact ⟨u, hid.symm⟩

/-- A section of a normalised outline that is still there, has a title and is not beyond the limit
of the plan keeps its id and its references; and normalising again changes nothing. -/
theorem outline_identity (hfresh : FreshFor fresh (rawIds o) (rawIds o).length)
    (hO : normalizeOutline fresh renew o = (O, [])) (hedit : Edited O O') (hnew : NewTo fresh' O') :
    (∀ fresh, normalizeOutline fresh false O = (O, [])) ∧
    ∀ k chapterTitle ci si s s', (titled O')[k]? = some (chapterTitle, ci, si, s') →
      k < maxSections → s ∈ sections O → s'.id = s.id → SectionKept fresh' O' s ci si := by
  have hnormal : Normal O := normal_of_normalize hfresh hO
  refine ⟨fun fresh => hnormal.fixed, ?_⟩
  intro k chapterTitle ci si s s' hk hlt hs hid
  obtain ⟨u, hu⟩ := Normal.id_of_mem hnormal hs
  have hs' : s' ∈ sections O' := mem_sections (titled_places (List.mem_of_getElem? hk))
  have hvalid : validId s'.id = some u.str := by rw [hid, hu, validId_str]
  obtain ⟨plan, hplan, hget⟩ := planFromOutline_getElem? hedit.apart hnew hk hlt hvalid
  refine ⟨plan, _, hplan, List.mem_of_getElem? hget, hu, rfl, rfl, ?_⟩
  rw [planSection, hedit.keeps s hs s' hs' hid]
  refine rendered_labels hedit.apart fun tok htok => ?_
  obtain ⟨t, ht, hfine, -⟩ := (hnormal.refs s hs).targets tok htok
  exact ⟨t, ht, hfine⟩

/-- A section without anything but an id, a title and references. -/
def plainSection (id : Option Text) (title : String) (buildsOn : List Text) : OutlineSection :=
  ⟨id, title.toList, [], [], [], buildsOn, ⟨.null, .null⟩, none⟩

/-- A chapter with two sections, the second of which builds on the first. -/
def demand : Outline := [⟨some (drawn 0).str, "현황".toList,
  [plainSection (some (drawn 1).str) "수요" [],
    plainSection (some (drawn 2).str) "전망" [formatSectionToken (drawn 1).str (some "총수요".toList)]]⟩]

/-- The same with a section in front. -/
def demandAfterSupply : Outline := [⟨some (drawn 0).str, "현황".toList,
  plainSection none "공급" [] :: sections demand⟩]

theorem normal_demand : Normal demand := by
  refine ⟨⟨[drawn 0, drawn 1, drawn 2], by decide, rfl⟩, ?_, ?_⟩
  · intro sec hsec
    simp only [sections, demand, List.flatMap_cons, List.flatMap_nil, List.append_nil,
      List.mem_cons, List.not_mem_nil, or_false] at hsec
    rcases hsec with rfl | rfl
    · exact ⟨by simp [plainSection], by simp [plainSection], by simp [plainSection]⟩
    · refine ⟨by simp [plainSection], by simp [plainSection, maxRefsPerSection], fun tok htok => ?_⟩
      refine ⟨.ofSection (drawn 1) (some "총수요".toList), (List.mem_singleton.mp htok).symm, ?_, ?_, ?_⟩
      · intro x hx
        obtain rfl := Option.some.inj hx
        exact ⟨by decide, by decide, by simp⟩
      · exact fun heq => absurd (Uuid.str_injective (Option.some.inj heq)) (by decide)
      · exact ⟨_, 1, 1, _, .head _, validId_str _, rfl⟩
  · intro sec hsec
    simp only [sections, demand, List.flatMap_cons, List.flatMap_nil, List.append_nil,
      List.mem_cons, List.not_mem_nil, or_false] at hsec
    rcases hsec with rfl | rfl <;> exact Nat.zero_le _

theorem edited_demand : Edited demand demandAfterSupply := by
  refine ⟨⟨by decide, by decide⟩, fun s hs s' hs' hid => ?_⟩
  have hcases : ∀ s ∈ sections demand, ∀ s' ∈ sections demandAfterSupply, s'.id = s.id →
      s'.buildsOn = s.buildsOn := by decide
  exact hcases s hs s' hs' hid

theorem outline_identity_demand :
    (∀ fresh, normalizeOutline fresh false demand = (demand, [])) ∧
      SectionKept (fun _ => drawn 5) demandAfterSupply
        (plainSection (some (drawn 2).str) "전망"
          [formatSectionToken (drawn 1).str (some "총수요".toList)]) 1 3 := by
  have hfresh : FreshFor (fun n => drawn (n + 10)) (rawIds demand) (rawIds demand).length := by
    constructor <;> decide
  have hnew : NewTo (fun _ => drawn 5) demandAfterSupply := by
    have hall : ∀ s ∈ sections demandAfterSupply, s.id.bind Uuid.parse ≠ some (drawn 5) := by decide
    exact fun _ => hall
  obtain ⟨hfixed, hkept⟩ := outline_identity hfresh (Normal.fixed normal_demand) edited_demand hnew
  exact ⟨hfixed, hkept 2 _ 1 3 _ _ rfl (by decide) (.tail _ (.head _)) rfl⟩

/-- A section whose title is blank. -/
def untitled : Outline := [⟨some (drawn 0).str, "현황".toList,
  [plainSection (some (drawn 1).str) "수요" [], plainSection (some (drawn 2).str) "   " []]⟩]

theorem normal_untitled : Normal untitled := by
  have hempty : ∀ sec ∈ sections untitled, sec.buildsOn = [] ∧ sec.analysts = [] := by decide
  refine ⟨⟨[drawn 0, drawn 1, drawn 2], by decide, rfl⟩, fun sec hsec => ?_, fun sec hsec => ?_⟩
  · have hnone := (hempty sec hsec).1
    exact ⟨by simp [hnone], by simp [hnone], by simp [hnone]⟩
  · simp [(hempty sec hsec).2]

/-- A section without a title is not planned, edited or not. -/
theorem not_sectionKept_untitled : ¬ ∀ (fresh fresh' : Nat → Uuid) (renew : Bool) (o O O' : Outline),
    FreshFor fresh (rawIds o) (rawIds o).length → normalizeOutline fresh renew o = (O, []) →
    Edited O O' → NewTo fresh' O' → ∀ ci si s s', (ci, si, s') ∈ places O' → s ∈ sections O →
    s'.id = s.id → SectionKept fresh' O' s ci si := by
  intro h
  have hfresh : FreshFor (fun n => drawn (n + 10)) (rawIds untitled) (rawIds untitled).length := by
    constructor <;> decide
  have hedit : Edited untitled untitled := by
    refine ⟨Normal.apart normal_untitled, ?_⟩
    decide
  have hnew : NewTo (fun _ => drawn 5) untitled := by
    have hall : ∀ s ∈ sections untitled, s.id.bind Uuid.parse ≠ some (drawn 5) := by decide
    exact fun _ => hall
  obtain ⟨plan, p, hplan, hp, hid, -⟩ := h _ _ false untitled untitled untitled hfresh
    (Normal.fixed normal_untitled) hedit hnew 1 2 _ _ (.tail _ (.head _)) (.tail _ (.head _)) rfl
  have hother : ∀ p ∈ (planFromOutline (fun _ => drawn 5) untitled).getD [],
      p.sectionId ≠ drawn 2 := by decide
  rw [hplan] at hother
  exact hother p hp (Uuid.str_injective (Option.some.inj hid)).symm

end RownRg.Generation

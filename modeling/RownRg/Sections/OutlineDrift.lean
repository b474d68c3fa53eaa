import RownRg.Generation.OutlineEdits
import RownRg.Sections.Drift

/-! Sections whose numbers move with the outline, seen by the fingerprint of their plan. -/

open PyText

namespace RownRg.Sections

open RownRg.BuildsOn RownRg.Outlines RownRg.Generation

variable {o O O' : Outline} {s : OutlineSection} {fresh fresh₁ fresh₂ : Nat → Uuid} {renew : Bool}
  {ci si ci' si' k k' : Nat} {chapterTitle : Text} {u : Uuid} {plan plan' : List SectionPlan}
  {p q : SectionPlan} {toks : List Text} {maps maps' : PositionMaps}

/-- A section written under one plan is not reported as changed under another. -/
structure NotDrifted (p q : SectionPlan) : Prop where
  fingerprint : ∀ (δ : Type) (digest : Json → δ), contentFingerprint digest q = contentFingerprint digest p
  reported : ∀ (δ σ : Type) [DecidableEq δ] (digest : Json → δ) (snap : SectionSnapshot δ σ),
    snap.hasContent → snap.planHash = some (contentFingerprint digest p) →
    DriftReason.planChanged ∉ driftReasons digest q (some snap)

theorem texts_injective {ts us : List Text} (h : Json.texts ts = Json.texts us) : ts = us := by
  have hstrs : ts.map Json.str = us.map Json.str := Json.arr.inj h
  exact List.map_injective_iff.mpr (fun _ _ => Json.str.inj) hstrs

theorem NotDrifted.buildsOn (h : NotDrifted p q) : q.buildsOn = p.buildsOn := by
  have hpayload := h.fingerprint Json id
  simp only [contentFingerprint, fingerprintPayload, id_eq, Json.arr.injEq, List.cons.injEq]
    at hpayload
  exact texts_injective hpayload.2.2.2.2.2.2.1

/-- Plans of one section differ by their references only. -/
theorem notDrifted_planSection : NotDrifted (planSection maps chapterTitle ci si s u)
    (planSection maps' chapterTitle ci' si' s u) ↔
      s.buildsOn.filterMap (tokenToLabel maps) = s.buildsOn.filterMap (tokenToLabel maps') := by
  constructor
  · intro h
    exact h.buildsOn.symm
  · intro h
    have hpayload : fingerprintPayload (planSection maps' chapterTitle ci' si' s u) =
        fingerprintPayload (planSection maps chapterTitle ci si s u) := by
      simp [fingerprintPayload, planSection, h]
    have hfinger : ∀ (δ : Type) (digest : Json → δ),
        contentFingerprint digest (planSection maps' chapterTitle ci' si' s u) =
          contentFingerprint digest (planSection maps chapterTitle ci si s u) := by
      intro δ digest
      rw [contentFingerprint, hpayload, contentFingerprint]
    refine ⟨hfinger, fun δ σ _ digest snap hcontent hhash => ?_⟩
    rw [planChanged_iff hcontent hhash]
    exact fun hne => hne (hfinger δ digest).symm

/-- An outline with more in it, in any order: what a section builds on is still there. -/
structure Grown (O O' : Outline) (s : OutlineSection) : Prop where
  apart : Apart O'
  targets : ∀ t : Target, t.token ∈ s.buildsOn → (∃ r, t.At O r) → ∃ r, t.At O' r

theorem filterMap_eq_iff {f g : Text → Option Text} (h : ∀ x ∈ toks, (f x).isSome ∧ (g x).isSome) :
    toks.filterMap f = toks.filterMap g ↔ ∀ x ∈ toks, f x = g x := by
  induction toks with
  | nil => simp
  | cons x toks ih =>
    obtain ⟨⟨y, hy⟩, ⟨z, hz⟩⟩ := (h x (by simp)).imp Option.isSome_iff_exists.mp
      Option.isSome_iff_exists.mp
    rw [List.filterMap_cons_some hy, List.filterMap_cons_some hz, List.cons.injEq,
      ih fun x hx => h x (by simp [hx]), List.forall_mem_cons, hy, hz, Option.some.injEq]

theorem label_eq_iff {t : Target} (hapart : Apart O) (hapart' : Apart O') (hfine : t.Fine)
    (hat : ∃ r, t.At O r) (hat' : ∃ r, t.At O' r) :
    tokenToLabel (positionMaps O) t.token = tokenToLabel (positionMaps O') t.token ↔
      ∀ r, t.At O r ↔ t.At O' r := by
  obtain ⟨r, hr⟩ := hat
  obtain ⟨r', hr'⟩ := hat'
  rw [(tokenToLabel_token hapart hfine).mpr ⟨r, hr, rfl⟩,
    (tokenToLabel_token hapart' hfine).mpr ⟨r', hr', rfl⟩]
  constructor
  · intro hlabel
    have hread := parseRef_at hfine hr'
    rw [← Option.some.inj hlabel, parseRef_at hfine hr] at hread
    obtain rfl := Option.some.inj hread
    intro q
    constructor
    · intro hq
      rwa [at_unique hapart hfine hq hr]
    · intro hq
      rwa [at_unique hapart' hfine hq hr']
  · intro hsame
    rw [at_unique hapart' hfine ((hsame r).mp hr) hr']

/-- A section is not reported after an edit of the outline around it if and only if everything it
builds on stands where it stood. -/
theorem notDrifted_iff (hfresh : FreshFor fresh (rawIds o) (rawIds o).length)
    (hO : normalizeOutline fresh renew o = (O, [])) (hgrown : Grown O O' s)
    (hnew : NewTo fresh₁ O) (hnew' : NewTo fresh₂ O')
    (hk : (titled O)[k]? = some (chapterTitle, ci, si, s)) (hlt : k < maxSections)
    (hk' : (titled O')[k']? = some (chapterTitle, ci', si', s)) (hlt' : k' < maxSections) :
    ∃ plan plan' p q, planFromOutline fresh₁ O = some plan ∧ planFromOutline fresh₂ O' = some plan' ∧
      plan[k]? = some p ∧ plan'[k']? = some q ∧
      (NotDrifted p q ↔ ∀ t : Target, t.token ∈ s.buildsOn → t.Fine →
        ∀ r, t.At O r ↔ t.At O' r) := by
  have hnormal : Normal O := normal_of_normalize hfresh hO
  have hs : s ∈ sections O := mem_sections (titled_places (List.mem_of_getElem? hk))
  obtain ⟨u, hu⟩ := Normal.id_of_mem hnormal hs
  have hvalid : validId s.id = some u.str := by rw [hu, validId_str]
  obtain ⟨plan, hplan, hp⟩ := planFromOutline_getElem? hnormal.apart hnew hk hlt hvalid
  obtain ⟨plan', hplan', hq⟩ := planFromOutline_getElem? hgrown.apart hnew' hk' hlt' hvalid
  refine ⟨plan, plan', _, _, hplan, hplan', hp, hq, ?_⟩
  have hthere : ∀ t : Target, t.token ∈ s.buildsOn → t.Fine → (∃ r, t.At O r) ∧ ∃ r, t.At O' r := by
    intro t ht hfine
    obtain ⟨t', htok, hfine', -, r, hat⟩ := (hnormal.refs s hs).targets _ ht
    obtain rfl : t' = t := Target.token_injective hfine' hfine htok
    exact ⟨⟨r, hat⟩, hgrown.targets _ ht ⟨r, hat⟩⟩
  rw [notDrifted_planSection, filterMap_eq_iff]
  · constructor
    · intro hsame t ht hfine
      obtain ⟨hat, hat'⟩ := hthere t ht hfine
      exact (label_eq_iff hnormal.apart hgrown.apart hfine hat hat').mp (hsame _ ht)
    · intro hsame tok htok
      obtain ⟨t, rfl, hfine, -⟩ := (hnormal.refs s hs).targets tok htok
      obtain ⟨hat, hat'⟩ := hthere t htok hfine
      exact (label_eq_iff hnormal.apart hgrown.apart hfine hat hat').mpr (hsame t htok hfine)
  · intro tok htok
    obtain ⟨t, rfl, hfine, -⟩ := (hnormal.refs s hs).targets tok htok
    obtain ⟨⟨r, hat⟩, ⟨r', hat'⟩⟩ := hthere t htok hfine
    simp [(tokenToLabel_token hnormal.apart hfine).mpr ⟨r, hat, rfl⟩,
      (tokenToLabel_token hgrown.apart hfine).mpr ⟨r', hat', rfl⟩]

/-- The second section of `demand`. -/
def outlook : OutlineSection :=
  plainSection (some (drawn 2).str) "전망" [formatSectionToken (drawn 1).str (some "총수요".toList)]

theorem grown_demand : Grown demand demandAfterSupply outlook := by
  refine ⟨Edited.apart edited_demand, fun t ht hat => ?_⟩
  obtain ⟨r, hat⟩ := hat
  cases t with
  | ofSection u metric =>
    obtain ⟨ci, si, s, hs, hid, -⟩ := hat
    have hin : s ∈ sections demandAfterSupply := .tail _ (mem_sections hs)
    rw [← places_sections] at hin
    obtain ⟨x, hx, rfl⟩ := List.mem_map.mp hin
    exact ⟨_, x.1, x.2.1, _, hx, hid, rfl⟩
  | ofChapter u =>
    obtain ⟨ch, ci, hch, hid, -⟩ := hat
    obtain ⟨rfl, -⟩ := Prod.mk.inj (List.mem_singleton.mp hch)
    exact ⟨_, _, 1, .head _, hid, rfl⟩

theorem newTo_drawn : NewTo (fun _ => drawn 5) demand ∧ NewTo (fun _ => drawn 5) demandAfterSupply := by
  have hall : ∀ s ∈ sections demandAfterSupply, s.id.bind Uuid.parse ≠ some (drawn 5) := by decide
  exact ⟨fun _ s hs => hall s (.tail _ hs), fun _ => hall⟩

theorem freshFor_demand :
    FreshFor (fun n => drawn (n + 10)) (rawIds demand) (rawIds demand).length := by
  constructor <;> decide

theorem notDrifted_iff_demand : ∃ plan plan' p q,
    planFromOutline (fun _ => drawn 5) demand = some plan ∧
      planFromOutline (fun _ => drawn 5) demandAfterSupply = some plan' ∧
      plan[1]? = some p ∧ plan'[2]? = some q ∧
      (NotDrifted p q ↔ ∀ t : Target, t.token ∈ outlook.buildsOn → t.Fine →
        ∀ r, t.At demand r ↔ t.At demandAfterSupply r) :=
  notDrifted_iff freshFor_demand (Normal.fixed normal_demand) grown_demand newTo_drawn.1 newTo_drawn.2
    (show (titled demand)[1]? = some ("현황".toList, 1, 2, outlook) from rfl) (by decide)
    (show (titled demandAfterSupply)[2]? = some ("현황".toList, 1, 3, outlook) from rfl) (by decide)

/-- A section in front renumbers what the second section builds on. -/
theorem not_notDrifted_demand : ¬ ∀ (fresh fresh₁ fresh₂ : Nat → Uuid) (renew : Bool)
    (o O O' : Outline) (s : OutlineSection) (chapterTitle : Text) (ci si ci' si' k k' : Nat),
    FreshFor fresh (rawIds o) (rawIds o).length → normalizeOutline fresh renew o = (O, []) →
    Grown O O' s → NewTo fresh₁ O → NewTo fresh₂ O' →
    (titled O)[k]? = some (chapterTitle, ci, si, s) → k < maxSections →
    (titled O')[k']? = some (chapterTitle, ci', si', s) → k' < maxSections →
    ∃ plan plan' p q, planFromOutline fresh₁ O = some plan ∧
      planFromOutline fresh₂ O' = some plan' ∧ plan[k]? = some p ∧ plan'[k']? = some q ∧
      NotDrifted p q := by
  intro h
  obtain ⟨plan, plan', p, q, hplan, hplan', hp, hq, hsame⟩ := h _ _ _ false demand demand
    demandAfterSupply outlook "현황".toList 1 2 1 3 1 2 freshFor_demand (Normal.fixed normal_demand) grown_demand
    newTo_drawn.1 newTo_drawn.2 rfl (by decide) rfl (by decide)
  have hbefore : (((planFromOutline (fun _ => drawn 5) demand).getD [])[1]?).map (·.buildsOn) =
      some ["1.1(총수요)".toList] := by decide
  have hafter : (((planFromOutline (fun _ => drawn 5) demandAfterSupply).getD [])[2]?).map
      (·.buildsOn) = some ["1.2(총수요)".toList] := by decide
  rw [hplan, Option.getD_some, hp] at hbefore
  rw [hplan', Option.getD_some, hq] at hafter
  have hp : p.buildsOn = ["1.1(총수요)".toList] := Option.some.inj hbefore
  have hq : q.buildsOn = ["1.2(총수요)".toList] := Option.some.inj hafter
  have hrefs := hsame.buildsOn
  rw [hp, hq] at hrefs
  exact absurd hrefs (by decide)

end RownRg.Sections

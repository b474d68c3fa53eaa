import RownRg.Core.OutlineNormal

/-! Outlines in which several items hold one id. -/

open PyText

namespace RownRg.Outlines

open RownRg.BuildsOn

variable {o : Outline} {s : OutlineSection} {fresh : Nat → Uuid} {renew : Bool} {token named : IdToken}
  {selfId selfLabel raw tok : Text} {st : ClaimState} {secs : List OutlineSection}

/-- How many chapters and sections hold an id. -/
def holders (o : Outline) (id : Text) : Nat := ((rawIds o).map validId).count (some id)

/-- The first holder of an id keeps it, every later one gets another, and whatever named the id
still names the first holder. -/
structure DuplicatesSettled (fresh : Nat → Uuid) (o : Outline) : Prop where
  distinct : (rawIds (normalizeOutline fresh false o).1).Nodup
  first : ∀ l raw r id, rawIds o = l ++ raw :: r → validId raw = some id → some id ∉ l.map validId →
    (rawIds (normalizeOutline fresh false o).1)[l.length]? = some (some id)
  refs : ∀ s ∈ sections (ensureOutlineIds fresh false o).1, ∀ raw ∈ s.buildsOn, ∀ token label,
    parseIdToken raw = some token → 2 ≤ holders o token.id →
    ∃ tok named, normalizeRef (positionMaps (ensureOutlineIds fresh false o).1)
        (ensureOutlineIds fresh false o).2 (s.id.getD []) label raw = .ok tok ∧
      parseIdToken tok = some named ∧ named.id = token.id

theorem buildsOn_claimSections : (claimSections fresh renew st secs).1.map (·.buildsOn) =
    secs.map (·.buildsOn) := by
  induction secs generalizing st with
  | nil => rfl
  | cons sec secs ih => simp [claimSections, ih]

/-- Giving ids leaves the references as they were entered. -/
theorem buildsOn_ensure : (sections (ensureOutlineIds fresh renew o).1).map (·.buildsOn) =
    (sections o).map (·.buildsOn) := by
  have hall : ∀ st, (sections (claimChapters fresh renew st o).1).map (·.buildsOn) =
      (sections o).map (·.buildsOn) := by
    induction o with
    | nil => intro st; rfl
    | cons ch o ih =>
      intro st
      have ih := ih (claimSections fresh renew (claim fresh renew st ch.id).2 ch.sections).2
      simp only [sections, claimChapters, List.flatMap_cons, List.map_append] at ih ⊢
      rw [ih, buildsOn_claimSections]
  exact hall _

theorem exists_ensured (hs : s ∈ sections o) :
    ∃ s' ∈ sections (ensureOutlineIds fresh renew o).1, s'.buildsOn = s.buildsOn := by
  have hmem : s.buildsOn ∈ (sections o).map (·.buildsOn) := List.mem_map.mpr ⟨s, hs, rfl⟩
  rw [← @buildsOn_ensure o fresh renew] at hmem
  exact List.mem_map.mp hmem

theorem exists_entered (hs : s ∈ sections (ensureOutlineIds fresh renew o).1) :
    ∃ s' ∈ sections o, s'.buildsOn = s.buildsOn := by
  have hmem : s.buildsOn ∈ (sections (ensureOutlineIds fresh renew o).1).map (·.buildsOn) :=
    List.mem_map.mpr ⟨s, hs, rfl⟩
  rw [buildsOn_ensure] at hmem
  exact List.mem_map.mp hmem

/-- A token whose id is replaced names the id drawn instead. -/
theorem replaced_of_ok (hparse : parseIdToken raw = some token) {maps : PositionMaps} {remap : List (Text × Text)}
    {u : Uuid} (hremap : remap.lookup token.id = some u.str)
    (h : normalizeRef maps remap selfId selfLabel raw = .ok tok)
    (hnamed : parseIdToken tok = some named) : named.id = u.str := by
  unfold normalizeRef at h
  cases token with
  | chapter id =>
    have hlook : remap.lookup id = some u.str := hremap
    simp only [hparse, hlook, Option.getD_some] at h
    split at h
    · simp at h
    · obtain rfl := Except.ok.inj h
      rw [parseIdToken_formatChapter] at hnamed
      obtain rfl := Option.some.inj hnamed
      rfl
  | «section» id metric =>
    have hlook : remap.lookup id = some u.str := hremap
    simp only [hparse, hlook, Option.getD_some] at h
    split at h
    · simp at h
    · split at h
      · simp at h
      · obtain rfl := Except.ok.inj h
        rw [parseIdToken_formatSection u (parseIdToken_fine hparse)] at hnamed
        obtain rfl := Option.some.inj hnamed
        rfl

/-- A token of an id that several items hold never resolves to the item that keeps the id. -/
theorem moved_of_repeated (hfresh : FreshFor fresh (rawIds o) (rawIds o).length)
    (hparse : parseIdToken raw = some token) (hmany : 2 ≤ holders o token.id)
    (h : normalizeRef (positionMaps (ensureOutlineIds fresh false o).1)
      (ensureOutlineIds fresh false o).2 selfId selfLabel raw = .ok tok)
    (hnamed : parseIdToken tok = some named) : named.id ≠ token.id := by
  have hsome : ((claimAll fresh false ⟨[], [], 0⟩ (rawIds o)).2.remap.lookup token.id).isSome :=
    remap_of_repeated hmany
  rw [← remap_ensure] at hsome
  obtain ⟨y, hy⟩ := Option.isSome_iff_exists.mp hsome
  have hdrawn : ∃ i < (rawIds o).length, y = (fresh i).str :=
    remap_claimAll (by simp) (by simp) (remap_ensure ▸ hy)
  obtain ⟨i, hi, rfl⟩ := hdrawn
  rw [replaced_of_ok hparse hy h hnamed]
  intro heq
  obtain ⟨held, hheld, hid⟩ := List.mem_map.mp
    (List.count_pos_iff.mp (Nat.lt_of_lt_of_le Nat.two_pos hmany))
  exact hfresh.new i hi held hheld (hid.trans (congrArg some heq.symm))

/-- The references are right exactly where no token names an id that several items hold. -/
theorem duplicatesSettled_iff (hfresh : FreshFor fresh (rawIds o) (rawIds o).length) :
    DuplicatesSettled fresh o ↔ ∀ s ∈ sections o, ∀ raw ∈ s.buildsOn, ∀ token,
      parseIdToken raw = some token → holders o token.id < 2 := by
  constructor
  · intro h s hs raw hraw token hparse
    by_contra hmany
    obtain ⟨s', hs', heq⟩ := @exists_ensured o s fresh false hs
    obtain ⟨tok, named, hok, hnamed, hsame⟩ :=
      h.refs s' hs' raw (heq ▸ hraw) token [] hparse (by omega)
    exact moved_of_repeated hfresh hparse (by omega) hok hnamed hsame
  · intro h
    refine ⟨?_, ?_, ?_⟩
    · rw [rawIds_normalize]
      exact (nodup_givenIds hfresh).map fun _ _ => Option.some.inj
    · intro l raw r id hids hid hfirst
      rw [rawIds_normalize, List.getElem?_map]
      rw [hids] at hfresh
      have hget := claimAll_first hfresh le_rfl hid hfirst
      rw [givenIds, hids, hget]
      rfl
    · intro s hs raw hraw token label hparse hmany
      obtain ⟨s', hs', heq⟩ := exists_entered hs
      have hfew := h s' hs' raw (heq ▸ hraw) token hparse
      omega

/-- Two sections with one id, and a third that builds on that id. -/
def copied : Outline :=
  let sec (id : Option Text) (title : String) (buildsOn : List Text) : OutlineSection :=
    ⟨id, title.toList, [], [], [], buildsOn, ⟨.null, .null⟩, none⟩
  [⟨none, "현황".toList, [sec (some (drawn 32).str) "수요" [], sec (some (drawn 32).str) "공급" [],
    sec none "전망" [formatSectionToken (drawn 32).str none]]⟩]

theorem freshFor_copied : FreshFor drawn (rawIds copied) (rawIds copied).length := by
  constructor <;> decide

theorem duplicatesSettled_iff_copied : FreshFor drawn (rawIds copied) (rawIds copied).length ∧
    (DuplicatesSettled drawn copied ↔ ∀ s ∈ sections copied, ∀ raw ∈ s.buildsOn, ∀ token,
      parseIdToken raw = some token → holders copied token.id < 2) :=
  ⟨freshFor_copied, duplicatesSettled_iff freshFor_copied⟩

/-- The third section builds on the copy afterwards. -/
theorem not_duplicatesSettled_copied : ¬ ∀ fresh o, FreshFor fresh (rawIds o) (rawIds o).length →
    DuplicatesSettled fresh o := by
  intro h
  have hsettled := h drawn copied freshFor_copied
  have hparse := parseIdToken_formatSection (m := none) (drawn 32) (by simp [MetricFine])
  have hmany : 2 ≤ holders copied (IdToken.section (drawn 32).str none).id := by decide
  obtain ⟨third, hmem, hbuilds⟩ : ∃ s ∈ sections copied,
      s.buildsOn = [formatSectionToken (drawn 32).str none] :=
    ⟨_, List.mem_flatMap.mpr ⟨_, .head _, .tail _ (.tail _ (.head _))⟩, rfl⟩
  obtain ⟨s, hs, heq⟩ := @exists_ensured copied third drawn false hmem
  obtain ⟨tok, named, hok, hnamed, hsame⟩ :=
    hsettled.refs s hs _ (by rw [heq, hbuilds]; exact .head _) _ [] hparse hmany
  exact moved_of_repeated freshFor_copied hparse hmany hok hnamed hsame

end RownRg.Outlines

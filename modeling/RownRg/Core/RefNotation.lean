import RownRg.Core.OutlineNormal

/-! Two notations of one reference: the numbers a person writes and the token that is kept. -/

open PyText

namespace RownRg.Outlines

open RownRg.BuildsOn

variable {fresh : Nat → Uuid} {renew : Bool} {o : Outline} {r : BuildsOnRef}
  {selfId selfLabel raw tok : Text} {remap : List (Text × Text)} {n : Nat}

theorem metric_of_chapter (h : parseRef raw = some r) (hall : r.sectionNumber = none) :
    r.metric = none := by
  obtain ⟨-, -, -, -, -, -⟩ := parseRef_eq_some.1 h
  simp_all

theorem metric_fine (h : parseRef raw = some r) : MetricFine r.metric :=
  refText_fine (parseRef_eq_some.1 h)

theorem apart_normalize (hfresh : FreshFor fresh (rawIds o) (rawIds o).length) :
    Apart (normalizeOutline fresh renew o).1 := by
  obtain ⟨us, hnodup, hids⟩ := ids_normalize hfresh
  exact apart_of_ids hnodup hids

/-- The token that is kept for a human reference stands for the place that was written. -/
theorem normalizeRef_at (href : parseRef raw = some r)
    (h : normalizeRef (positionMaps o) remap selfId selfLabel raw = .ok tok) :
    ∃ t : Target, t.token = tok ∧ t.Fine ∧ t.At o r := by
  unfold normalizeRef at h
  simp only [parseIdToken_of_parseRef href, href] at h
  obtain ⟨chapter, sectionNumber, metric⟩ := r
  cases sectionNumber with
  | none =>
    have hmetric : metric = none := metric_of_chapter href rfl
    dsimp only at h
    split at h
    · simp at h
    · rename_i id hlast
      obtain rfl := Except.ok.inj h
      obtain ⟨ch, hx, hid⟩ := mem_chByNum.1 (mem_of_lastFor hlast)
      obtain ⟨u, rfl⟩ := exists_of_validId hid
      exact ⟨.ofChapter u, rfl, trivial, ch, chapter, hx, hid, by rw [hmetric]⟩
  | some n =>
    dsimp only at h
    split at h
    · simp at h
    · rename_i id hlast
      split at h
      · simp at h
      · obtain rfl := Except.ok.inj h
        obtain ⟨s, hx, hid⟩ := mem_secByPos.1 (mem_of_lastFor hlast)
        obtain ⟨u, rfl⟩ := exists_of_validId hid
        exact ⟨.ofSection u metric, rfl, metric_fine href, chapter, n, s, hx, hid, rfl⟩

/-- A human reference that is accepted comes back from its token in its canonical spelling, and the
token of a section gives back its id and its metric. -/
theorem ref_notation (hfresh : FreshFor fresh (rawIds o) (rawIds o).length) :
    (∀ remap selfId selfLabel raw tok r, parseRef raw = some r →
      normalizeRef (positionMaps (normalizeOutline fresh renew o).1) remap selfId selfLabel raw =
        .ok tok →
      tokenToLabel (positionMaps (normalizeOutline fresh renew o).1) tok = some r.label ∧
        (r.sectionNumber = none → r.label = chapterLabel r.chapter)) ∧
    ∀ (u : Uuid) raw r, parseRef raw = some r →
      parseIdToken (formatSectionToken u.str r.metric) = some (.section u.str r.metric) := by
  refine ⟨fun remap selfId selfLabel raw tok r href h => ⟨?_, fun hall => ?_⟩, fun u raw r href => ?_⟩
  · obtain ⟨t, rfl, hfine, hat⟩ := normalizeRef_at href h
    exact (tokenToLabel_token (apart_normalize hfresh) hfine).mpr ⟨r, hat, rfl⟩
  · simp [BuildsOnRef.label, hall, metric_of_chapter href hall, withMetric]
  · exact parseIdToken_formatSection u (metric_fine href)

/-- One chapter with one section. -/
def supplyOutline : Outline := [⟨some (drawn 0).str, "현황".toList,
  [⟨some (drawn 1).str, "공급".toList, [], [], [], [], ⟨.null, .null⟩, none⟩]⟩]

theorem ref_notation_supply :
    tokenToLabel (positionMaps (normalizeOutline (fun n => drawn (n + 10)) false supplyOutline).1)
      (formatSectionToken (drawn 1).str (some "총수요".toList)) = some "1.1(총수요)".toList := by
  have hfresh : FreshFor (fun n => drawn (n + 10)) (rawIds supplyOutline)
      (rawIds supplyOutline).length := by
    constructor <;> decide
  have hrun : parseRef " 01.1( 총수요 )".toList = some ⟨1, some 1, some "총수요".toList⟩ ∧
      normalizeRef (positionMaps (normalizeOutline (fun n => drawn (n + 10)) false supplyOutline).1)
        [] (drawn 2).str "1.2".toList " 01.1( 총수요 )".toList =
        .ok (formatSectionToken (drawn 1).str (some "총수요".toList)) := by decide
  exact (( ref_notation hfresh).1 _ _ _ _ _ _ hrun.1 hrun.2).1

end RownRg.Outlines

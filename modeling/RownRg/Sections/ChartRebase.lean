import RownRg.Core.ChartSources
import RownRg.Sections.Rebase

/-! The source lines of charts while the numbering moves: only the marks are rewritten. -/

open PyText RownRg.Citations RownRg.Charts

namespace RownRg.Sections

variable {ι σ : Type} [DecidableEq ι] [DecidableEq σ] {src : ι → Option σ} {g : ι → Option Nat}
  {row row₀ : Section ι} {rows₀ : List (Section ι)} {n : Nat} {sources sources' : List (ProjectSource σ)}

/-- Marks and source lines follow one map; a number of a source line keeps its chunks, and it is
the present number of an adopted source. -/
structure ChartTruth (src : ι → Option σ) (sources : List (ProjectSource σ))
    (row₀ row : Section ι) : Prop where
  follows : ∃ F, Follows F row₀ row ∧
    chartSources row.content = (chartSources row₀.content).filterMap F ∧
    ∀ n ∈ chartSources row₀.content, ∀ m, F n = some m → chunksBehind row m = chunksBehind row₀ n
  current : ∀ n ∈ chartSources row.content, ∃ cids,
    row.sectionMeta.citationChunks.lookup n = some cids ∧ cids ≠ [] ∧
    ∀ c ∈ cids, ∃ s ∈ sources, s.isIncluded ∧ src c = some s.id ∧
      sourceOrder sources s.id = some n

/-- A change that moves no number of a source line, and whose deleted marks leave the other marks
and the source lines as they are. -/
structure KeepsCharts (f : Nat → Option Nat) (t : Text) : Prop where
  seams : SeamSafe f t
  lines : chartSources (dropUnmapped f t) = chartSources t
  numbers : ∀ n ∈ chartSources t, f n = some n

instance {f : Nat → Option Nat} {t : Text} : Decidable (KeepsCharts f t) :=
  decidable_of_iff (SeamSafe f t ∧ chartSources (dropUnmapped f t) = chartSources t ∧
      ∀ n ∈ chartSources t, f n = some n)
    ⟨fun h => ⟨h.1, h.2.1, h.2.2⟩, fun h => ⟨h.seams, h.lines, h.numbers⟩⟩

def ChartsSafe (src : ι → Option σ) (report : Report ι σ) (change : σ × Bool) : Prop :=
  ∀ row ∈ report.sections,
    KeepsCharts (moved (chunkToGlobal src (withIncluded report.sources change.1 change.2)) row)
      row.content

instance {report : Report ι σ} {change : σ × Bool} : Decidable (ChartsSafe src report change) :=
  inferInstanceAs (Decidable (∀ row ∈ report.sections, _))

/-- What holds of the charts of a section along a run. -/
structure ChartsKept (src : ι → Option σ) (sources : List (ProjectSource σ))
    (row₀ row : Section ι) : Prop where
  kept : Kept src sources row₀ row
  follows : ∃ F, Follows F row₀ row ∧ ∀ n ∈ chartSources row₀.content, F n = some n
  lines : chartSources row.content = chartSources row₀.content
  chunks : ∀ n ∈ chartSources row₀.content, chunksBehind row n = chunksBehind row₀ n
  current : ∀ n ∈ chartSources row.content, ∃ cids,
    row.sectionMeta.citationChunks.lookup n = some cids ∧ cids ≠ [] ∧
    ∀ c ∈ cids, chunkToGlobal src sources c = some n

/-- The entry of a number that does not move. -/
theorem lookup_unmoved (h : Keyed src row) (hn : n ∈ row.sectionMeta.citationChunks.map Prod.fst)
    (hmoved : moved (chunkToGlobal src sources) row n = some n) :
    ∃ cids cids', row.sectionMeta.citationChunks.lookup n = some cids ∧
      (rebaseSection (chunkToGlobal src sources) row).1.sectionMeta.citationChunks.lookup n =
        some cids' ∧
      cids' ≠ [] ∧ cids'.eraseDups = cids.eraseDups ∧
      ∀ c ∈ cids', chunkToGlobal src sources c = some n := by
  obtain ⟨cids, s, hcids, hne, hs, hnew⟩ := h.entry hn
  rw [hnew] at hmoved
  have hnumber : ∀ c ∈ cids, chunkToGlobal src sources c = some n := fun c hc => by
    rw [chunkToGlobal_eq (hs c hc), hmoved]
  rcases rebaseSection_cases (chunkToGlobal src sources) row with ⟨hstays, -⟩ | ⟨-, -, htable⟩
  · rw [hstays]
    exact ⟨cids, cids, hcids, hcids, hne, rfl, hnumber⟩
  · refine ⟨cids, cids.eraseDups, hcids, ?_, mt FirstSeen.eq_nil hne, FirstSeen.idem _, ?_⟩
    · rw [htable]
      exact lookup_rekeyed h.keys (nodup_newNumbers h) hcids ((newNumber_eq hne hs).trans hmoved)
    · exact fun c hc => hnumber c (List.mem_eraseDups.mp hc)

theorem chartSources_rebased
    (hlines : chartSources (dropUnmapped (moved g row) row.content) = chartSources row.content) :
    chartSources (rebaseSection g row).1.content = chartSources row.content := by
  rcases rebaseSection_cases g row with ⟨hstays, -⟩ | ⟨-, htext, -⟩
  · rw [hstays]
  · rw [htext, chartSources_renumber]
    exact hlines

theorem ChartsKept.step (h : ChartsKept src sources row₀ row)
    (hsafe : KeepsCharts (moved (chunkToGlobal src sources') row) row.content) :
    ChartsKept src sources' row₀ (rebaseSection (chunkToGlobal src sources') row).1 := by
  have hkeyed := h.kept.keyed
  have hlines := chartSources_rebased hsafe.lines
  have hkeys : ∀ n ∈ chartSources row.content,
      n ∈ row.sectionMeta.citationChunks.map Prod.fst := by
    intro n hn
    obtain ⟨cids, hcids, -⟩ := h.current n hn
    exact Pairing.lookup_isSome.mp (by simp [hcids])
  obtain ⟨F, hF, hstay⟩ := h.follows
  obtain ⟨hfollows, -, -⟩ := rebaseSection_spec hkeyed hsafe.seams
  refine ⟨h.kept.step hsafe.seams, ⟨_, hF.trans hfollows, fun n hn => ?_⟩, hlines.trans h.lines,
    fun n hn => ?_, fun n hn => ?_⟩
  · rw [hstay n hn, Option.bind_some]
    exact hsafe.numbers n (h.lines ▸ hn)
  · have hn' : n ∈ chartSources row.content := h.lines ▸ hn
    obtain ⟨cids, cids', hold, hnew, -, hsame, -⟩ :=
      lookup_unmoved hkeyed (hkeys n hn') (hsafe.numbers n hn')
    rw [← h.chunks n hn]
    simp [chunksBehind, hold, hnew, hsame]
  · rw [hlines] at hn
    obtain ⟨cids, cids', -, hnew, hne, -, hnumber⟩ :=
      lookup_unmoved hkeyed (hkeys n hn) (hsafe.numbers n hn)
    exact ⟨cids', hnew, hne, hnumber⟩

theorem ChartsKept.truth (h : ChartsKept src sources row₀ row) :
    ChartTruth src sources row₀ row := by
  obtain ⟨F, hF, hstay⟩ := h.follows
  refine ⟨⟨F, hF, ?_, fun n hn m hm => ?_⟩, fun n hn => ?_⟩
  · rw [h.lines, List.filterMap_congr hstay, List.filterMap_some]
  · obtain rfl := Option.some.inj ((hstay n hn).symm.trans hm)
    exact h.chunks n hn
  · obtain ⟨cids, hcids, hne, hnumber⟩ := h.current n hn
    refine ⟨cids, hcids, hne, fun c hc => ?_⟩
    obtain ⟨s, hs, hs'⟩ := Option.bind_eq_some_iff.mp (hnumber c hc)
    obtain ⟨x, hx, hincluded, rfl⟩ := included_of_sourceOrder hs'
    exact ⟨x, hx, hincluded, hs, hs'⟩

theorem Numbered.chartsKept (h : Numbered src sources row)
    (hcharts : ∀ n ∈ chartSources row.content, n ∈ row.sectionMeta.citationChunks.map Prod.fst) :
    ChartsKept src sources row row := by
  refine ⟨h.kept, ⟨some, Keyed.follows_self fun _ _ => rfl, fun _ _ => rfl⟩, rfl, fun _ _ => rfl,
    fun n hn => ?_⟩
  obtain ⟨cids, hcids⟩ := Option.isSome_iff_exists.mp (Pairing.lookup_isSome.mpr (hcharts n hn))
  exact ⟨cids, hcids, h.source _ ((Pairing.lookup_eq_some h.keys).mp hcids)⟩

theorem chartsKept_step {report report' : Report ι σ} {change : σ × Bool}
    (hstep : updateProjectSource src report change = some report')
    (hsafe : ChartsSafe src report change)
    (h : List.Forall₂ (ChartsKept src report.sources) rows₀ report.sections) :
    List.Forall₂ (ChartsKept src report'.sources) rows₀ report'.sections := by
  unfold updateProjectSource at hstep
  split at hstep
  · cases hstep
  · split at hstep
    · obtain rfl := Option.some.inj hstep
      exact h
    · obtain rfl := Option.some.inj hstep
      simp only
      rw [rebaseGlobalNumbers_sections (mem_of_forall₂ h fun _ _ h => h.kept.keyed),
        List.forall₂_map_right_iff]
      rw [List.forall₂_iff_zip] at h ⊢
      refine ⟨h.1, fun {row₀ row} hmem => ?_⟩
      exact (h.2 hmem).step (hsafe row (List.of_mem_zip hmem).2)

/-- In a run that moves no number of a source line the charts stay true. -/
theorem charts_true_along {report : Report ι σ} {changes : List (σ × Bool)}
    (hstart : ∀ row ∈ report.sections, Numbered src report.sources row ∧
      ∀ n ∈ chartSources row.content, n ∈ row.sectionMeta.citationChunks.map Prod.fst)
    (hsafe : Runs.Along (updateProjectSource src) (fun r change _ => ChartsSafe src r change)
      report changes) :
    Runs.Always (updateProjectSource src)
      (fun r => List.Forall₂ (ChartTruth src r.sources) report.sections r.sections)
      report changes := by
  have hkept : List.Forall₂ (ChartsKept src report.sources) report.sections report.sections :=
    List.forall₂_same.mpr fun row hrow => (hstart row hrow).1.chartsKept (hstart row hrow).2
  have hrun : Runs.Always (updateProjectSource src)
      (fun r => List.Forall₂ (ChartsKept src r.sources) report.sections r.sections)
      report changes :=
    Runs.always_of_step (fun _ _ _ hstep hok h => chartsKept_step hstep hok h) hkept hsafe
  exact hrun.mono fun _ h => h.imp fun _ _ => ChartsKept.truth

/-- A chart over the first source and two marks. -/
def charted (n : Nat) : Report Nat Nat :=
  threeSources ("가 (출처 1) 나 [3]\n```chart\ntype: bar\nsource: ".toList ++ ofNat n ++ "\n```".toList)
    [(1, [1]), (3, [3])]

/-- The source behind all others goes. -/
theorem charts_true_last_source :
    Runs.Always (updateProjectSource some)
      (fun r => List.Forall₂ (ChartTruth some r.sources) (charted 1).sections r.sections)
      (charted 1) [(2, false), (3, false)] :=
  charts_true_along (by decide) (by decide)

/-- An earlier source goes: the marks move up, the source line does not. -/
theorem not_charts_true_moved :
    ¬ ∀ (report : Report Nat Nat) (changes : List (Nat × Bool)),
      (∀ row ∈ report.sections, Numbered some report.sources row ∧
        ∀ n ∈ chartSources row.content, n ∈ row.sectionMeta.citationChunks.map Prod.fst) →
      Runs.Always (updateProjectSource some)
        (fun r => List.Forall₂ (ChartTruth some r.sources) report.sections r.sections)
        report changes := by
  intro h
  have hrun := h (charted 3) [(1, false)] (by decide)
  obtain ⟨⟩ | ⟨htruth, -⟩ := hrun.2 _ rfl
  obtain ⟨cids, hcids, -⟩ := htruth.current 3 (by decide)
  have hsome := Option.isSome_of_eq_some hcids
  revert hsome
  decide

end RownRg.Sections

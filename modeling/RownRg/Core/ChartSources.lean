import RownRg.Core.ChartLayout
import RownRg.Core.Carried
import RownRg.Lib.Unread

/-! The numbers on the source lines of chart fences, and what the marks around them have to do
with them. -/

open PyText Regex RownRg.Citations

namespace RownRg.Charts

/-- The numbers of the source lines of one fence. -/
def bodySources (body : Text) : List Nat :=
  (sourceLineRe.finditer body).flatMap fun m =>
    ((((m.group .nums).getD []).splitOn ',').map strip).filterMap toNat?

/-- The numbers on the source lines of every chart fence. -/
def chartSources (md : Text) : List Nat :=
  (chartFenceRe.finditer md).flatMap fun fm => bodySources ((fm.group .body).getD [])

def blockSources : Block → List Nat
  | .line _ => []
  | .fence _ body _ => bodySources (closed body)

variable {a b t l x y ql : Text} {ls ms ms' bs : List Text} {k k' : Core} {c o e : Char}
  {f : Nat → Option Nat} {ps qs : List (Piece MarkGroup)}

theorem hits_joinPieces (bs : List Block) :
    (hits (joinPieces bs)).flatMap (fun fm => bodySources ((fm.group .body).getD [])) =
      bs.flatMap blockSources := by
  have hblock : ∀ b, (hits (blockPieces b)).flatMap
      (fun fm => bodySources ((fm.group .body).getD [])) = blockSources b := by
    intro b
    cases b with
    | line l => simp [blockPieces, hits_map_plain, blockSources]
    | fence hd body cl => simp [blockPieces, hits, Piece.match?, blockSources, fenceMatch, Match.group]
  induction bs with
  | nil => rfl
  | cons b bs ih =>
    cases bs with
    | nil => simpa [joinPieces] using hblock b
    | cons b' bs =>
      rw [joinPieces_cons _ (by simp), hits_append, List.flatMap_append, hblock, List.flatMap_cons]
      exact congrArg _ ih

theorem chartSources_lines (hls : ∀ l ∈ ls, '\n' ∉ l) :
    chartSources (joinLines ls) = (layout ls).flatMap blockSources := by
  rw [chartSources, finditer, pieces_layout hls, hits_joinPieces]

/-! A mark in the body of a fence. -/

/-- `sourceLineRe` behind its `lineStart`. -/
def sourceLineRest : Regex SourceLineGroup :=
  cat [group .indent blanks, lit "source:".toList, blanks,
    group .nums (plus (cls fun c => isDigit c || c == ',' || isSpace c)), lineEnd]

theorem lined_sourceLineRe : sourceLineRe.Lined := by
  simp [sourceLineRe, cat, lit, blanks, plus, chr, oneOf, Lined]

theorem shuns_sourceLineRe (h : o = '(' ∨ o = '[') : sourceLineRe.Shuns o := by
  rcases h with rfl | rfl <;>
    simp [sourceLineRe, cat, lit, blanks, plus, chr, oneOf, Shuns] <;> decide

/-- No source line starts inside a mark. -/
theorem first_sourceLine_inside (hx : ∀ c ∈ x ++ [e], Inside c) (he : isSpace e = false) :
    sourceLineRe.first y (x ++ [e] ++ b) = none := by
  simp only [first, Option.map_eq_none_iff, List.head?_eq_none_iff]
  refine List.eq_nil_iff_forall_not_mem.mpr fun q hq => ?_
  simp only [sourceLineRe, cat] at hq
  rw [mem_run_seq_lineStart, mem_run_seq_group (by trivial)] at hq
  obtain ⟨-, w, v, hw, htext, hq⟩ := hq
  rw [mem_run_seq_plain (plain_lit _)] at hq
  obtain ⟨word, v, hword, rfl, -⟩ := hq
  obtain rfl := accepts_lit.1 hword
  have hblank := accepts_blanks.1 hw
  have hs : ¬ Inside 's' := by simp [Inside]; decide
  have hspace : ∀ c ∈ w, isSpace c := by
    intro c hc
    have hmem : c ∈ " \t".toList := by simpa [isBlank] using hblank c hc
    rcases List.mem_cons.mp hmem with rfl | hmem
    · decide
    · obtain rfl := List.mem_singleton.mp hmem
      decide
  -- the blanks end inside the mark, and no mark has an 's'
  rcases List.append_eq_append_iff.mp htext with ⟨z, rfl, -⟩ | ⟨z, hz, hrest⟩
  · have he' : e ∈ x ++ [e] ++ z := by simp
    have hbad := hspace e he'
    simp [he] at hbad
  · cases z with
    | nil =>
      have he' : e ∈ w := by
        have hmem : e ∈ x ++ [e] := by simp
        rwa [hz, List.append_nil] at hmem
      have hbad := hspace e he'
      simp [he] at hbad
    | cons d z =>
      obtain rfl : 's' = d := (List.cons.inj hrest).1
      exact hs (hx _ (by rw [hz]; simp))

/-- Another mark in the place of one leaves the numbers of the source lines. -/
theorem bodySources_core (hk : k.Ok) (hk' : k'.Ok) (hq : k.isQuote = k'.isQuote) (a b : Text) :
    bodySources (a ++ (k.text ++ b)) = bodySources (a ++ (k'.text ++ b)) := by
  obtain ⟨o, x, e, hx, ho, he, hinside⟩ := core_shape hk
  obtain ⟨o', x', e', hx', ho', he', hinside'⟩ := core_shape hk'
  rw [ho', ← hq, ← ho] at hx'
  have hopen : o = '(' ∨ o = '[' := by
    rw [ho]
    split <;> simp
  obtain ⟨ps, hps⟩ := piecesFrom_parts (shuns_sourceLineRe hopen) [] a
  have hmark : ∀ (x : Text) (e : Char), (∀ c ∈ x ++ [e], Inside c) → isSpace e = false →
      hits (sourceLineRe.pieces (a ++ o :: (x ++ [e] ++ b))) =
        hits ps ++ hits (sourceLineRe.piecesFrom ['x'] b) := by
    intro x e hinside he
    have hline : atLineStart (e :: (x.reverse ++ o :: (a.reverse ++ []))) =
        atLineStart ['x'] := by
      have hne : e ≠ '\n' := by
        rintro rfl
        exact absurd he (by decide)
      simp [atLineStart, hne]
    have hstretch := piecesFrom_stretch (r := sourceLineRe) (w := x ++ [e]) (b := b)
      (x := o :: (a.reverse ++ [])) fun y z hyz hz => by
        obtain ⟨z, d, rfl⟩ := List.eq_nil_or_concat' z |>.resolve_left hz
        rw [← List.append_assoc] at hyz
        obtain ⟨rfl, hed⟩ := List.append_inj' hyz rfl
        obtain rfl : e = d := by simpa using hed
        exact first_sourceLine_inside (fun c hc => hinside c (by simp at hc ⊢; tauto)) he
    have hsame : ∀ y, atLineStart y = atLineStart ['x'] →
        sourceLineRe.piecesFrom y b = sourceLineRe.piecesFrom ['x'] b := fun y hy =>
      scan_sees lined_sourceLineRe hy _ _
    change hits (sourceLineRe.piecesFrom [] (a ++ o :: (x ++ [e] ++ b))) = _
    rw [hps, hstretch, hits_append, ← hsame _ hline, hits_plain, hits_append, hits_map_plain]
    simp
  unfold bodySources finditer
  rw [hx, hx']
  have h := (hmark x e hinside he).trans (hmark x' e' hinside' he').symm
  simp only [List.cons_append] at h ⊢
  rw [h]

/-! A mark among the lines of a body. -/

/-- A line that neither opens nor closes a fence. -/
def Ordinary (l : Text) : Prop := isHeader l = false ∧ isClosing l = false

theorem fenceLine_chars (h : isHeader l ∨ isClosing l) :
    (∀ c ∈ l, c ∈ "`chart \t".toList) ∧ '`' ∈ l := by
  have hword : ∀ word : Text, (∀ c ∈ word, c ∈ "`chart \t".toList) → '`' ∈ word →
      isFenceLine word l → (∀ c ∈ l, c ∈ "`chart \t".toList) ∧ '`' ∈ l := by
    intro word hall hmem hl
    obtain ⟨w, hw, rfl⟩ := isFenceLine_iff.1 hl
    refine ⟨fun c hc => ?_, List.mem_append_left _ hmem⟩
    rcases List.mem_append.mp hc with hc | hc
    · exact hall c hc
    · have hblank : c ∈ " \t".toList := by simpa [isBlank] using hw c hc
      revert hblank
      simp
      tauto
  rcases h with h | h
  · exact hword _ (by simp) (by simp) h
  · exact hword _ (by simp) (by simp) h

theorem ordinary_of_mem (hc : c ∈ l) (h : c ∉ "`chart \t".toList) : Ordinary l := by
  constructor <;> by_contra hl
  · exact h ((fenceLine_chars (.inl (by simpa using hl))).1 c hc)
  · exact h ((fenceLine_chars (.inr (by simpa using hl))).1 c hc)

theorem ordinary_of_notMem (h : '`' ∉ l) : Ordinary l := by
  constructor <;> by_contra hl
  · exact h (fenceLine_chars (.inl (by simpa using hl))).2
  · exact h (fenceLine_chars (.inr (by simpa using hl))).2

/-- The lines on which the rest of a mark stands are ordinary. -/
theorem ordinary_rest (hx : ∀ c ∈ x, '`' ≠ c) (he : e ∉ "`chart \t".toList) (hn : e ≠ '\n')
    (hql : '\n' ∉ ql) : ∀ l ∈ (x ++ e :: ql).splitOn '\n', Ordinary l := by
  induction x using line_induction with
  | last l hl =>
    have hline : '\n' ∉ l ++ e :: ql := by simp [hl, hql, hn.symm]
    simp only [List.splitOn_eq_singleton hline, List.mem_singleton, forall_eq]
    exact ordinary_of_mem (c := e) (by simp) he
  | cons l t hl ih =>
    have hsplit : l ++ '\n' :: t ++ e :: ql = l ++ '\n' :: (t ++ e :: ql) := by simp
    rw [hsplit, List.splitOn_append_cons_self_of_not_mem hl]
    refine List.forall_mem_cons.mpr ⟨ordinary_of_notMem fun h => hx '`' (by simp [h]) rfl, ?_⟩
    exact ih fun c hc => hx c (by simp [hc])

/-- The lines on which a mark stands are ordinary. -/
theorem ordinary_mark (hk : k.Ok) (hy : '\n' ∉ y) (hql : '\n' ∉ ql) :
    ∀ l ∈ (y ++ (k.text ++ ql)).splitOn '\n', Ordinary l := by
  obtain ⟨o, x, e, hx, ho, he, hinside⟩ := core_shape hk
  have hopen : o ∉ "`chart \t".toList ∧ o ≠ '\n' := by
    rw [ho]
    split <;> decide
  have hend : e ∉ "`chart \t".toList ∧ e ≠ '\n' := by
    have hin := hinside e (by simp)
    constructor
    · intro hmem
      simp at hmem
      rcases hmem with rfl | rfl | rfl | rfl | rfl | rfl | rfl | rfl <;> revert hin he <;>
        simp [Inside] <;> decide
    · rintro rfl
      exact absurd he (by decide)
  have hback : ∀ c ∈ x, '`' ≠ c := by
    rintro c hc rfl
    have hin := hinside '`' (by simp [hc])
    revert hin
    simp [Inside]
    decide
  rw [hx]
  by_cases hline : '\n' ∈ x
  · obtain ⟨x₁, x₂, rfl, hx₁⟩ := List.eq_append_cons_of_mem hline
    have htext : y ++ (o :: (x₁ ++ '\n' :: x₂ ++ [e]) ++ ql) =
        (y ++ o :: x₁) ++ '\n' :: (x₂ ++ e :: ql) := by simp
    have hfirst : '\n' ∉ y ++ o :: x₁ := by simp [hy, hx₁, hopen.2.symm]
    rw [htext, List.splitOn_append_cons_self_of_not_mem hfirst]
    refine List.forall_mem_cons.mpr ⟨ordinary_of_mem (c := o) (by simp) hopen.1, ?_⟩
    exact ordinary_rest (fun c hc => hback c (by simp [hc])) hend.1 hend.2 hql
  · have hone : '\n' ∉ y ++ (o :: (x ++ [e]) ++ ql) := by
      simp [hy, hline, hql, hopen.2.symm, hend.2.symm]
    simp only [List.splitOn_eq_singleton hone, List.mem_singleton, forall_eq]
    exact ordinary_of_mem (c := o) (by simp) hopen.1

theorem layout_ordinary (h : ∀ l ∈ ms, Ordinary l) (ls : List Text) :
    layout (ms ++ ls) = ms.map .line ++ layout ls := by
  induction ms with
  | nil => rfl
  | cons m ms ih =>
    obtain ⟨hm, hms⟩ := List.forall_mem_cons.mp h
    have hline : layout (m :: (ms ++ ls)) = .line m :: layout (ms ++ ls) :=
      layout_line fun hhd => absurd hhd (by simp [hm.1])
    rw [List.cons_append, hline, ih hms]
    rfl

theorem sources_ordinary (ms : List Text) : (ms.map Block.line).flatMap blockSources = [] := by
  simp [List.flatMap_map, blockSources]

/-- Ordinary lines in the place of others leave the fences around them. -/
theorem layout_replace (hms : ∀ l ∈ ms, Ordinary l) (hms' : ∀ l ∈ ms', Ordinary l)
    (hbody : ∀ ls bs, bodySources (closed (ls ++ (ms ++ bs))) =
      bodySources (closed (ls ++ (ms' ++ bs)))) (ls bs : List Text) :
    (layout (ls ++ (ms ++ bs))).flatMap blockSources =
      (layout (ls ++ (ms' ++ bs))).flatMap blockSources := by
  induction ls using layout_induction with
  | nil =>
    simp only [List.nil_append, layout_ordinary hms, layout_ordinary hms', List.flatMap_append,
      sources_ordinary]
  | fence hd body cl rest hhd hopen hcl ih =>
    simp only [List.cons_append, List.append_assoc, layout_fence hhd hopen hcl,
      List.flatMap_cons, ih]
  | line l ls hl ih =>
    simp only [List.cons_append]
    by_cases hcut : isHeader l ∧ ∃ x ∈ bs, isClosing x
    · -- the fence runs over the lines and beyond
      obtain ⟨hhd, x, hx, hxcl⟩ := hcut
      have hcutbs : ∃ y, cutClosing bs = some y := by
        by_contra hnone
        have hnone : cutClosing bs = none := by
          rw [Option.eq_none_iff_forall_not_mem]
          exact fun y hy => hnone ⟨y, hy⟩
        simp [cutClosing_none hnone x hx] at hxcl
      obtain ⟨⟨body, cl, rest⟩, hbs⟩ := hcutbs
      obtain ⟨rfl, hcl, hopen⟩ := cutClosing_some hbs
      have hfence : ∀ ns : List Text, (∀ l ∈ ns, Ordinary l) →
          layout (l :: (ls ++ (ns ++ (body ++ cl :: rest)))) =
            .fence l (ls ++ (ns ++ body)) cl :: layout rest := by
        intro ns hns
        have hall : ∀ z ∈ ls ++ (ns ++ body), isClosing z = false := by
          intro z hz
          rcases List.mem_append.mp hz with hz | hz
          · exact hl hhd z hz
          · rcases List.mem_append.mp hz with hz | hz
            · exact (hns z hz).2
            · exact hopen z hz
        have hlayout : layout (l :: (ls ++ (ns ++ body) ++ cl :: rest)) =
            .fence l (ls ++ (ns ++ body)) cl :: layout rest := layout_fence hhd hall hcl
        simpa using hlayout
      rw [hfence ms hms, hfence ms' hms', List.flatMap_cons, List.flatMap_cons]
      simp only [blockSources, hbody]
    · have hline : ∀ ns : List Text, (∀ l ∈ ns, Ordinary l) →
          layout (l :: (ls ++ (ns ++ bs))) = .line l :: layout (ls ++ (ns ++ bs)) := by
        intro ns hns
        refine layout_line fun hhd z hz => ?_
        rcases List.mem_append.mp hz with hz | hz
        · exact hl hhd z hz
        · rcases List.mem_append.mp hz with hz | hz
          · exact (hns z hz).2
          · by_contra hzcl
            exact hcut ⟨hhd, z, hz, by simpa using hzcl⟩
      rw [hline ms hms, hline ms' hms', List.flatMap_cons, List.flatMap_cons, ih]

/-! A mark anywhere in a body. -/

theorem exists_closed (t : Text) : ∃ ls y, t = closed ls ++ y ∧ (∀ l ∈ ls, '\n' ∉ l) ∧ '\n' ∉ y := by
  induction t using line_induction with
  | last l hl => exact ⟨[], l, rfl, by simp, hl⟩
  | cons l t hl ih =>
    obtain ⟨ls, y, rfl, hls, hy⟩ := ih
    exact ⟨l :: ls, y, by simp, List.forall_mem_cons.mpr ⟨hl, hls⟩, hy⟩

theorem exists_below (t : Text) : ∃ l ls, t = l ++ below ls ∧ '\n' ∉ l ∧ ∀ x ∈ ls, '\n' ∉ x := by
  have hjoin := joinLines_splitOn t
  have hall := notMem_splitOn t
  cases hls : t.splitOn '\n' with
  | nil =>
    rw [hls] at hjoin
    exact ⟨[], [], by rw [← hjoin]; rfl, by simp, by simp⟩
  | cons l ls =>
    rw [hls] at hjoin hall
    exact ⟨l, ls, hjoin.symm, hall l (by simp), fun x hx => hall x (by simp [hx])⟩

theorem joinLines_append (ls : List Text) (hne : ms ≠ []) (bs : List Text) :
    joinLines (ls ++ (ms ++ bs)) = closed ls ++ (joinLines ms ++ below bs) := by
  induction ls with
  | nil =>
    obtain ⟨m, ms, rfl⟩ := List.exists_cons_of_ne_nil hne
    simp [joinLines]
  | cons l ls ih =>
    have htail : ls ++ (ms ++ bs) ≠ [] := by simp [hne]
    rw [List.cons_append, joinLines_cons l htail, ih, closed_cons]
    simp

theorem closed_joinLines (hne : ms ≠ []) : closed ms = joinLines ms ++ ['\n'] := by
  obtain ⟨m, ms, rfl⟩ := List.exists_cons_of_ne_nil hne
  have h := below_closed (m :: ms)
  simpa [joinLines] using h

/-- Another mark in the place of one leaves the numbers of every fence. -/
theorem chartSources_core (hk : k.Ok) (hk' : k'.Ok) (hq : k.isQuote = k'.isQuote) (a b : Text) :
    chartSources (a ++ (k.text ++ b)) = chartSources (a ++ (k'.text ++ b)) := by
  obtain ⟨ls, y, rfl, hls, hy⟩ := exists_closed a
  obtain ⟨ql, bs, rfl, hql, hbs⟩ := exists_below b
  have hne : ∀ k : Core, (y ++ (k.text ++ ql)).splitOn '\n' ≠ [] := fun k =>
    List.splitOn_ne_nil _ _
  have htext : ∀ k : Core, closed ls ++ y ++ (k.text ++ (ql ++ below bs)) =
      joinLines (ls ++ ((y ++ (k.text ++ ql)).splitOn '\n' ++ bs)) := by
    intro k
    rw [joinLines_append ls (hne k), joinLines_splitOn]
    simp
  have hall : ∀ k : Core, ∀ l ∈ ls ++ ((y ++ (k.text ++ ql)).splitOn '\n' ++ bs), '\n' ∉ l := by
    intro k l hl
    rcases List.mem_append.mp hl with hl | hl
    · exact hls l hl
    · rcases List.mem_append.mp hl with hl | hl
      · exact notMem_splitOn _ l hl
      · exact hbs l hl
  have hclosed : ∀ (k : Core) (ls bs : List Text),
      closed (ls ++ ((y ++ (k.text ++ ql)).splitOn '\n' ++ bs)) =
        (closed ls ++ y) ++ (k.text ++ (ql ++ '\n' :: closed bs)) := by
    intro k ls bs
    have hms := closed_joinLines (hne k)
    rw [joinLines_splitOn] at hms
    unfold closed at hms ⊢
    rw [List.flatMap_append, List.flatMap_append, hms]
    simp
  rw [htext, htext, chartSources_lines (hall k), chartSources_lines (hall k')]
  refine layout_replace (ordinary_mark hk hy hql) (ordinary_mark hk' hy hql) (fun ls bs => ?_) ls bs
  rw [hclosed, hclosed]
  exact bodySources_core hk hk' hq _ _

theorem chartSources_alike (h : List.Forall₂ Alike ps qs) (a : Text) :
    chartSources (a ++ render ps) = chartSources (a ++ render qs) := by
  induction h generalizing a with
  | nil => rfl
  | cons hpq _ ih =>
    cases hpq with
    | plain c => simpa using ih (a ++ [c])
    | @mark sp k k' hsp hk hk' hq =>
      have hcore := chartSources_core hk hk' hq (a ++ sp)
      have htail := ih (a ++ (sp ++ k.text))
      simp only [render_hit, mark_text, List.append_assoc] at hcore htail ⊢
      rw [htail, hcore]

/-- Renumbering the marks touches the source lines only by the marks it deletes. -/
theorem chartSources_renumber (f : Nat → Option Nat) (t : Text) :
    chartSources (renumber t f) = chartSources (dropUnmapped f t) := by
  rw [renumber_eq, dropUnmapped_eq]
  exact (chartSources_alike (alike_renumber (proper_tokens (tokens_marks t))) []).symm

end RownRg.Charts


import RownRg.Export.Figures
import RownRg.Lib.Enclosing

/-! The marks that a paragraph inherits: when they go, and where their sources still show. -/

open PyText Regex Enclosing RownRg.Citations

namespace RownRg.Export

/-- The text of a paragraph that is kept, before the marks go that it inherits. -/
def keptText (text : Text) : Option Text :=
  let text := strip (SourceMarks.stripNonnumericSourceMarks text)
  if text.isEmpty || (bareSourceLabelRe.matchStart text).isSome then none else some text

/-- A paragraph that is kept and names sources: its level and their numbers. -/
def naming : Block → Option (Nat × List Nat)
  | .paragraph text indent => do
    let t ← keptText text
    if sourceNumbers t = [] then none else return (indent, sourceNumbers t)
  | _ => none

def namings (blocks : List Block) : List (Nat × List Nat) := blocks.filterMap naming

variable {titles : Nat → Option Text} {parents : ParentSources} {pre post bs : List Block}
  {b : Block} {text t : Text} {indent n : Nat}

theorem dropInherited_parents (t : Text) (indent : Nat) (parents : ParentSources) :
    (dropInheritedSourceMarks t indent parents).2 =
      if sourceNumbers t = [] then parents else push parents (indent, sourceNumbers t) := by
  unfold dropInheritedSourceMarks
  split
  · rename_i h
    simp [h]
  · rename_i h
    exact (if_neg h).symm

/-- The text that stays: without its marks where open paragraphs above name all its sources. -/
theorem dropInherited_text (t : Text) (indent : Nat) (es : List (Nat × List Nat)) :
    (dropInheritedSourceMarks t indent (opened es)).1 = t ∧
      (sourceNumbers t = [] ∨ ¬ Covered es (indent, sourceNumbers t)) ∨
    (dropInheritedSourceMarks t indent (opened es)).1 = strip (CrossSection.stripSourceMarks t) ∧
      sourceNumbers t ≠ [] ∧ Covered es (indent, sourceNumbers t) := by
  have hinherited : (∀ d ∈ sourceNumbers t,
      d ∈ ((opened es).filter fun p => p.1 < indent).flatMap (·.2)) ↔
      Covered es (indent, sourceNumbers t) := by
    simp [Covered, and_assoc]
  unfold dropInheritedSourceMarks
  split
  · rename_i h
    exact .inl ⟨rfl, .inl h⟩
  · rename_i h
    have hall : ((sourceNumbers t).all
        (((opened es).filter fun p => p.1 < indent).flatMap (·.2)).contains) ↔
        Covered es (indent, sourceNumbers t) := by
      rw [← hinherited, List.all_eq_true]
      simp only [List.contains_iff_mem]
    dsimp only
    by_cases hcovered : Covered es (indent, sourceNumbers t)
    · exact .inr ⟨if_pos (hall.mpr hcovered), h, hcovered⟩
    · exact .inl ⟨if_neg (hall.not.mpr hcovered), .inr hcovered⟩

theorem naming_paragraph (indent : Nat) (hkept : keptText text = some t) :
    naming (.paragraph text indent) =
      if sourceNumbers t = [] then none else some (indent, sourceNumbers t) := by
  simp [naming, hkept]

theorem namings_cons_none (h : naming b = none) : namings (b :: bs) = namings bs :=
  List.filterMap_cons_none h

theorem namings_cons_some {e : Nat × List Nat} (h : naming b = some e) :
    namings (b :: bs) = e :: namings bs :=
  List.filterMap_cons_some h

/-- The paragraph before the marks go that it inherits is left out, or its marks go by what is
open. -/
theorem stripCitationBlocks_paragraph :
    stripCitationBlocks titles parents (.paragraph text indent :: bs) =
      match keptText text with
      | none => stripCitationBlocks titles parents bs
      | some t => .paragraph (dropInheritedSourceMarks t indent parents).1 indent ::
        stripCitationBlocks titles (dropInheritedSourceMarks t indent parents).2 bs := by
  rw [stripCitationBlocks, keptText]
  split <;> simp

theorem stripCitationBlocks_append :
    stripCitationBlocks titles parents (pre ++ bs) =
      stripCitationBlocks titles parents pre ++
        stripCitationBlocks titles ((namings pre).foldl push parents) bs := by
  induction pre generalizing parents with
  | nil => rfl
  | cons b pre ih =>
    cases b with
    | paragraph text indent =>
      rw [List.cons_append, stripCitationBlocks_paragraph, stripCitationBlocks_paragraph]
      cases hkept : keptText text with
      | none => rw [namings_cons_none (by simp [naming, hkept]), ih]
      | some t =>
        have hnaming := naming_paragraph indent hkept
        dsimp only
        rw [ih, List.cons_append, dropInherited_parents]
        by_cases hnone : sourceNumbers t = []
        · rw [if_pos hnone] at hnaming ⊢
          rw [namings_cons_none hnaming]
        · rw [if_neg hnone] at hnaming ⊢
          rw [namings_cons_some hnaming, List.foldl_cons]
    | heading level text =>
      rw [namings_cons_none rfl]
      simp [stripCitationBlocks, ih]
    | table t =>
      rw [namings_cons_none rfl]
      simp [stripCitationBlocks, ih]
    | chart spec fallback =>
      rw [namings_cons_none rfl]
      simp [stripCitationBlocks, ih]
    | figure f =>
      rw [namings_cons_none rfl]
      simp [stripCitationBlocks, ih]

/-- What becomes of a paragraph that is kept, at its place. -/
theorem stripCitationBlocks_split (titles : Nat → Option Text) (pre post : List Block) (indent : Nat)
    (hkept : keptText text = some t) :
    ∃ rest, stripCitationBlocks titles [] (pre ++ .paragraph text indent :: post) =
      stripCitationBlocks titles [] pre ++
        .paragraph (dropInheritedSourceMarks t indent (opened (namings pre))).1 indent :: rest := by
  rw [stripCitationBlocks_append, stripCitationBlocks_paragraph, hkept]
  exact ⟨_, rfl⟩

theorem naming_some {e : Nat × List Nat} (h : naming b = some e) :
    ∃ text t, b = .paragraph text e.1 ∧ keptText text = some t ∧ e.2 = sourceNumbers t := by
  cases b with
  | paragraph text indent =>
    obtain ⟨t, hkept, h⟩ := Option.bind_eq_some_iff.mp h
    split at h
    · cases h
    · cases h
      exact ⟨text, t, rfl, hkept, rfl⟩
  | heading level text => cases h
  | table t => cases h
  | chart spec fallback => cases h
  | figure f => cases h

/-- The marks of a paragraph go exactly where the open paragraphs above it name all its sources;
and each source is still shown by the paragraph itself or by one that stands around it, with only
deeper ones that name sources in between. -/
theorem inherited_marks (pre post : List Block) (hkept : keptText text = some t) :
    (∃ shown rest, stripCitationBlocks titles [] (pre ++ .paragraph text indent :: post) =
        stripCitationBlocks titles [] pre ++ .paragraph shown indent :: rest ∧
      (shown = t ∧ (sourceNumbers t = [] ∨ ¬ Covered (namings pre) (indent, sourceNumbers t)) ∨
        shown = strip (CrossSection.stripSourceMarks t) ∧
          sourceNumbers t ≠ [] ∧ Covered (namings pre) (indent, sourceNumbers t))) ∧
    ∀ n ∈ sourceNumbers t, ∃ above text' t' indent' between rest,
      pre ++ [.paragraph text indent] = above ++ .paragraph text' indent' :: between ∧
      keptText text' = some t' ∧ n ∈ sourceNumbers t' ∧
      (∀ e ∈ namings between, indent' < e.1) ∧
      stripCitationBlocks titles [] (pre ++ .paragraph text indent :: post) =
        stripCitationBlocks titles [] above ++ .paragraph t' indent' :: rest := by
  obtain ⟨rest, hrest⟩ := stripCitationBlocks_split titles pre post indent hkept
  refine ⟨⟨_, rest, hrest, dropInherited_text _ _ _⟩, fun n hn => ?_⟩
  have hnaming := naming_paragraph indent hkept
  rw [if_neg (List.ne_nil_of_mem hn)] at hnaming
  obtain ⟨before, a, after, hsplit, hna, hnot, hafter⟩ :=
    exists_uncovered (namings pre) (e := (indent, sourceNumbers t)) hn
  have hmap : namings (pre ++ [.paragraph text indent]) = before ++ a :: after := by
    rw [← hsplit, namings, List.filterMap_append, List.filterMap_cons_some hnaming]
    rfl
  obtain ⟨first, others, hblocks, hfirst, hothers⟩ := List.filterMap_eq_append_iff.mp hmap
  obtain ⟨skipped, b, between, rfl, hskipped, hb, hbetween⟩ := List.filterMap_eq_cons_iff.mp hothers
  obtain ⟨text', t', rfl, hkept', hnums⟩ := naming_some hb
  have habove : namings (first ++ skipped) = before := by
    rw [namings, List.filterMap_append, hfirst, List.filterMap_eq_nil_iff.mpr hskipped,
      List.append_nil]
  -- the paragraph that is not covered keeps its text
  have hshown : (dropInheritedSourceMarks t' a.1 (opened (namings (first ++ skipped)))).1 = t' := by
    obtain ⟨hshown, -⟩ | ⟨-, -, hcovered⟩ := dropInherited_text t' a.1
      (namings (first ++ skipped))
    · exact hshown
    · rw [habove, ← hnums] at hcovered
      exact absurd hcovered hnot
  obtain ⟨rest', hrest'⟩ := stripCitationBlocks_split titles (first ++ skipped) (between ++ post)
    a.1 hkept'
  rw [hshown] at hrest'
  refine ⟨first ++ skipped, text', t', a.1, between, rest', by simp [hblocks], hkept', hnums ▸ hna,
    fun e he => hafter e (hbetween ▸ he), ?_⟩
  rw [← hrest']
  congr 1
  calc pre ++ .paragraph text indent :: post = (pre ++ [.paragraph text indent]) ++ post := by simp
    _ = first ++ skipped ++ .paragraph text' a.1 :: (between ++ post) := by rw [hblocks]; simp

/-- An item, and one below it that names the same source. -/
def topAndBelow : List Block :=
  [.paragraph "매출 10% 증가 (출처 1)".toList 0, .paragraph "이익 5% 증가 (출처 1)".toList 1]

def paragraphText : Block → Text
  | .paragraph text _ => text
  | _ => []

theorem inherited_marks_below :
    (stripCitationBlocks (fun _ => none) [] topAndBelow).map paragraphText =
      ["매출 10% 증가 (출처 1)".toList, "이익 5% 증가".toList] ∧
    ∃ above text' t' indent' between rest,
      topAndBelow = above ++ .paragraph text' indent' :: between ∧
      keptText text' = some t' ∧ 1 ∈ sourceNumbers t' ∧
      (∀ e ∈ namings between, indent' < e.1) ∧
      stripCitationBlocks (fun _ => none) [] topAndBelow =
        stripCitationBlocks (fun _ => none) [] above ++ .paragraph t' indent' :: rest := by
  have heval : keptText "이익 5% 증가 (출처 1)".toList = some "이익 5% 증가 (출처 1)".toList ∧
      1 ∈ sourceNumbers "이익 5% 증가 (출처 1)".toList ∧
      (stripCitationBlocks (fun _ => none) [] topAndBelow).map paragraphText =
        ["매출 10% 증가 (출처 1)".toList, "이익 5% 증가".toList] := by
    decide
  obtain ⟨hkept, hn, hshown⟩ := heval
  exact ⟨hshown, (inherited_marks [.paragraph "매출 10% 증가 (출처 1)".toList 0] [] hkept).2 1 hn⟩

end RownRg.Export

import RownRg.Qa.LoneHeading

/-! When the repair of the heading numbers keeps what the references name. -/

open PyText Regex

namespace RownRg.Headings

variable {s h b sp t u v w x y z rest content result : Text} {chapter sec only n k : Nat} {c : Char}
  {ms : List (Match NumberGroup)}

/-- The numbers of the section among the matches, as they are written. -/
def ownWritten (chapter sec : Nat) (ms : List (Match NumberGroup)) : List Text :=
  ms.filterMap fun m =>
    if numberOf m .chapter = chapter ∧ numberOf m .section = sec then some (written m) else none

/-- There is one sub-heading, its number is written plainly, no reference names it, and no number
of the section stands right behind it. -/
structure DropsRight (content : Text) (chapter sec only : Nat) : Prop where
  plain : ownWritten chapter sec (subHeadingRe.finditer content) = [label chapter sec only]
  unnamed : only ∉ refNumbers content chapter sec
  free : ∀ v ∈ ((loneRe chapter sec only).split content).tail, ∀ m rest,
    refRe.first [] v = some (m, rest) → ¬ (numberOf m .chapter = chapter ∧ numberOf m .section = sec)

theorem length_ownWritten : (ownWritten chapter sec ms).length = (ownNumbers chapter sec ms).length := by
  induction ms with
  | nil => rfl
  | cons m ms ih =>
    simp only [ownWritten, ownNumbers] at ih ⊢
    rw [List.filterMap_cons, List.filterMap_cons]
    by_cases hown : numberOf m .chapter = chapter ∧ numberOf m .section = sec
    · rw [if_pos hown, if_pos hown, List.length_cons, List.length_cons, ih]
    · rw [if_neg hown, if_neg hown, ih]

theorem ownWritten_eq (content : Text) (chapter sec : Nat) :
    ownWritten chapter sec (subHeadingRe.finditer content) =
      ownWritten chapter sec (inHeadings content) := by
  refine filterMap_caps (fun m m' hm => ?_) (finditer_subHeadingRe content)
  obtain ⟨text, caps⟩ := m
  obtain ⟨text', caps'⟩ := m'
  obtain rfl : caps = caps' := hm
  rfl

theorem ownNumbers_append (ms ms' : List (Match NumberGroup)) :
    ownNumbers chapter sec (ms ++ ms') = ownNumbers chapter sec ms ++ ownNumbers chapter sec ms' :=
  List.filterMap_append

theorem ownNumbers_label (ms : List (Match NumberGroup)) : ownNumbers chapter sec
    (refMatch (ofNat chapter) (ofNat sec) (ofNat only) :: ms) = only :: ownNumbers chapter sec ms := by
  have hown : numberOf (refMatch (ofNat chapter) (ofNat sec) (ofNat only)) .chapter = chapter ∧
      numberOf (refMatch (ofNat chapter) (ofNat sec) (ofNat only)) .section = sec :=
    ⟨natOf_ofNat chapter, natOf_ofNat sec⟩
  have hnumber : numberOf (refMatch (ofNat chapter) (ofNat sec) (ofNat only)) .number = only :=
    natOf_ofNat only
  rw [ownNumbers, List.filterMap_cons, if_pos hown, hnumber]
  rfl

/-! The numbers beside those of the section. -/

theorem splitOnP_digit (hc : isDigit c = false) (t v : Text) :
    (t ++ c :: v).splitOnP (fun c => !isDigit c) =
      t.splitOnP (fun c => !isDigit c) ++ v.splitOnP (fun c => !isDigit c) :=
  List.splitOnP_append_cons t v (by simp [hc])

theorem digitRuns_cons (hc : isDigit c = false) (t : Text) : digitRuns (c :: t) = digitRuns t := by
  have hcut := splitOnP_digit hc [] t
  rw [List.nil_append] at hcut
  rw [digitRuns, hcut]
  simp [digitRuns]

/-- A stretch without digits parts the digits before it from those behind it. -/
theorem digitRuns_between (hw : ∀ c ∈ w, isDigit c = false) (hne : w ≠ []) (t v : Text) :
    digitRuns (t ++ (w ++ v)) = digitRuns t ++ digitRuns v := by
  obtain ⟨c, w, rfl⟩ := List.exists_cons_of_ne_nil hne
  obtain ⟨hc, hw⟩ := List.forall_mem_cons.mp hw
  have hrest : ∀ w : Text, (∀ c ∈ w, isDigit c = false) → digitRuns (w ++ v) = digitRuns v := by
    intro w
    induction w with
    | nil => exact fun _ => rfl
    | cons d w ih =>
      intro hw
      obtain ⟨hd, hw⟩ := List.forall_mem_cons.mp hw
      rw [List.cons_append, digitRuns_cons hd, ih hw]
  rw [List.cons_append, digitRuns, splitOnP_digit hc, List.filter_append]
  exact congrArg _ (hrest w hw)

theorem not_digit_of_not_numeric (hc : isNumeric c = false) : isDigit c = false := by
  simp only [isNumeric, Bool.or_eq_false_iff] at hc
  exact hc.1

/-- What is put for the numbers of the section. -/
def blankPiece (chapter sec : Nat) : Piece NumberGroup → Text :=
  Piece.rewrite fun m => if ownNumbers chapter sec [m] = [] then m.text else [' ']

theorem flatMap_blankPiece (w : Text) : (w.map .plain).flatMap (blankPiece chapter sec) = w := by
  induction w with
  | nil => rfl
  | cons c w ih =>
    rw [List.map_cons, List.flatMap_cons, ih]
    rfl

/-- The other numbers do not change when the label goes. -/
theorem otherNumbers_drop (hm : Mark s h b) (hsp : ∀ c ∈ sp, isSpace c)
    (hd : ∀ c ∈ (sp ++ v).head?, isDigit c = false) (u : Text) :
    otherNumbers (u ++ (s ++ (h ++ (' ' :: v)))) chapter sec =
      otherNumbers (u ++ (s ++ (h ++ (b ++ (label chapter sec only ++ (sp ++ v)))))) chapter sec := by
  have hkeep : ∀ c ∈ s ++ (h ++ [' ']), isNumeric c = false := by
    intro c hc
    simp only [List.mem_append, List.mem_singleton] at hc
    rcases hc with hc | hc | rfl
    · exact hm.not_numeric c (by simp [hc])
    · exact hm.not_numeric c (by simp [hc])
    · decide
  have hafter : blankOwn (u ++ (s ++ (h ++ (' ' :: v)))) chapter sec =
      (refRe.pieces u).flatMap (blankPiece chapter sec) ++
        ((s ++ (h ++ [' '])) ++ (refRe.pieces v).flatMap (blankPiece chapter sec)) := by
    have hpieces : refRe.pieces (u ++ (s ++ (h ++ (' ' :: v)))) =
        refRe.pieces u ++ ((s ++ (h ++ [' '])).map .plain ++ refRe.pieces v) := by
      rw [pieces_cut (head?_mark hm), ← pieces_not_numeric hkeep]
      simp
    rw [blankOwn, sub, hpieces]
    simp only [List.flatMap_append]
    rw [← blankPiece, flatMap_blankPiece]
  have hbefore : blankOwn (u ++ (s ++ (h ++ (b ++ (label chapter sec only ++ (sp ++ v)))))) chapter sec =
      (refRe.pieces u).flatMap (blankPiece chapter sec) ++
        ((s ++ (h ++ (b ++ (' ' :: sp)))) ++ (refRe.pieces v).flatMap (blankPiece chapter sec)) := by
    have hblank : blankPiece chapter sec (.hit (refMatch (ofNat chapter) (ofNat sec) (ofNat only))) =
        [' '] := by
      rw [blankPiece, Piece.rewrite, ownNumbers_label]
      rfl
    rw [blankOwn, sub, label_eq, pieces_heading hm (digits_ofNat _) (digits_ofNat _) (digits_ofNat _) hd,
      pieces_not_numeric fun c hc => not_numeric_space (hsp c hc)]
    simp only [List.flatMap_append, List.flatMap_cons]
    rw [← blankPiece, flatMap_blankPiece, flatMap_blankPiece, hblank]
    simp
  have hwide : ∀ c ∈ s ++ (h ++ (b ++ (' ' :: sp))), isDigit c = false := by
    intro c hc
    simp only [List.mem_append, List.mem_cons] at hc
    rcases hc with hc | hc | hc | rfl | hc
    · exact not_digit_of_not_numeric (hm.not_numeric c (by simp [hc]))
    · exact not_digit_of_not_numeric (hm.not_numeric c (by simp [hc]))
    · exact not_digit_of_not_numeric (hm.not_numeric c (by simp [hc]))
    · decide
    · exact not_isDigit_of_isSpace (hsp c hc)
  rw [otherNumbers, otherNumbers, hafter, hbefore,
    digitRuns_between (fun c hc => not_digit_of_not_numeric (hkeep c hc)) (by simp [hm.ne_nil]),
    digitRuns_between hwide (by simp [hm.ne_nil])]

/-! One sub-heading, or several with one number. -/

theorem mem_ownOrder : k ∈ ownOrder content chapter sec ↔ k ∈ headingNumbers content chapter sec :=
  List.mem_eraseDups

/-- Headings that all have one number are not numbered through. -/
theorem not_numberedThrough {ns : List Nat} (hall : ∀ k ∈ ns, k = only) (hne : ns ≠ []) :
    ns ≠ if ns.length = 1 then [] else List.range' 1 ns.length := by
  intro heq
  split at heq
  · exact hne heq
  · rename_i hone
    have hpos := List.length_pos_of_ne_nil hne
    have hfirst : 1 ∈ ns := by
      rw [heq, List.mem_range'_1]
      omega
    have hsecond : 2 ∈ ns := by
      rw [heq, List.mem_range'_1]
      omega
    have hone := hall 1 hfirst
    have htwo := hall 2 hsecond
    omega

theorem mem_inHeadings {m : Match NumberGroup} (hm : m ∈ inHeadings t) :
    ∃ u s h b v, Mark s h b ∧ atLineStart u.reverse ∧ (∀ c ∈ v.head?, isDigit c = false) ∧
      t = u ++ (s ++ (h ++ (b ++ (m.text ++ v)))) := by
  obtain ⟨p, hp, rfl⟩ := List.mem_map.mp hm
  obtain ⟨hmem, hheaded⟩ := List.mem_filter.mp hp
  obtain ⟨y, z, hsplit, hbefore, hz⟩ := mem_spotsFrom hmem
  have hheaded : Headed p.1 := by simpa using hheaded
  obtain ⟨s, h, b, k, hm, heq, hline⟩ := hheaded
  rw [hbefore, List.append_nil] at heq
  have hy : y = k.reverse ++ (s ++ (h ++ b)) := by
    rw [← List.reverse_reverse y, heq]
    simp
  exact ⟨k.reverse, s, h, b, z, hm, by simpa using hline, hz, by rw [hsplit, hy]; simp⟩

/-- Where the pattern finds nothing, no sub-heading is written plainly. -/
theorem not_plain_of_unfound (hnone : ∀ y z, content = y ++ z → z ≠ [] → ∀ m rest,
      (loneRe chapter sec only).first (y.reverse ++ []) z = some (m, rest) → m.text = []) :
    label chapter sec only ∉ ownWritten chapter sec (subHeadingRe.finditer content) := by
  rw [ownWritten_eq]
  intro hin
  obtain ⟨m, hm, hwritten⟩ := List.mem_filterMap.mp hin
  split at hwritten
  · obtain ⟨x, y, z, rfl⟩ := refMatch_of_mem_sorted (.inl hm)
    have htext : (refMatch x y z).text = label chapter sec only := Option.some.inj hwritten
    obtain ⟨u, s, h, b, v, hmark, hline, hv, rfl⟩ := mem_inHeadings hm
    have hcut := List.takeWhile_append_dropWhile (p := isSpace) (l := v)
    have hsp : ∀ c ∈ v.takeWhile isSpace, isSpace c := fun c hc => List.mem_takeWhile_imp hc
    have hv' : ∀ c ∈ (v.dropWhile isSpace).head?, isSpace c = false := head?_dropWhile v
    generalize v.takeWhile isSpace = sp at hcut hsp
    generalize v.dropWhile isSpace = v' at hcut hv'
    subst hcut
    rw [htext] at hnone
    have hfirst : (loneRe chapter sec only).first (u.reverse ++ [])
        (s ++ (h ++ (b ++ (label chapter sec only ++ (sp ++ v'))))) = some _ :=
      first_lone (by simpa using hline) hmark hsp hv' hv
    have hnil := hnone u _ rfl (by simp [hmark.ne_nil]) _ _ hfirst
    simp [hmark.ne_nil] at hnil
  · cases hwritten

/-- Several headings with one number cannot be put right by taking numbers away. -/
theorem not_keepsReferences_repeated
    (hall : ∀ k ∈ headingNumbers content chapter sec, k = only)
    (hmany : 2 ≤ (headingNumbers content chapter sec).length) :
    ¬ KeepsReferences content (dropLoneNumber chapter sec only content) chapter sec := by
  intro h
  have hone : (headingNumbers content chapter sec).length ≠ 1 := by omega
  have hheads := h.headings
  rw [if_neg hone] at hheads
  have hsubset : ∀ k ∈ headingNumbers (dropLoneNumber chapter sec only content) chapter sec,
      k ∈ headingNumbers content chapter sec ∨ k ∈ refNumbers content chapter sec := by
    intro k hk
    rw [headingNumbers_eq, dropLoneNumber_eq] at hk
    rw [headingNumbers_eq, refNumbers_eq]
    obtain ⟨m, hm, hnumber⟩ := List.mem_filterMap.mp hk
    have hin := finditer_loneRe [] content m (mem_finditer.2 (.inl hm))
    rcases mem_finditer.1 hin with hin | hin
    · exact .inl (List.mem_filterMap.mpr ⟨m, hin, hnumber⟩)
    · exact .inr (List.mem_filterMap.mpr ⟨m, hin, hnumber⟩)
  obtain ⟨k, hk, hne⟩ : ∃ k ∈ List.range' 1 (headingNumbers content chapter sec).length, k ≠ only := by
    by_cases hfirst : only = 1
    · exact ⟨2, by rw [List.mem_range'_1]; omega, by omega⟩
    · exact ⟨1, by rw [List.mem_range'_1]; omega, by omega⟩
  have hnot : k ∉ headingNumbers content chapter sec := fun hin => hne (hall k hin)
  rw [← hheads] at hk
  have href := (hsubset k hk).resolve_left hnot
  have hkeep : k ∈ (refNumbers content chapter sec).filter fun c =>
      ¬ (headingNumbers (dropLoneNumber chapter sec only content) chapter sec = [] ∧
        c ∈ headingNumbers content chapter sec) := by
    refine List.mem_filter.mpr ⟨href, ?_⟩
    simp [hnot]
  obtain ⟨i, hi, rfl⟩ := List.getElem_of_mem hkeep
  obtain ⟨hlen, hnames⟩ := List.forall₂_iff_get.mp h.refs
  obtain ⟨hsame, hkept⟩ := hnames i hi (hlen ▸ hi)
  have hkept := hkept hnot
  rw [hkept] at hsame
  obtain ⟨j, hj⟩ := List.mem_iff_getElem?.mp hk
  exact hnot (List.mem_of_getElem? ((hsame j).mp hj))

theorem dropLoneNumber_unfound
    (hpieces : (loneRe chapter sec only).piecesFrom [] content = content.map .plain) :
    dropLoneNumber chapter sec only content = content := by
  rw [dropLoneNumber_eq, subFrom, hpieces]
  have hplain : ∀ t : Text, (t.map .plain).flatMap (Piece.rewrite keepMark) = t := by
    intro t
    induction t with
    | nil => rfl
    | cons c t ih =>
      rw [List.map_cons, List.flatMap_cons, ih]
      rfl
  exact hplain content

/-- The only sub-heading: a text with one heading that the pattern finds. -/
theorem keepsReferences_found (hm : Mark s h b) (hline : atLineStart u.reverse)
    (hsp : ∀ c ∈ sp, isSpace c) (hv : ∀ c ∈ v.head?, isSpace c = false)
    (hd : ∀ c ∈ (sp ++ v).head?, isDigit c = false)
    (hcontent : content = u ++ (s ++ (h ++ (b ++ (label chapter sec only ++ (sp ++ v))))))
    (hone : (headingNumbers content chapter sec).length = 1) :
    KeepsReferences content (u ++ (s ++ (h ++ (' ' :: v)))) chapter sec ↔
      only ∉ refNumbers content chapter sec ∧ ∀ m rest, refRe.first [] v = some (m, rest) →
        ¬ (numberOf m .chapter = chapter ∧ numberOf m .section = sec) := by
  have hlabel : Digits (ofNat chapter) ∧ Digits (ofNat sec) ∧ Digits (ofNat only) := digits_label ..
  obtain ⟨hx, hy, hz⟩ := hlabel
  obtain ⟨hheads, hbody⟩ := sorted_heading (w := []) hm hx hy hz hd (by simpa using hline)
  rw [← label_eq, ← hcontent, pieces_not_numeric fun c hc => not_numeric_space (hsp c hc),
    headedFrom_map_plain] at hheads
  rw [← label_eq, ← hcontent, pieces_not_numeric fun c hc => not_numeric_space (hsp c hc),
    bodyFrom_map_plain] at hbody
  generalize sp.reverse ++ ((label chapter sec only).reverse ++ ((s ++ (h ++ b)).reverse ++
    (u.reverse ++ []))) = x at hheads hbody
  have hnumbers : headingNumbers content chapter sec =
      ownNumbers chapter sec (headedFrom [] (refRe.pieces u)) ++
        only :: ownNumbers chapter sec (headedFrom x (refRe.pieces v)) := by
    rw [headingNumbers_eq, inHeadings, hheads, ownNumbers_append, ownNumbers_label]
  have hrefs : refNumbers content chapter sec =
      ownNumbers chapter sec (bodyFrom [] (refRe.pieces u)) ++
        ownNumbers chapter sec (bodyFrom x (refRe.pieces v)) := by
    rw [refNumbers_eq, inBody, hbody, ownNumbers_append]
  have hlen := hone
  rw [hnumbers, List.length_append, List.length_cons] at hlen
  have hleft : ownNumbers chapter sec (headedFrom [] (refRe.pieces u)) = [] :=
    List.eq_nil_of_length_eq_zero (by omega)
  have hright : ownNumbers chapter sec (headedFrom x (refRe.pieces v)) = [] :=
    List.eq_nil_of_length_eq_zero (by omega)
  rw [hleft, hright, List.nil_append] at hnumbers
  obtain ⟨h', d, rfl⟩ := List.eq_nil_or_concat' h |>.resolve_left hm.ne_nil
  obtain rfl := hm.hashes d (by simp)
  have hbefore : (s ++ (h' ++ ['#'] ++ [' '])).reverse ++ u.reverse =
      ' ' :: '#' :: (h'.reverse ++ (s.reverse ++ u.reverse)) := by simp
  obtain ⟨hheads', hbody'⟩ := sorted_mark hm u v
  rw [hbefore] at hheads' hbody'
  have hnumbers' : headingNumbers (u ++ (s ++ (h' ++ ['#'] ++ (' ' :: v)))) chapter sec =
      ownNumbers chapter sec
        (headedFrom (' ' :: '#' :: (h'.reverse ++ (s.reverse ++ u.reverse))) (refRe.pieces v)) := by
    rw [headingNumbers_eq, inHeadings, hheads', ownNumbers_append, hleft, List.nil_append]
  have hrefs' : refNumbers (u ++ (s ++ (h' ++ ['#'] ++ (' ' :: v)))) chapter sec =
      ownNumbers chapter sec (bodyFrom [] (refRe.pieces u)) ++ ownNumbers chapter sec
        (bodyFrom (' ' :: '#' :: (h'.reverse ++ (s.reverse ++ u.reverse))) (refRe.pieces v)) := by
    rw [refNumbers_eq, inBody, hbody', ownNumbers_append]
  by_cases hfree : ∀ m rest, refRe.first [] v = some (m, rest) →
      ¬ (numberOf m .chapter = chapter ∧ numberOf m .section = sec)
  · obtain ⟨hnone, hsame⟩ := sorted_rest (k := h'.reverse ++ (s.reverse ++ u.reverse)) hv hright hfree
    rw [hnone] at hnumbers'
    rw [hsame, ← hrefs] at hrefs'
    constructor
    · intro hkeeps
      refine ⟨fun hin => ?_, hfree⟩
      have hlength := hkeeps.refs.length_eq
      rw [hrefs', List.length_filter_eq_length_iff] at hlength
      exact of_decide_eq_true (hlength only hin) ⟨hnumbers', by simp [hnumbers]⟩
    · rintro ⟨hunnamed, -⟩
      have hnames : List.Forall₂ (StillNames (headingNumbers content chapter sec)
            (headingNumbers (u ++ (s ++ (h' ++ ['#'] ++ (' ' :: v)))) chapter sec))
          ((refNumbers content chapter sec).filter fun c =>
            ¬ (headingNumbers (u ++ (s ++ (h' ++ ['#'] ++ (' ' :: v)))) chapter sec = [] ∧
              c ∈ headingNumbers content chapter sec))
          (refNumbers (u ++ (s ++ (h' ++ ['#'] ++ (' ' :: v)))) chapter sec) := by
        have hnot : ∀ c ∈ refNumbers content chapter sec, c ∉ headingNumbers content chapter sec := by
          intro c hc hin
          rw [hnumbers, List.mem_singleton] at hin
          exact hunnamed (hin ▸ hc)
        rw [List.filter_eq_self.mpr fun c hc => by simp [hnot c hc], hrefs', List.forall₂_same]
        intro c hc
        refine ⟨fun j => ?_, fun _ => rfl⟩
        rw [hnumbers']
        constructor
        · intro hj
          cases hj
        · intro hj
          exact absurd (List.mem_of_getElem? hj) (hnot c hc)
      refine ⟨by rw [hnumbers', if_pos hone], hnames, ?_, noGap_of_headings (n := 0) hnumbers',
        noNewGhost_of_refs hnames⟩
      rw [hcontent]
      exact otherNumbers_drop hm hsp hd u
  · refine iff_of_false (fun hkeeps => ?_) fun h => hfree h.2
    have hheads := hkeeps.headings
    rw [if_pos hone, hnumbers'] at hheads
    refine hfree fun m rest hfirst => ownNumbers_eq_nil.1 hheads m ?_
    obtain ⟨a, e, z, -, -, -, rfl, -, -⟩ := exists_threeNumbers hfirst
    have hheaded : Headed (' ' :: '#' :: (h'.reverse ++ (s.reverse ++ u.reverse))) := by
      refine ⟨s, h' ++ ['#'], [' '], u.reverse, ⟨hm.short, hm.indent, hm.least, hm.most, hm.hashes, ?_⟩,
        by simp, hline⟩
      intro c hc
      rw [List.mem_singleton.mp hc]
      decide
    rw [pieces_hit blind_refRe threeNumbers_ne_nil hfirst, headedFrom_hit hheaded]
    exact .head _

/-- A second heading that the pattern finds is a second sub-heading. -/
theorem two_le_headings {s' h' b' sp' v' : Text} (hm : Mark s h b) (hline : atLineStart (u.reverse ++ []))
    (hd : ∀ c ∈ (sp ++ v).head?, isDigit c = false) (hm' : Mark s' h' b')
    (hline' : atLineStart ((sp ++ y).reverse ++ ((label chapter sec only).reverse ++
      ((s ++ (h ++ b)).reverse ++ (u.reverse ++ [])))))
    (hd' : ∀ c ∈ (sp' ++ v').head?, isDigit c = false)
    (hv : v = y ++ (s' ++ (h' ++ (b' ++ (label chapter sec only ++ (sp' ++ v')))))) :
    2 ≤ (headingNumbers (u ++ (s ++ (h ++ (b ++ (label chapter sec only ++ (sp ++ v)))))) chapter
      sec).length := by
  obtain ⟨hx, hy, hz⟩ := digits_label chapter sec only
  rw [label_eq] at hline' hv
  have hheads := (sorted_heading hm hx hy hz hd hline).1
  have hheads' := (sorted_heading hm' hx hy hz hd' hline').1
  rw [List.append_assoc, ← hv] at hheads'
  rw [hheads'] at hheads
  rw [headingNumbers_eq, inHeadings, label_eq, hheads, ownNumbers_append, ownNumbers_label,
    ownNumbers_append, ownNumbers_label]
  simp only [List.length_append, List.length_cons]
  omega

theorem keepsReferences_lone (horder : ownOrder content chapter sec = [only]) :
    KeepsReferences content (dropLoneNumber chapter sec only content) chapter sec ↔
      DropsRight content chapter sec only := by
  have hall : ∀ k ∈ headingNumbers content chapter sec, k = only := by
    intro k hk
    rw [← mem_ownOrder, horder] at hk
    exact List.mem_singleton.mp hk
  have hne : headingNumbers content chapter sec ≠ [] := by
    have hmem : only ∈ headingNumbers content chapter sec := by
      rw [← mem_ownOrder, horder]
      exact .head _
    exact List.ne_nil_of_mem hmem
  have hlength : (ownWritten chapter sec (subHeadingRe.finditer content)).length =
      (headingNumbers content chapter sec).length := length_ownWritten
  rcases piecesFrom_cases (loneRe chapter sec only) [] content with
    ⟨hpieces, hnone⟩ | ⟨u, z, m, v, hsplit, hfirst, hmne, hpieces⟩
  · refine iff_of_false (fun h => ?_) fun h => ?_
    · rw [dropLoneNumber_unfound hpieces] at h
      exact not_numberedThrough hall hne h.headings
    · refine not_plain_of_unfound hnone ?_
      rw [h.plain]
      exact .head _
  · obtain ⟨hline, s, h, b, sp, hm, hsp, hv, hd, rfl, rfl⟩ := exists_lone hfirst
    by_cases hone : (headingNumbers content chapter sec).length = 1
    · have hlast : (loneRe chapter sec only).piecesFrom
          ((s ++ (h ++ (b ++ (label chapter sec only ++ sp)))).reverse ++ (u.reverse ++ [])) v =
            v.map .plain := by
        rcases piecesFrom_cases (loneRe chapter sec only)
          ((s ++ (h ++ (b ++ (label chapter sec only ++ sp)))).reverse ++ (u.reverse ++ [])) v with
          ⟨hrest, -⟩ | ⟨y, z, m, v', rfl, hfirst', -, -⟩
        · exact hrest
        · obtain ⟨hline', s', h', b', sp', hm', -, -, hd', rfl, rfl⟩ := exists_lone hfirst'
          have htwo := two_le_headings hm hline hd hm' (by simpa using hline') hd' rfl
          rw [← hsplit] at htwo
          omega
      rw [hlast] at hpieces
      have hplain : ∀ t : Text, (t.map .plain).flatMap (Piece.rewrite keepMark) = t := by
        intro t
        induction t with
        | nil => rfl
        | cons c t ih =>
          rw [List.map_cons, List.flatMap_cons, ih]
          rfl
      have hdrop : dropLoneNumber chapter sec only content = u ++ (s ++ (h ++ (' ' :: v))) := by
        rw [dropLoneNumber_eq, subFrom, hpieces, List.flatMap_append, List.flatMap_cons, hplain, hplain]
        simp [Piece.rewrite, keepMark, Match.group]
      have hbehind : ((loneRe chapter sec only).split content).tail = [v] := by
        have hgaps : (loneRe chapter sec only).split content = [u, v] := by
          rw [split]
          show gaps ((loneRe chapter sec only).piecesFrom [] content) = [u, v]
          rw [hpieces, gaps_map_plain, gaps_map_plain_nil]
        rw [hgaps]
        rfl
      have hwritten : ownWritten chapter sec (subHeadingRe.finditer content) =
          [label chapter sec only] := by
        obtain ⟨k, hk⟩ := List.length_eq_one_iff.mp (hlength.trans hone)
        have hmem : label chapter sec only ∈ ownWritten chapter sec (subHeadingRe.finditer content) := by
          obtain ⟨hx, hy, hz⟩ := digits_label chapter sec only
          rw [ownWritten_eq, inHeadings, hsplit, label_eq, (sorted_heading hm hx hy hz hd hline).1]
          refine List.mem_filterMap.mpr ⟨_, List.mem_append_right _ (.head _), ?_⟩
          exact if_pos ⟨natOf_ofNat chapter, natOf_ofNat sec⟩
        rw [hk, List.mem_singleton] at hmem
        rw [hk, hmem]
      rw [hdrop, keepsReferences_found hm (by simpa using hline) hsp hv hd hsplit hone]
      constructor
      · rintro ⟨hunnamed, hfree⟩
        refine ⟨hwritten, hunnamed, fun v' hv' => ?_⟩
        rw [hbehind, List.mem_singleton] at hv'
        exact hv' ▸ hfree
      · intro h
        exact ⟨h.unnamed, h.free v (by rw [hbehind]; exact .head _)⟩
    · have hpos := List.length_pos_of_ne_nil hne
      refine iff_of_false (not_keepsReferences_repeated hall (by omega)) fun h => hone ?_
      rw [← hlength, h.plain]
      rfl

/-- The condition on the body. -/
def NumbersHold (content : Text) (chapter sec : Nat) : Prop :=
  match ownOrder content chapter sec with
  | [] => True
  | [only] => DropsRight content chapter sec only
  | order => LandsRight content chapter sec order

theorem keepsReferences_self (hnone : headingNumbers content chapter sec = []) :
    KeepsReferences content content chapter sec := by
  have hnames : List.Forall₂ (StillNames (headingNumbers content chapter sec)
        (headingNumbers content chapter sec))
      ((refNumbers content chapter sec).filter fun c =>
        ¬ (headingNumbers content chapter sec = [] ∧ c ∈ headingNumbers content chapter sec))
      (refNumbers content chapter sec) := by
    rw [List.filter_eq_self.mpr fun c _ => by simp [hnone], List.forall₂_same]
    exact fun c _ => ⟨fun j => Iff.rfl, fun _ => rfl⟩
  exact ⟨by rw [hnone]; rfl, hnames, rfl, noGap_of_headings (n := 0) hnone, fun c hc => hc⟩

end RownRg.Headings

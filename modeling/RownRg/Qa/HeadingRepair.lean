import RownRg.Qa.HeadingFindings

/-! Numbering through keeps which numbers stand in headings, and moves each of them. -/

open PyText Regex

namespace RownRg.Headings

/-- The three numbers of a match, as they are written. -/
def written (m : Match NumberGroup) : Text :=
  threeNumbers ((m.group .chapter).getD []) ((m.group .section).getD []) ((m.group .number).getD [])

/-- The digits put for the last of three numbers. -/
def newDigits (mapping : List (Nat × Nat)) (chapter sec : Nat) (m : Match NumberGroup) : Text :=
  let z := (m.group .number).getD []
  match mapping.lookup (natOf z) with
  | none => z
  | some n =>
    if numberOf m .chapter = chapter ∧ numberOf m .section = sec ∧
        contains (label chapter sec (natOf z)) (written m) then
      ofNat n ++ z.drop (ofNat (natOf z)).length
    else z

/-- The match as it is renumbered. -/
def renumbered (mapping : List (Nat × Nat)) (chapter sec : Nat) (m : Match NumberGroup) :
    Match NumberGroup :=
  refMatch ((m.group .chapter).getD []) ((m.group .section).getD []) (newDigits mapping chapter sec m)

def renumberPiece (mapping : List (Nat × Nat)) (chapter sec : Nat) : Piece NumberGroup → Piece NumberGroup
  | .plain c => .plain c
  | .hit m => .hit (renumbered mapping chapter sec m)

variable {t u v w x y z x' rest : Text} {m : Match NumberGroup} {mapping : List (Nat × Nat)}
  {chapter sec n k : Nat} {c d : Char} {ps : List (Piece NumberGroup)}

@[simp] theorem written_refMatch : written (refMatch x y z) = threeNumbers x y z := rfl

@[simp] theorem number_refMatch : ((refMatch x y z).group .number).getD [] = z := rfl

theorem renumbered_refMatch : renumbered mapping chapter sec (refMatch x y z) =
    refMatch x y (newDigits mapping chapter sec (refMatch x y z)) := rfl

/-- Where the label of a number stands in what is written for it. -/
theorem contains_label (hx : Digits x) (hy : Digits y) (hz : Digits z)
    (h : contains (label chapter sec n) (threeNumbers x y z)) :
    ∃ u v, x = u ++ ofNat chapter ∧ y = ofNat sec ∧ z = ofNat n ++ v ∧ (∀ c ∈ v, isDigit c) ∧
      cutAt (label chapter sec n) (threeNumbers x y z) = some (u, v) := by
  obtain ⟨⟨u, v⟩, hcut⟩ := Option.isSome_iff_exists.mp h
  obtain ⟨hxu, hyb, hzv, hv⟩ := threeNumbers_inside hx hy hz (digits_ofNat _) (digits_ofNat _)
    (digits_ofNat _) (cutAt_eq hcut)
  exact ⟨u, v, hxu, hyb, hzv, hv, hcut⟩

theorem digits_newDigits (hz : Digits z) :
    Digits (newDigits mapping chapter sec (refMatch x y z)) := by
  unfold newDigits
  dsimp only [number_refMatch]
  split
  · exact hz
  · rename_i n _
    split
    · refine ⟨by simp [ofNat_ne_nil], fun c hc => ?_⟩
      rcases List.mem_append.mp hc with hc | hc
      · exact (digits_ofNat n).2 c hc
      · exact hz.2 c (List.mem_of_mem_drop hc)
    · exact hz

theorem renumberRef_refMatch (hx : Digits x) (hy : Digits y) (hz : Digits z) :
    renumberRef mapping chapter sec (refMatch x y z) =
      (renumbered mapping chapter sec (refMatch x y z)).text := by
  show renumberRef mapping chapter sec (refMatch x y z) =
    threeNumbers x y (newDigits mapping chapter sec (refMatch x y z))
  have hc : numberOf (refMatch x y z) .number = natOf z := rfl
  have htext : (refMatch x y z).text = threeNumbers x y z := rfl
  unfold renumberRef newDigits
  dsimp only [number_refMatch]
  rw [hc, htext]
  cases mapping.lookup (natOf z) with
  | none => rfl
  | some k =>
    dsimp only
    by_cases hown : numberOf (refMatch x y z) .chapter = chapter ∧
        numberOf (refMatch x y z) .section = sec
    · by_cases hin : contains (label chapter sec (natOf z)) (threeNumbers x y z)
      · rw [if_pos hown, if_pos ⟨hown.1, hown.2, hin⟩, hown.1, hown.2]
        obtain ⟨u, v, hxu, hyb, hzv, -, hcut⟩ := contains_label hx hy hz hin
        have hdrop := congrArg (List.drop (ofNat (natOf z)).length) hzv
        rw [List.drop_left] at hdrop
        rw [replaceFirst, hcut, hdrop, hxu, hyb]
        simp [label, threeNumbers]
      · rw [if_pos hown, if_neg fun h => hin h.2.2, hown.1, hown.2]
        rw [contains, Option.not_isSome_iff_eq_none] at hin
        rw [replaceFirst, hin]
    · rw [if_neg hown, if_neg fun h => hown ⟨h.1, h.2.1⟩]

/-- Renumbering makes no new reference. -/
theorem first_renumberRefs_none (h : refRe.first [] t = none) :
    refRe.first [] (renumberRefs mapping chapter sec t) = none := by
  by_contra hne
  obtain ⟨⟨m, rest⟩, hm⟩ := Option.ne_none_iff_exists'.mp hne
  obtain ⟨x, y, z, hx, hy, hz, -, heq, -⟩ := exists_threeNumbers hm
  have hdot : ∀ {w : Text}, ∀ c ∈ ('.' :: w).head?, isDigit c = false := by
    intro w c hc
    obtain rfl := Option.some.inj hc
    decide
  have hfront : x ++ '.' :: y <+: renumberRefs mapping chapter sec t :=
    ⟨'.' :: (z ++ rest), by rw [heq]; simp [threeNumbers]⟩
  obtain ⟨k, rfl⟩ := (prefix_renumbered hx hy).mp hfront
  rw [List.append_assoc, List.cons_append] at h heq
  rw [renumberRefs, sub_number hx hdot h, sub_nondigit (by decide)] at heq
  simp only [threeNumbers, List.append_assoc, List.cons_append, List.append_cancel_left_eq,
    List.cons.injEq, true_and] at heq
  generalize y ++ k = s at h heq
  cases hfirst : refRe.first [] s with
  | some r =>
    obtain ⟨a, b, e, ha, hb, -, -, hs, -⟩ := exists_threeNumbers hfirst
    obtain ⟨d, b, rfl⟩ := List.exists_cons_of_ne_nil hb.1
    exact first_refRe_none (v := b ++ '.' :: (e ++ r.2)) h hx ha (hb.2 d (by simp))
      (by rw [hs]; simp [threeNumbers])
  | none =>
    have hcut := List.takeWhile_append_dropWhile (p := isDigit) (l := s)
    have ha : ∀ c ∈ s.takeWhile isDigit, isDigit c := fun c hc => List.mem_takeWhile_imp hc
    have hw : ∀ c ∈ (s.dropWhile isDigit).head?, isDigit c = false := head?_dropWhile s
    generalize s.takeWhile isDigit = a at hcut ha
    generalize s.dropWhile isDigit = w at hcut hw
    subst hcut
    have hpass : refRe.sub (renumberRef mapping chapter sec) (a ++ w) =
        a ++ refRe.sub (renumberRef mapping chapter sec) w := by
      by_cases hnil : a = []
      · rw [hnil]
        rfl
      · exact sub_number ⟨hnil, ha⟩ hw hfirst
    have hhead : (refRe.sub (renumberRef mapping chapter sec) w).head? = w.head? :=
      head?_renumberRefs w
    rw [hpass] at heq
    obtain ⟨rfl, hrest⟩ := append_inj_of_all ha hy.2 (by rw [hhead]; exact hw) hdot heq
    rw [hrest] at hhead
    cases w with
    | nil => cases hhead
    | cons c w =>
      obtain rfl : '.' = c := by simpa using hhead
      rw [sub_nondigit (by decide)] at hrest
      have hdigit : (refRe.sub (renumberRef mapping chapter sec) w).head? = w.head? :=
        head?_renumberRefs w
      obtain ⟨d, z, rfl⟩ := List.exists_cons_of_ne_nil hz.1
      rw [(List.cons.inj hrest).2] at hdigit
      cases w with
      | nil => cases hdigit
      | cons e w =>
        obtain rfl : d = e := by simpa using hdigit
        exact first_refRe_none h hx hy (hz.2 d (by simp)) rfl

/-- The numbers of a text stay where they are. -/
theorem pieces_renumberRefs (t : Text) : refRe.pieces (renumberRefs mapping chapter sec t) =
    (refRe.pieces t).map (renumberPiece mapping chapter sec) := by
  induction hn : t.length using Nat.strongRecOn generalizing t with
  | _ n ih =>
    cases t with
    | nil => rfl
    | cons c t =>
      cases hfirst : refRe.first [] (c :: t) with
      | some r =>
        obtain ⟨m, rest⟩ := r
        obtain ⟨x, y, z, hx, hy, hz, rfl, heq, hrest⟩ := exists_threeNumbers hfirst
        have hlen := congrArg List.length heq
        have hpos := List.length_pos_of_ne_nil (threeNumbers_ne_nil (x := x) (y := y) (z := z))
        simp only [List.length_cons, List.length_append] at hlen hn
        have htail := ih rest.length (by omega) rest rfl
        rw [renumberRefs, sub, pieces_hit blind_refRe threeNumbers_ne_nil hfirst, List.flatMap_cons,
          Piece.rewrite, renumberRef_refMatch hx hy hz, List.map_cons]
        rw [renumberPiece, ← htail]
        refine pieces_threeNumbers hx hy (digits_newDigits hz) ?_
        rw [← sub, ← renumberRefs, head?_renumberRefs]
        exact hrest
      | none =>
        simp only [List.length_cons] at hn
        have hnone : refRe.first [] (renumberRefs mapping chapter sec (c :: t)) = none :=
          first_renumberRefs_none hfirst
        have hcons : renumberRefs mapping chapter sec (c :: t) =
            c :: renumberRefs mapping chapter sec t := by
          rw [renumberRefs, sub, pieces_plain blind_refRe hfirst]
          rfl
        rw [hcons] at hnone ⊢
        rw [pieces_plain blind_refRe hnone, pieces_plain blind_refRe hfirst, List.map_cons,
          ih t.length (by omega) t rfl]
        rfl

/-! A number that moves leaves the marks in front of the others as they are. -/

/-- Two texts already read, the same from their last number on. -/
def Near (x x' : Text) : Prop :=
  ∃ w y y', x = w ++ y ∧ x' = w ++ y' ∧
    (y = [] ∧ y' = [] ∨ ∃ c u d u', y = c :: u ∧ y' = d :: u' ∧ isNumeric c ∧ isNumeric d)

theorem Near.cons (h : Near x x') (c : Char) : Near (c :: x) (c :: x') := by
  obtain ⟨w, y, y', rfl, rfl, hend⟩ := h
  exact ⟨c :: w, y, y', rfl, rfl, hend⟩

theorem Near.symm (h : Near x x') : Near x' x := by
  obtain ⟨w, y, y', hx, hx', ⟨rfl, rfl⟩ | ⟨c, u, d, u', rfl, rfl, hc, hd⟩⟩ := h
  · exact ⟨w, [], [], hx', hx, .inl ⟨rfl, rfl⟩⟩
  · exact ⟨w, _, _, hx', hx, .inr ⟨d, u', c, u, rfl, rfl, hd, hc⟩⟩

theorem Near.headed (h : Near x x') (hx : Headed x) : Headed x' := by
  obtain ⟨w, y, y', rfl, rfl, hend⟩ := h
  obtain ⟨s, h, b, k, hm, heq, hline⟩ := hx
  have hmark : ∀ c ∈ (s ++ (h ++ b)).reverse, isNumeric c = false := fun c hc =>
    hm.not_numeric c (List.mem_reverse.mp hc)
  rcases List.append_eq_append_iff.mp heq with ⟨r, hr, hy⟩ | ⟨r, rfl, rfl⟩
  · rcases hend with ⟨rfl, rfl⟩ | ⟨c, u, d, u', rfl, rfl, hc, hd⟩
    · obtain ⟨rfl, rfl⟩ := List.append_eq_nil_iff.mp hy.symm
      exact ⟨s, h, b, [], hm, by simpa using hr.symm, rfl⟩
    · cases r with
      | nil =>
        rw [List.nil_append] at hy
        rw [← hy] at hline
        rw [atLineStart_cons hc] at hline
        cases hline
      | cons e r =>
        have he := hmark e (by simp [hr])
        rw [← (List.cons.inj hy).1] at he
        simp [hc] at he
  · refine ⟨s, h, b, r ++ y', hm, by simp, ?_⟩
    cases r with
    | cons e r => simpa [atLineStart] using hline
    | nil =>
      rcases hend with ⟨rfl, rfl⟩ | ⟨c, u, d, u', rfl, rfl, hc, hd⟩
      · exact hline
      · rw [List.nil_append, atLineStart_cons hc] at hline
        cases hline

theorem near_number (hz : Digits z) {a b e w' : Text} (he : Digits e) :
    Near ((threeNumbers x y z).reverse ++ w) ((threeNumbers a b e).reverse ++ w') := by
  obtain ⟨z, c, rfl⟩ := List.eq_nil_or_concat' z |>.resolve_left hz.1
  obtain ⟨e, d, rfl⟩ := List.eq_nil_or_concat' e |>.resolve_left he.1
  refine ⟨[], _, _, rfl, rfl, .inr ⟨c, _, d, _, by simp [threeNumbers]; rfl,
    by simp [threeNumbers]; rfl, ?_, ?_⟩⟩
  · simp [isNumeric, hz.2 c (by simp)]
  · simp [isNumeric, he.2 d (by simp)]

/-- Renumbering moves the numbers of the headings, and the others, one by one. -/
theorem sorted_renumberRefs (t : Text) :
    inHeadings (renumberRefs mapping chapter sec t) =
        (inHeadings t).map (renumbered mapping chapter sec) ∧
      inBody (renumberRefs mapping chapter sec t) =
        (inBody t).map (renumbered mapping chapter sec) := by
  have hsorted : ∀ (ps : List (Piece NumberGroup)) x x', (∀ m, .hit m ∈ ps → ∃ x y z, Digits x ∧
        Digits y ∧ Digits z ∧ m = refMatch x y z) → Near x x' →
      headedFrom x' (ps.map (renumberPiece mapping chapter sec)) =
          (headedFrom x ps).map (renumbered mapping chapter sec) ∧
        bodyFrom x' (ps.map (renumberPiece mapping chapter sec)) =
          (bodyFrom x ps).map (renumbered mapping chapter sec) := by
    intro ps
    induction ps with
    | nil => exact fun x x' _ _ => ⟨rfl, rfl⟩
    | cons p ps ih =>
      intro x x' hps hnear
      have htail : ∀ m, .hit m ∈ ps → ∃ x y z, Digits x ∧ Digits y ∧ Digits z ∧ m = refMatch x y z :=
        fun m hm => hps m (.tail _ hm)
      cases p with
      | plain c => exact ih _ _ htail (hnear.cons c)
      | hit m =>
        obtain ⟨a, b, z, -, -, hz, rfl⟩ := hps m (.head _)
        have hnext : Near ((refMatch a b z).text.reverse ++ x)
            ((renumbered mapping chapter sec (refMatch a b z)).text.reverse ++ x') :=
          near_number hz (digits_newDigits hz)
        obtain ⟨hheads, hbody⟩ := ih _ _ htail hnext
        rw [List.map_cons, renumberPiece]
        by_cases hheaded : Headed x
        · have hheaded' := hnear.headed hheaded
          rw [headedFrom_hit hheaded, headedFrom_hit hheaded', bodyFrom_hit hheaded,
            bodyFrom_hit hheaded', hheads, hbody]
          exact ⟨rfl, rfl⟩
        · have hheaded' := fun h => hheaded (hnear.symm.headed h)
          rw [headedFrom_skip hheaded, headedFrom_skip hheaded', bodyFrom_skip hheaded,
            bodyFrom_skip hheaded', hheads, hbody]
          exact ⟨rfl, rfl⟩
  rw [inHeadings, inBody, pieces_renumberRefs]
  exact hsorted _ [] [] (fun m hm => digits_of_hit hm) ⟨[], [], [], rfl, rfl, .inl ⟨rfl, rfl⟩⟩

/-! Where a written number lands. -/

/-- The number that numbering `order` through makes of a match: the digits of its label give way to
its place, where the label is written out. -/
def landing (order : List Nat) (chapter sec : Nat) (m : Match NumberGroup) : Nat :=
  let c := numberOf m .number
  if c ∈ order ∧ contains (label chapter sec c) (written m) then
    natOf (ofNat (order.idxOf c + 1) ++ ((m.group .number).getD []).drop (ofNat c).length)
  else c

/-- The numbers of the section among the matches, each with the number it lands on. -/
def moves (order : List Nat) (chapter sec : Nat) (ms : List (Match NumberGroup)) : List (Nat × Nat) :=
  ms.filterMap fun m =>
    if numberOf m .chapter = chapter ∧ numberOf m .section = sec then
      some (numberOf m .number, landing order chapter sec m)
    else none

variable {order : List Nat} {ms : List (Match NumberGroup)}

theorem lookup_zip_range' (order : List Nat) (k c : Nat) :
    (order.zip (List.range' k order.length)).lookup c =
      if c ∈ order then some (order.idxOf c + k) else none := by
  induction order generalizing k with
  | nil => rfl
  | cons a order ih =>
    rw [List.length_cons, List.range'_succ, List.zip_cons_cons, List.lookup_cons, ih,
      List.idxOf_cons]
    by_cases hca : c = a
    · subst hca
      simp
    · have hac : (a == c) = false := beq_eq_false_iff_ne.mpr (Ne.symm hca)
      have hca' : (c == a) = false := beq_eq_false_iff_ne.mpr hca
      simp only [hca', hac, List.mem_cons, hca, false_or, cond_false]
      split
      · congr 1
        omega
      · rfl

theorem lookup_mappingOf (order : List Nat) (c : Nat) :
    (mappingOf order).lookup c = if c ∈ order then some (order.idxOf c + 1) else none :=
  lookup_zip_range' order 1 c

theorem numberOf_refMatch : numberOf (refMatch x y z) .number = natOf z := rfl

theorem number_renumbered
    (hown : numberOf (refMatch x y z) .chapter = chapter ∧ numberOf (refMatch x y z) .section = sec) :
    numberOf (renumbered (mappingOf order) chapter sec (refMatch x y z)) .number =
      landing order chapter sec (refMatch x y z) := by
  rw [renumbered_refMatch, numberOf_refMatch, newDigits, landing]
  simp only [number_refMatch, numberOf_refMatch, lookup_mappingOf]
  by_cases hin : natOf z ∈ order
  · simp only [hin, if_true, true_and, hown]
    split <;> rfl
  · simp [hin]

/-- The numbers of the section land where they do, and the others stay. -/
theorem ownNumbers_renumbered (hms : ∀ m ∈ ms, ∃ x y z, m = refMatch x y z) :
    ownNumbers chapter sec (ms.map (renumbered (mappingOf order) chapter sec)) =
      (moves order chapter sec ms).map (·.2) := by
  induction ms with
  | nil => rfl
  | cons m ms ih =>
    have htail := ih fun m hm => hms m (.tail _ hm)
    obtain ⟨x, y, z, rfl⟩ := hms m (.head _)
    simp only [ownNumbers, moves] at htail ⊢
    rw [List.map_cons, List.filterMap_cons, List.filterMap_cons, htail]
    have hchapter : numberOf (renumbered (mappingOf order) chapter sec (refMatch x y z)) .chapter =
        numberOf (refMatch x y z) .chapter := rfl
    have hsection : numberOf (renumbered (mappingOf order) chapter sec (refMatch x y z)) .section =
        numberOf (refMatch x y z) .section := rfl
    rw [hchapter, hsection]
    by_cases hown : numberOf (refMatch x y z) .chapter = chapter ∧
        numberOf (refMatch x y z) .section = sec
    · rw [if_pos hown, if_pos hown, number_renumbered hown]
      rfl
    · rw [if_neg hown, if_neg hown]

theorem map_fst_moves : (moves order chapter sec ms).map (·.1) = ownNumbers chapter sec ms := by
  rw [moves, ownNumbers, List.map_filterMap]
  refine List.filterMap_congr fun m _ => ?_
  split <;> rfl

/-! Numbering through as a whole. -/

variable {content result : Text}

theorem renumberPiece_eq {p : Piece NumberGroup} (hp : p ∈ refRe.pieces t)
    (h : ∀ m, p = .hit m → newDigits mapping chapter sec m = (m.group .number).getD []) :
    renumberPiece mapping chapter sec p = p := by
  cases p with
  | plain c => rfl
  | hit m =>
    obtain ⟨x, y, z, -, -, -, rfl⟩ := digits_of_hit hp
    rw [renumberPiece, renumbered_refMatch, h _ rfl]
    rfl

theorem newDigits_identity (hall : mapping.all fun x => x.1 = x.2) (hx : Digits x) (hy : Digits y)
    (hz : Digits z) : newDigits mapping chapter sec (refMatch x y z) = z := by
  unfold newDigits
  dsimp only [number_refMatch]
  split
  · rfl
  · rename_i n hlook
    by_cases hown : numberOf (refMatch x y z) .chapter = chapter ∧
        numberOf (refMatch x y z) .section = sec ∧
          contains (label chapter sec (natOf z)) (written (refMatch x y z))
    · obtain ⟨u, v, -, -, hzv, -, -⟩ := contains_label hx hy hz hown.2.2
      obtain ⟨l, l', rfl, -⟩ := List.lookup_eq_some_iff.mp hlook
      have hn : natOf z = n := by simpa using List.all_eq_true.mp hall (natOf z, n) (by simp)
      have hdrop := congrArg (List.drop (ofNat (natOf z)).length) hzv
      rw [List.drop_left] at hdrop
      rw [if_pos hown, ← hn, hdrop]
      exact hzv.symm
    · rw [if_neg hown]

theorem renumberRefs_identity (hall : mapping.all fun x => x.1 = x.2) :
    renumberRefs mapping chapter sec t = t := by
  have hpieces : (refRe.pieces t).map (renumberPiece mapping chapter sec) = refRe.pieces t := by
    refine (List.map_congr_left fun p hp => renumberPiece_eq hp fun m hm => ?_).trans (List.map_id _)
    subst hm
    obtain ⟨x, y, z, hx, hy, hz, rfl⟩ := digits_of_hit hp
    exact newDigits_identity hall hx hy hz
  rw [← render_pieces refRe (renumberRefs mapping chapter sec t), pieces_renumberRefs, hpieces,
    render_pieces]

theorem renumber_eq (order : List Nat) (chapter sec : Nat) (content : Text) :
    renumber order chapter sec content = renumberRefs (mappingOf order) chapter sec content := by
  rw [renumber]
  split
  · exact (renumberRefs_identity ‹_›).symm
  · rfl

/-- Beside the numbers of the section nothing changes. -/
theorem blankOwn_renumberRefs (t : Text) :
    blankOwn (renumberRefs mapping chapter sec t) chapter sec = blankOwn t chapter sec := by
  rw [blankOwn, sub, pieces_renumberRefs, List.flatMap_map]
  refine List.flatMap_congr fun p hp => ?_
  cases p with
  | plain c => rfl
  | hit m =>
    obtain ⟨x, y, z, -, -, -, rfl⟩ := digits_of_hit hp
    by_cases hown : numberOf (refMatch x y z) .chapter = chapter ∧
        numberOf (refMatch x y z) .section = sec
    · have hown' : numberOf (renumbered mapping chapter sec (refMatch x y z)) .chapter = chapter ∧
          numberOf (renumbered mapping chapter sec (refMatch x y z)) .section = sec := hown
      simp [renumberPiece, Piece.rewrite, ownNumbers, hown, hown']
    · have hsame : newDigits mapping chapter sec (refMatch x y z) =
          ((refMatch x y z).group .number).getD [] := by
        unfold newDigits
        dsimp only
        split
        · rfl
        · rw [if_neg fun h => hown ⟨h.1, h.2.1⟩]
      have hpiece : renumberPiece mapping chapter sec (.hit (refMatch x y z)) =
          .hit (refMatch x y z) := by
        refine renumberPiece_eq hp fun m hm => ?_
        cases hm
        exact hsame
      rw [hpiece]

/-- Every sub-heading lands on its place, every reference to a sub-heading lands there too, and
a reference to none has none of the new numbers. -/
structure LandsRight (content : Text) (chapter sec : Nat) (order : List Nat) : Prop where
  headings : (moves order chapter sec (subHeadingRe.finditer content)).map (·.2) =
    List.range' 1 (headingNumbers content chapter sec).length
  refs : ∀ p ∈ moves order chapter sec (refRe.finditer (bodyWithoutHeadings content)),
    (∀ j : Nat, (headingNumbers content chapter sec)[j]? = some p.1 → p.2 = j + 1) ∧
      (p.1 ∉ headingNumbers content chapter sec →
        p.1 ∉ List.range' 1 (headingNumbers content chapter sec).length)

theorem getElem?_range'_one {n j c : Nat} : (List.range' 1 n)[j]? = some c ↔ j < n ∧ c = j + 1 := by
  by_cases hj : j < n
  · rw [List.getElem?_range' hj, Option.some.injEq]
    omega
  · rw [List.getElem?_eq_none (by simpa using hj)]
    simp [hj]

theorem stillNames_range' {before : List Nat} {c c' : Nat} (hkept : c ∉ before → c' = c) :
    StillNames before (List.range' 1 before.length) c c' ↔
      (∀ j : Nat, before[j]? = some c → c' = j + 1) ∧
        (c ∉ before → c ∉ List.range' 1 before.length) := by
  constructor
  · rintro ⟨hnames, -⟩
    refine ⟨fun j hj => (getElem?_range'_one.1 ((hnames j).mpr hj)).2, fun hnot hmem => ?_⟩
    obtain ⟨j, hj⟩ := List.mem_iff_getElem?.mp hmem
    rw [← hkept hnot] at hj
    exact hnot (List.mem_of_getElem? ((hnames j).mp hj))
  · rintro ⟨hplace, hnone⟩
    refine ⟨fun j => ⟨fun hj => ?_, fun hj => ?_⟩, hkept⟩
    · obtain ⟨hlt, rfl⟩ := getElem?_range'_one.1 hj
      by_cases hmem : c ∈ before
      · obtain ⟨i, hi⟩ := List.mem_iff_getElem?.mp hmem
        obtain rfl : j = i := by
          have hplace := hplace i hi
          omega
        exact hi
      · refine absurd (List.mem_of_getElem? (getElem?_range'_one.2 ⟨hlt, rfl⟩)) ?_
        rw [hkept hmem]
        exact hnone hmem
    · obtain ⟨hlt, -⟩ := List.getElem?_eq_some_iff.mp hj
      exact getElem?_range'_one.2 ⟨hlt, hplace j hj⟩

theorem refMatch_of_mem_sorted (hm : m ∈ inHeadings t ∨ m ∈ inBody t) :
    ∃ x y z, m = refMatch x y z := by
  have hspot : ∀ (ps : List (Piece NumberGroup)) (x : Text) p, p ∈ spotsFrom x ps → .hit p.2 ∈ ps := by
    intro ps
    induction ps with
    | nil =>
      intro x p hp
      cases hp
    | cons q ps ih =>
      intro x p hp
      cases q with
      | plain c => exact .tail _ (ih _ p hp)
      | hit m =>
        rcases List.mem_cons.mp hp with rfl | hp
        · exact .head _
        · exact .tail _ (ih _ p hp)
  have hhit : .hit m ∈ refRe.pieces t := by
    rcases hm with hm | hm
    · obtain ⟨p, hp, rfl⟩ := List.mem_map.mp hm
      exact hspot _ _ p (List.mem_filter.mp hp).1
    · obtain ⟨p, hp, rfl⟩ := List.mem_map.mp hm
      exact hspot _ _ p (List.mem_filter.mp hp).1
  obtain ⟨x, y, z, -, -, -, heq⟩ := digits_of_hit hhit
  exact ⟨x, y, z, heq⟩

theorem headingNumbers_renumberRefs (order : List Nat) (chapter sec : Nat) (content : Text) :
    headingNumbers (renumberRefs (mappingOf order) chapter sec content) chapter sec =
      (moves order chapter sec (subHeadingRe.finditer content)).map (·.2) := by
  rw [headingNumbers_eq, (sorted_renumberRefs content).1,
    ownNumbers_renumbered fun m hm => refMatch_of_mem_sorted (.inl hm)]
  have hmoves : moves order chapter sec (inHeadings content) =
      moves order chapter sec (subHeadingRe.finditer content) := by
    refine filterMap_caps (fun m m' hm => ?_) (finditer_subHeadingRe content).symm
    obtain ⟨text, caps⟩ := m
    obtain ⟨text', caps'⟩ := m'
    obtain rfl : caps = caps' := hm
    rfl
  rw [hmoves]

theorem refNumbers_renumberRefs (order : List Nat) (chapter sec : Nat) (content : Text) :
    refNumbers (renumberRefs (mappingOf order) chapter sec content) chapter sec =
      (moves order chapter sec (refRe.finditer (bodyWithoutHeadings content))).map (·.2) := by
  rw [refNumbers_eq, (sorted_renumberRefs content).2,
    ownNumbers_renumbered fun m hm => refMatch_of_mem_sorted (.inr hm), bodyWithoutHeadings,
    finditer_bodyWithoutHeadings]

theorem landing_of_notMem {p : Nat × Nat} (hp : p ∈ moves order chapter sec ms) (hnot : p.1 ∉ order) :
    p.2 = p.1 := by
  obtain ⟨m, -, hm⟩ := List.mem_filterMap.mp hp
  split at hm
  · obtain rfl := Option.some.inj hm
    rw [landing]
    exact if_neg fun h => hnot h.1
  · cases hm

/-- With more than one sub-heading, numbering through keeps the references just where everything
lands right. -/
theorem keepsReferences_renumberRefs (horder : ∀ c, c ∈ order ↔ c ∈ headingNumbers content chapter sec)
    (hmany : 2 ≤ (headingNumbers content chapter sec).length) :
    KeepsReferences content (renumberRefs (mappingOf order) chapter sec content) chapter sec ↔
      LandsRight content chapter sec order := by
  have hheads := headingNumbers_renumberRefs order chapter sec content
  have hrefs := refNumbers_renumberRefs order chapter sec content
  have hfst : refNumbers content chapter sec =
      (moves order chapter sec (refRe.finditer (bodyWithoutHeadings content))).map (·.1) :=
    Eq.symm map_fst_moves
  have hone : (headingNumbers content chapter sec).length ≠ 1 := by omega
  have hsome : List.range' 1 (headingNumbers content chapter sec).length ≠ [] := by
    rw [Ne, List.range'_eq_nil_iff]
    omega
  have hnames : headingNumbers (renumberRefs (mappingOf order) chapter sec content) chapter sec =
        List.range' 1 (headingNumbers content chapter sec).length →
      (List.Forall₂ (StillNames (headingNumbers content chapter sec)
          (headingNumbers (renumberRefs (mappingOf order) chapter sec content) chapter sec))
        ((refNumbers content chapter sec).filter fun c =>
          ¬ (headingNumbers (renumberRefs (mappingOf order) chapter sec content) chapter sec = [] ∧
            c ∈ headingNumbers content chapter sec))
        (refNumbers (renumberRefs (mappingOf order) chapter sec content) chapter sec) ↔
      ∀ p ∈ moves order chapter sec (refRe.finditer (bodyWithoutHeadings content)),
        (∀ j : Nat, (headingNumbers content chapter sec)[j]? = some p.1 → p.2 = j + 1) ∧
          (p.1 ∉ headingNumbers content chapter sec →
            p.1 ∉ List.range' 1 (headingNumbers content chapter sec).length)) := by
    intro hright
    rw [hright, List.filter_eq_self.mpr fun c _ => by simp [hsome], hrefs, hfst,
      List.forall₂_map_left_iff, List.forall₂_map_right_iff, List.forall₂_same]
    refine forall₂_congr fun p hp => stillNames_range' fun hnot => landing_of_notMem hp ?_
    exact fun h => hnot ((horder _).mp h)
  constructor
  · intro h
    have hright := h.headings
    rw [if_neg hone] at hright
    exact ⟨hheads.symm.trans hright, (hnames hright).mp h.refs⟩
  · rintro ⟨hland, hall⟩
    have hright := hheads.trans hland
    have hforall := (hnames hright).mpr hall
    refine ⟨by rw [if_neg hone, hright], hforall, ?_, noGap_of_headings hright,
      noNewGhost_of_refs hforall⟩
    rw [otherNumbers, blankOwn_renumberRefs, otherNumbers]

end RownRg.Headings

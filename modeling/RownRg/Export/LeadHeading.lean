import RownRg.Qa.HeadingCheck

/-! The exporter drops a first heading that seems to print the title of its section once more. -/

open PyText Regex

namespace RownRg.Export

open Headings

inductive HeadingGroup where
  | marks | text
  deriving DecidableEq

/-- `_HEADING_RE` of the exporter -/
def headingRe : Regex HeadingGroup :=
  cat [textStart, group .marks (hashes 1 6), plus space, group .text (plus (cls (· != '\n'))), textEnd]

/-- The text of a heading. -/
def headingText (line : Text) : Option Text :=
  (headingRe.matchStart (strip line)).map fun m => (m.group .text).getD []

/-- `f"{chapter}.{section}"` -/
def sectionRef (chapter sec : Nat) : Text := ofNat chapter ++ '.' :: ofNat sec

/-- `_drop_duplicate_lead_heading` -/
def dropDuplicateLeadHeading (md : Text) (chapter sec : Nat) : Text :=
  match leadLine (splitLines md) with
  | none => md
  | some (before, raw, rest) =>
    match headingText raw with
    | none => md
    | some text =>
      if (sectionRef chapter sec).isPrefixOf (strip text) then joinLines (before ++ rest) else md

/-- The body before its sub-headings are numbered through: without the reprinted title and
without the number of a lone sub-heading. -/
def beforeNumbering (body title : Text) (chapter sec : Nat) : Text :=
  let body := stripTitleReprint body title
  match ownOrder body chapter sec with
  | [only] => dropLoneNumber chapter sec only body
  | _ => body

/-- What numbering through makes of a line of the body. -/
def numberedThrough (body title : Text) (chapter sec : Nat) (line : Text) : Text :=
  match ownOrder (stripTitleReprint body title) chapter sec with
  | [_] => line
  | order => renumber order chapter sec line

/-- A heading whose text, its number apart, is the title of the section. -/
def PrintsTitle (title line : Text) : Prop := ∃ text ∈ headingText line, isTitle title text

/-- A sub-heading with a number of the section. -/
def isSubHeading (chapter sec : Nat) (line : Text) : Bool :=
  match subHeadingRe.matchStart line with
  | some m => numberOf m .chapter = chapter ∧ numberOf m .section = sec
  | none => false

/-- The exporter drops a line only where it prints the title once more, and no sub-heading. -/
def DropsOnlyTitle (md title : Text) (chapter sec : Nat) : Prop :=
  ∀ before line rest, splitLines md = before ++ line :: rest →
    dropDuplicateLeadHeading md chapter sec = joinLines (before ++ rest) →
      PrintsTitle title line ∧ isSubHeading chapter sec line = false

/-- The first line with text is no heading that begins with the number of the section, or it
prints the title. -/
def LeadStays (body title : Text) (chapter sec : Nat) : Prop :=
  ∀ before line rest,
    leadLine (splitLines (beforeNumbering body title chapter sec)) = some (before, line, rest) →
    ∀ text ∈ headingText line, sectionRef chapter sec <+: strip text →
      PrintsTitle title (numberedThrough body title chapter sec line) ∧
        isSubHeading chapter sec (numberedThrough body title chapter sec line) = false

variable {l t : Text} {mapping : List (Nat × Nat)} {chapter sec : Nat}

/-! The text of a heading, read off the line. -/

/-- Marks, spaces and the text behind them. -/
def headingParts (l : Text) : Option Text :=
  let marks := l.takeWhile (· == '#')
  let rest := l.dropWhile (· == '#')
  if 1 ≤ marks.length ∧ marks.length ≤ 6 ∧ rest.takeWhile isSpace ≠ [] then
    some (rest.dropWhile isSpace)
  else none

theorem matchStart_headingRe {h w : Text} (hh : ∀ c ∈ h, c = '#') (hlen : 1 ≤ h.length)
    (hlen' : h.length ≤ 6) (hw : w ≠ []) (hspace : ∀ c ∈ w, isSpace c) (ht : t ≠ [])
    (hhead : ∀ c ∈ t.head?, isSpace c = false) (hbreak : '\n' ∉ t) :
    (headingRe.matchStart (h ++ (w ++ t))).map (fun m => (m.group .text).getD []) = some t := by
  obtain ⟨l₁, h₁⟩ := run_between (γ := HeadingGroup) (p := (· == '#')) (x := []) (k := [])
    (v := w ++ t) hlen hlen' (fun c hc => by simp [hh c hc]) (by
      obtain ⟨c, w, rfl⟩ := List.exists_cons_of_ne_nil hw
      intro d hd
      obtain rfl := Option.some.inj hd
      have hc := hspace c (by simp)
      rw [beq_eq_false_iff_ne]
      rintro rfl
      exact absurd hc (by decide))
  obtain ⟨l₂, h₂⟩ := run_group (g := HeadingGroup.marks) h₁
  obtain ⟨c, w, rfl⟩ := List.exists_cons_of_ne_nil hw
  obtain ⟨hc, hspace⟩ := List.forall_mem_cons.mp hspace
  obtain ⟨d, t, rfl⟩ := List.exists_cons_of_ne_nil ht
  have hline : ∀ c ∈ d :: t, (c != '\n') = true := fun c hc =>
    bne_iff_ne.mpr fun he => hbreak (he ▸ hc)
  obtain ⟨k, hk⟩ : ∃ k, Pos.capture HeadingGroup.marks ⟨[], h ++ (c :: w ++ d :: t), []⟩
      ⟨h.reverse ++ [], c :: w ++ d :: t, []⟩ = ⟨h.reverse ++ [], c :: w ++ d :: t, k⟩ := ⟨_, rfl⟩
  rw [hk] at h₂
  obtain ⟨l₃, h₃⟩ := run_star_stop (γ := HeadingGroup) (x := c :: (h.reverse ++ [])) (k := k) hspace
    hhead
  have hplus : (plus space).run (⟨h.reverse ++ [], c :: w ++ d :: t, k⟩ : Pos HeadingGroup) =
      ⟨w.reverse ++ c :: (h.reverse ++ []), d :: t, k⟩ :: l₃ := by
    rw [plus, run]
    simpa [space, run, hc] using h₃
  obtain ⟨l₄, h₄⟩ := run_group_plus_cls (γ := HeadingGroup) (p := (· != '\n')) (g := .text)
    (s := ⟨w.reverse ++ c :: (h.reverse ++ []), d :: t, k⟩) rfl (hline d (by simp))
  have htake : (d :: t).takeWhile (· != '\n') = d :: t := List.takeWhile_eq_self_iff.mpr hline
  simp only [htake] at h₄
  rw [skip_eq (List.append_nil _).symm] at h₄
  have hend : ∀ x : Text, ((textEnd : Regex HeadingGroup).run
      ⟨x, [], (.text, d :: t) :: k⟩).head? = some ⟨x, [], (.text, d :: t) :: k⟩ :=
    fun x => by simp [run]
  have hrun := head?_run_seq (textStart_run _)
    (head?_run_seq h₂ (head?_run_seq hplus (head?_run_seq h₄ (hend _))))
  have hhead : (headingRe.run ⟨[], h ++ (c :: w ++ d :: t), []⟩).head? =
      some ⟨_, [], (.text, d :: t) :: k⟩ := hrun
  simp only [matchStart, first, hhead, Option.map_some]
  rfl

theorem headingText_eq (hl : '\n' ∉ strip l) : headingText l = headingParts (strip l) := by
  have hhash := List.takeWhile_append_dropWhile (p := (· == '#')) (l := strip l)
  unfold headingText headingParts
  dsimp only
  split
  · rename_i h
    obtain ⟨hlen, hlen', hw⟩ := h
    have hspaces := List.takeWhile_append_dropWhile (p := isSpace)
      (l := (strip l).dropWhile (· == '#'))
    have hh : ∀ c ∈ (strip l).takeWhile (· == '#'), c = '#' := fun c hc => by
      simpa using List.mem_takeWhile_imp hc
    generalize (strip l).takeWhile (· == '#') = h at *
    generalize (strip l).dropWhile (· == '#') = rest at *
    have hspace : ∀ c ∈ rest.takeWhile isSpace, isSpace c := fun c hc => List.mem_takeWhile_imp hc
    have hhead : ∀ c ∈ (rest.dropWhile isSpace).head?, isSpace c = false := head?_dropWhile rest
    generalize rest.takeWhile isSpace = w at *
    generalize rest.dropWhile isSpace = t at *
    subst hspaces
    have hne : strip l ≠ [] := by
      rw [← hhash]
      simp [hw]
    have ht : t ≠ [] := by
      rintro rfl
      rw [List.append_nil] at hhash
      obtain ⟨w, c, rfl⟩ := List.eq_nil_or_concat w |>.resolve_left hw
      have hlast := (solid_strip hne).2.2 c (by simp [← hhash])
      simp [hspace c (by simp)] at hlast
    rw [← hhash] at hl ⊢
    exact matchStart_headingRe hh hlen hlen' hw hspace ht hhead fun hc =>
      hl (List.mem_append_right h (List.mem_append_right w hc))
  · rename_i h
    rw [Option.map_eq_none_iff]
    by_contra hne
    obtain ⟨m, hm⟩ := Option.ne_none_iff_exists'.mp hne
    obtain ⟨q, hq, -, -⟩ := mem_of_matchStart hm
    refine h ?_
    obtain ⟨_, hq₁, hq⟩ := mem_run_seq.1 hq
    obtain rfl := List.mem_singleton.mp hq₁
    have hplain : (hashes 1 6 : Regex HeadingGroup).Plain :=
      plain_between (by simp [chr, Plain]) 1 6
    obtain ⟨x, r, hx, heq, hq⟩ := (mem_run_seq_group hplain).mp hq
    obtain ⟨hlen, hlen', hall⟩ := (accepts_between (by decide)).mp hx
    have hspace : (plus space : Regex HeadingGroup).Plain := by simp [plus, space, Plain]
    obtain ⟨w, v, hw, rfl, -⟩ := (mem_run_seq_plain hspace).mp hq
    obtain ⟨hwne, hwall⟩ := accepts_plus_cls.1 hw
    have hstop : ∀ c ∈ (w ++ v).head?, (c == '#') = false := by
      obtain ⟨c, w, rfl⟩ := List.exists_cons_of_ne_nil hwne
      intro d hd
      obtain rfl := Option.some.inj hd
      rw [beq_eq_false_iff_ne]
      rintro rfl
      exact absurd (hwall '#' (by simp)) (by decide)
    obtain ⟨htake, hdrop⟩ := takeWhile_append_stop hall hstop
    rw [heq, htake, hdrop, List.takeWhile_append_of_pos hwall]
    exact ⟨hlen, hlen', by simp [hwne]⟩

/-! What the exporter drops. -/

variable {md title : Text}

theorem dropDuplicateLeadHeading_cases (md : Text) (chapter sec : Nat) :
    (dropDuplicateLeadHeading md chapter sec = md ∧
      ∀ before line rest, leadLine (splitLines md) = some (before, line, rest) →
        ∀ text ∈ headingText line, ¬ sectionRef chapter sec <+: strip text) ∨
      ∃ before line rest, leadLine (splitLines md) = some (before, line, rest) ∧
        (∃ text ∈ headingText line, sectionRef chapter sec <+: strip text) ∧
        dropDuplicateLeadHeading md chapter sec = joinLines (before ++ rest) := by
  unfold dropDuplicateLeadHeading
  cases hlead : leadLine (splitLines md) with
  | none => exact .inl ⟨rfl, fun _ _ _ h => by cases h⟩
  | some x =>
    obtain ⟨before, line, rest⟩ := x
    dsimp only
    cases htext : headingText line with
    | none =>
      refine .inl ⟨rfl, fun before' line' rest' h text ht => ?_⟩
      obtain ⟨rfl, rfl, rfl⟩ := by simpa using h
      rw [htext] at ht
      cases ht
    | some text =>
      by_cases hnumber : sectionRef chapter sec <+: strip text
      · right
        refine ⟨before, line, rest, rfl, ⟨text, htext, hnumber⟩, ?_⟩
        simp [hnumber]
      · left
        refine ⟨by simp [hnumber], fun before' line' rest' h text' ht => ?_⟩
        obtain ⟨rfl, rfl, rfl⟩ := by simpa using h
        rw [htext] at ht
        obtain rfl := Option.some.inj ht
        exact hnumber

/-- Two lists with the same rest have lost the same line. -/
theorem line_of_rest {before rest before' rest' : List Text} {line line' : Text}
    (h : before ++ line :: rest = before' ++ line' :: rest')
    (hrest : before ++ rest = before' ++ rest') : line = line' := by
  have hperm : (before ++ line :: rest).Perm (line :: (before ++ rest)) := List.perm_middle
  have hperm' : (before' ++ line' :: rest').Perm (line' :: (before' ++ rest')) :=
    List.perm_middle
  rw [h, hrest] at hperm
  have hcount := (hperm.symm.trans hperm').count_eq line
  by_contra hne
  rw [List.count_cons_self, List.count_cons_of_ne (Ne.symm hne)] at hcount
  omega

theorem dropsOnlyTitle_iff : DropsOnlyTitle md title chapter sec ↔
    ∀ before line rest, leadLine (splitLines md) = some (before, line, rest) →
      ∀ text ∈ headingText line, sectionRef chapter sec <+: strip text →
        PrintsTitle title line ∧ isSubHeading chapter sec line = false := by
  have hunbroken : ∀ l ∈ splitLines md, ∀ c ∈ l, isBreak c = false := fun l hl c hc =>
    (mem_splitLines hl hc).1
  constructor
  · intro h before line rest hlead text ht hnumber
    rcases dropDuplicateLeadHeading_cases md chapter sec with ⟨-, hno⟩ | ⟨_, _, _, hlead', -, hdrop⟩
    · exact absurd hnumber (hno before line rest hlead text ht)
    · rw [hlead] at hlead'
      obtain ⟨rfl, rfl, rfl⟩ := by simpa using hlead'
      exact h before line rest (leadLine_eq hlead) hdrop
  · intro h before line rest hlines hdrop
    have hfree : ∀ {ls : List Text}, ls.Sublist (splitLines md) → ∀ l ∈ ls, ∀ c ∈ l,
        isBreak c = false := fun hsub l hl => hunbroken l (hsub.mem hl)
    have hnl : ∀ {ls : List Text}, ls.Sublist (splitLines md) → ∀ l ∈ ls, '\n' ∉ l :=
      fun hsub l hl hc => absurd (hfree hsub l hl '\n' hc) (by decide)
    have hsub : (before ++ rest).Sublist (splitLines md) := by
      rw [hlines]
      exact (List.Sublist.refl before).append (List.sublist_cons_self line rest)
    rcases dropDuplicateLeadHeading_cases md chapter sec with
      ⟨hsame, -⟩ | ⟨before', line', rest', hlead, ⟨text, ht, hnumber⟩, hdrop'⟩
    · have hlen := length_splitLines_joinLines (hfree hsub)
      rw [← hdrop, hsame, hlines] at hlen
      simp only [List.length_append, List.length_cons] at hlen
      omega
    · have hlines' := leadLine_eq hlead
      have hsub' : (before' ++ rest').Sublist (splitLines md) := by
        rw [hlines']
        exact (List.Sublist.refl before').append (List.sublist_cons_self line' rest')
      have hlen : (before ++ rest).length = (before' ++ rest').length := by
        have hall := congrArg List.length (hlines.symm.trans hlines')
        simp only [List.length_append, List.length_cons] at hall ⊢
        omega
      have heq := joinLines_injective (hnl hsub) (hnl hsub') hlen (hdrop.symm.trans hdrop')
      obtain rfl := line_of_rest (hlines.symm.trans hlines') heq
      exact h before' line rest' hlead text ht hnumber

/-! Numbering through. -/

/-- A rewriting that goes line by line and leaves what the exporter looks at. -/
structure LeavesLead (f : Text → Text) : Prop where
  lines : ∀ t, splitLines (f t) = (splitLines t).map f
  blank : ∀ l, strip (f l) = [] ↔ strip l = []
  heading : ∀ l, '\n' ∉ l → headingText (f l) = (headingText l).map f
  numbered : ∀ t chapter sec,
    sectionRef chapter sec <+: strip (f t) ↔ sectionRef chapter sec <+: strip t

theorem leavesLead_id : LeavesLead id :=
  ⟨fun t => by simp, fun _ => Iff.rfl, fun l _ => by simp, fun _ _ _ => Iff.rfl⟩

theorem headingParts_renumberRefs (l : Text) :
    headingParts (renumberRefs mapping chapter sec l) =
      (headingParts l).map (renumberRefs mapping chapter sec) := by
  have hmark : ∀ c : Char, (c == '#') = true → isDigit c = false ∧ c ≠ '.' := by
    intro c hc
    obtain rfl := beq_iff_eq.mp hc
    decide
  have hspace : ∀ c : Char, isSpace c = true → isDigit c = false ∧ c ≠ '.' := by
    intro c hc
    refine ⟨not_isDigit_of_isSpace hc, ?_⟩
    rintro rfl
    exact absurd hc (by decide)
  simp only [headingParts, takeWhile_renumberRefs hmark, takeWhile_renumberRefs hspace]
  split
  · rfl
  · rfl

theorem leavesLead_renumberRefs (mapping : List (Nat × Nat)) (chapter sec : Nat) :
    LeavesLead (renumberRefs mapping chapter sec) where
  lines := splitLines_renumberRefs
  blank l := by rw [strip_renumberRefs, renumberRefs_eq_nil]
  heading l hl := by
    have hstrip : '\n' ∉ strip l := fun hc => hl (mem_of_mem_strip hc)
    have hstrip' : '\n' ∉ strip (renumberRefs mapping chapter sec l) := by
      rw [strip_renumberRefs]
      intro hc
      rcases mem_renumberRefs hc with hc | hc
      · exact hstrip hc
      · exact absurd hc (by decide)
    rw [headingText_eq hstrip', headingText_eq hstrip, strip_renumberRefs,
      headingParts_renumberRefs]
  numbered t ch s := by
    rw [strip_renumberRefs]
    exact prefix_renumbered (digits_ofNat ch) (digits_ofNat s)

theorem leavesLead_renumber (order : List Nat) (chapter sec : Nat) :
    LeavesLead (renumber order chapter sec) := by
  unfold renumber
  dsimp only
  split
  · exact leavesLead_id
  · exact leavesLead_renumberRefs _ chapter sec

theorem leavesLead_numberedThrough (body title : Text) (chapter sec : Nat) :
    LeavesLead (numberedThrough body title chapter sec) := by
  unfold numberedThrough
  split
  · exact leavesLead_id
  · exact leavesLead_renumber _ chapter sec

theorem fixHeadingNumbers_eq (body title : Text) (chapter sec : Nat) :
    fixHeadingNumbers (stripTitleReprint body title) chapter sec =
      numberedThrough body title chapter sec (beforeNumbering body title chapter sec) := by
  simp only [fixHeadingNumbers, numberedThrough, beforeNumbering]
  split
  · rename_i hempty
    rw [List.isEmpty_iff.mp hempty]
    rfl
  · generalize ownOrder (stripTitleReprint body title) chapter sec = order
    rcases order with _ | ⟨n, _ | ⟨k, order⟩⟩
    · rfl
    · rfl
    · rfl

end RownRg.Export

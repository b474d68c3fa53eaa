import RownRg.Qa.HeadingRepair

/-! The only sub-heading of a section loses its number. -/

open PyText Regex

namespace RownRg.Headings

variable {s h b sp t u v w x y z rest : Text} {m : Match LineGroup} {chapter sec only n : Nat}
  {c : Char} {γ : Type} {r : Regex γ} {f : Match γ → Text} {content result : Text}
  {ps qs : List (Piece NumberGroup)}

/-- The pattern of a heading with the given number. -/
def loneRe (chapter sec only : Nat) : Regex LineGroup :=
  cat [lineStart, group .mark (seq (between space 0 3) (hashes 2 4)), star space,
    lit (label chapter sec only), notAhead digit, star space]

/-- The mark of the heading stays. -/
def keepMark (m : Match LineGroup) : Text := (m.group LineGroup.mark).getD [] ++ [' ']

theorem dropLoneNumber_eq (chapter sec only : Nat) (content : Text) :
    dropLoneNumber chapter sec only content = (loneRe chapter sec only).subFrom keepMark [] content :=
  rfl

theorem digits_label (chapter sec only : Nat) :
    Digits (ofNat chapter) ∧ Digits (ofNat sec) ∧ Digits (ofNat only) :=
  ⟨digits_ofNat _, digits_ofNat _, digits_ofNat _⟩

theorem first_lone (hx : atLineStart x) (hm : Mark s h b) (hsp : ∀ c ∈ sp, isSpace c)
    (hv : ∀ c ∈ v.head?, isSpace c = false) (hd : ∀ c ∈ (sp ++ v).head?, isDigit c = false) :
    (loneRe chapter sec only).first x (s ++ (h ++ (b ++ (label chapter sec only ++ (sp ++ v))))) =
      some (⟨s ++ (h ++ (b ++ (label chapter sec only ++ sp))), [(.mark, s ++ h)]⟩, v) := by
  have hhash : ∀ c ∈ (h ++ (b ++ (label chapter sec only ++ (sp ++ v)))).head?, isSpace c = false := by
    obtain ⟨d, h', rfl⟩ := List.exists_cons_of_ne_nil hm.ne_nil
    intro c hc
    obtain rfl := Option.some.inj hc
    rw [hm.hashes d (by simp)]
    decide
  have hlabel : ∀ c ∈ (label chapter sec only ++ (sp ++ v)).head?, isSpace c = false := by
    intro c hc
    by_contra hspace
    rw [Bool.not_eq_false] at hspace
    have hnot := not_isDigit_of_isSpace hspace
    simp [head?_threeNumbers (digits_ofNat chapter) c hc] at hnot
  have hstop : ∀ c ∈ (b ++ (label chapter sec only ++ (sp ++ v))).head?, (c == '#') = false := by
    intro c hc
    rw [beq_eq_false_iff_ne]
    rintro rfl
    cases b with
    | nil => exact absurd (head?_threeNumbers (digits_ofNat chapter) '#' hc) (by decide)
    | cons d b =>
      obtain rfl := Option.some.inj hc
      exact absurd (hm.gap '#' (by simp)) (by decide)
  obtain ⟨l₁, h₁⟩ := run_between (γ := LineGroup) (x := x) (k := []) (Nat.zero_le _) hm.short
    hm.indent hhash
  obtain ⟨l₂, h₂⟩ := run_between (γ := LineGroup) (p := (· == '#')) (x := s.reverse ++ x) (k := [])
    hm.least hm.most (fun c hc => by simpa using hm.hashes c hc) hstop
  have hmark : ∃ l, (seq (between space 0 3) (hashes 2 4) : Regex LineGroup).run
      ⟨x, s ++ (h ++ (b ++ (label chapter sec only ++ (sp ++ v)))), []⟩ =
        ⟨h.reverse ++ (s.reverse ++ x), b ++ (label chapter sec only ++ (sp ++ v)), []⟩ :: l := by
    rw [run, space, h₁, List.flatMap_cons, hashes, chr, h₂]
    exact ⟨_, rfl⟩
  obtain ⟨l, hl⟩ := hmark
  obtain ⟨l₃, h₃⟩ := run_group (g := LineGroup.mark) hl
  have hcapture : Pos.capture LineGroup.mark
      ⟨x, s ++ (h ++ (b ++ (label chapter sec only ++ (sp ++ v)))), []⟩
      ⟨h.reverse ++ (s.reverse ++ x), b ++ (label chapter sec only ++ (sp ++ v)), []⟩ =
        ⟨h.reverse ++ (s.reverse ++ x), b ++ (label chapter sec only ++ (sp ++ v)),
          [(.mark, s ++ h)]⟩ := by
    rw [Pos.capture, since_skip (w := s ++ h) (by simp)]
  rw [hcapture] at h₃
  obtain ⟨l₄, h₄⟩ := run_star_stop (γ := LineGroup) (x := h.reverse ++ (s.reverse ++ x))
    (k := [(.mark, s ++ h)]) hm.gap hlabel
  have h₅ : (lit (label chapter sec only)).run (⟨b.reverse ++ (h.reverse ++ (s.reverse ++ x)),
      label chapter sec only ++ (sp ++ v), [(.mark, s ++ h)]⟩ : Pos LineGroup) =
        [⟨(label chapter sec only).reverse ++ (b.reverse ++ (h.reverse ++ (s.reverse ++ x))), sp ++ v,
          [(.mark, s ++ h)]⟩] := by
    rw [run_lit rfl, skip_eq rfl]
  have h₆ : ∀ q : Pos LineGroup, q.after = sp ++ v → (notAhead digit).run q = [q] := by
    intro q hq
    have hrun : (digit : Regex LineGroup).run q = [] := by
      rw [digit, run, hq]
      cases hhead : sp ++ v with
      | nil => rfl
      | cons c u => simp [hd c (by simp [hhead])]
    rw [run, hrun]
    rfl
  obtain ⟨l₇, h₇⟩ := run_star_stop (γ := LineGroup)
    (x := (label chapter sec only).reverse ++ (b.reverse ++ (h.reverse ++ (s.reverse ++ x))))
    (k := [(.mark, s ++ h)]) hsp hv
  have hline : (lineStart : Regex LineGroup).run
      ⟨x, s ++ (h ++ (b ++ (label chapter sec only ++ (sp ++ v)))), []⟩ = [⟨x, _, []⟩] := if_pos hx
  have hrun := head?_run_seq hline (head?_run_seq h₃ (head?_run_seq h₄ (head?_run_seq h₅
    (head?_run_seq (h₆ _ rfl) (congrArg List.head? h₇)))))
  have hhead : ((loneRe chapter sec only).run
      ⟨x, s ++ (h ++ (b ++ (label chapter sec only ++ (sp ++ v)))), []⟩).head? = some _ := hrun
  rw [first, hhead, Option.map_some, since_skip (w := s ++ (h ++ (b ++ (label chapter sec only ++ sp))))
    (by simp)]

/-- What the pattern matches, and what it leaves. -/
theorem exists_lone (hfirst : (loneRe chapter sec only).first x t = some (m, rest)) :
    atLineStart x ∧ ∃ s h b sp, Mark s h b ∧ (∀ c ∈ sp, isSpace c) ∧
      (∀ c ∈ rest.head?, isSpace c = false) ∧ (∀ c ∈ (sp ++ rest).head?, isDigit c = false) ∧
      t = s ++ (h ++ (b ++ (label chapter sec only ++ (sp ++ rest)))) ∧
        m = ⟨s ++ (h ++ (b ++ (label chapter sec only ++ sp))), [(.mark, s ++ h)]⟩ := by
  obtain ⟨q, hq, -⟩ := Option.map_eq_some_iff.mp hfirst
  have hmem := List.mem_of_head? hq
  have hspaces : (star space : Regex LineGroup).Plain := trivial
  simp only [loneRe, cat, mem_run_seq (a := lineStart), mem_lineStart] at hmem
  obtain ⟨_, ⟨hx, rfl⟩, hq₁⟩ := hmem
  have hplain : (seq (between space 0 3) (hashes 2 4) : Regex LineGroup).Plain :=
    ⟨plain_indent, plain_hashes⟩
  obtain ⟨_, v₁, ⟨s, h, hs, hh, rfl⟩, ht, hq₂⟩ := (mem_run_seq_group hplain).mp hq₁
  obtain ⟨b, v₂, hb, rfl, hq₃⟩ := (mem_run_seq_plain hspaces).mp hq₂
  obtain ⟨_, v, hlit, rfl, hq₄⟩ := (mem_run_seq_plain (plain_lit _)).mp hq₃
  obtain rfl := accepts_lit.1 hlit
  obtain ⟨_, hahead, -⟩ := mem_run_seq.1 hq₄
  have hd := (mem_run_notAhead_cls.1 hahead).1
  obtain ⟨hshort, hindent⟩ := accepts_indent.1 hs
  obtain ⟨hleast, hmost, hhash⟩ := accepts_hashes.1 hh
  have hm : Mark s h b := ⟨hshort, hindent, hleast, hmost, hhash, accepts_star_cls.1 hb⟩
  have hcut := List.takeWhile_append_dropWhile (p := isSpace) (l := v)
  have hsp : ∀ c ∈ v.takeWhile isSpace, isSpace c := fun c hc => List.mem_takeWhile_imp hc
  have hv : ∀ c ∈ (v.dropWhile isSpace).head?, isSpace c = false := head?_dropWhile v
  generalize v.takeWhile isSpace = sp at hcut hsp
  generalize v.dropWhile isSpace = v' at hcut hv
  subst hcut
  rw [List.append_assoc] at ht
  have hexact : (loneRe chapter sec only).first x t = some (_, v') := ht ▸ first_lone hx hm hsp hv hd
  rw [hfirst, Option.some.injEq, Prod.mk.injEq] at hexact
  obtain ⟨rfl, rfl⟩ := hexact
  exact ⟨hx, s, h, b, sp, hm, hsp, hv, hd, ht, rfl⟩

theorem lineBound_loneRe : LineBound (loneRe chapter sec only) where
  line := first_midLine
  front := by
    intro x c t m rest hfirst
    obtain ⟨-, s, h, b, sp, hm, -, -, -, heq, -⟩ := exists_lone hfirst
    exact hm.front heq

/-- Either no match, or a first one. -/
theorem piecesFrom_cases (r : Regex γ) (x t : Text) :
    (r.piecesFrom x t = t.map .plain ∧ ∀ y z, t = y ++ z → z ≠ [] →
      ∀ m rest, r.first (y.reverse ++ x) z = some (m, rest) → m.text = []) ∨
    ∃ y z m rest, t = y ++ z ∧ r.first (y.reverse ++ x) z = some (m, rest) ∧ m.text ≠ [] ∧
      r.piecesFrom x t =
        y.map .plain ++ .hit m :: r.piecesFrom (m.text.reverse ++ (y.reverse ++ x)) rest := by
  induction t generalizing x with
  | nil => exact .inl ⟨rfl, fun y z hyz hz => absurd (List.append_eq_nil_iff.mp hyz.symm).2 hz⟩
  | cons c t ih =>
    by_cases hhit : ∃ m rest, r.first x (c :: t) = some (m, rest) ∧ m.text ≠ []
    · obtain ⟨m, rest, hfirst, hne⟩ := hhit
      exact .inr ⟨[], c :: t, m, rest, rfl, hfirst, hne, piecesFrom_hit hne hfirst⟩
    · have hempty : ∀ m rest, r.first x (c :: t) = some (m, rest) → m.text = [] := by
        intro m rest hfirst
        by_contra hne
        exact hhit ⟨m, rest, hfirst, hne⟩
      have hstep := piecesFrom_pass hempty
      rcases ih (c :: x) with ⟨hsame, hnone⟩ | ⟨y, z, m, rest, rfl, hfirst, hne, hpieces⟩
      · refine .inl ⟨by rw [hstep, hsame]; rfl, fun y z hyz hz m rest hfirst => ?_⟩
        cases y with
        | nil =>
          rw [List.nil_append] at hyz
          exact hempty m rest (hyz ▸ hfirst)
        | cons d y =>
          obtain ⟨rfl, rfl⟩ := List.cons.inj hyz
          exact hnone y z rfl hz m rest (by simpa using hfirst)
      · refine .inr ⟨c :: y, z, m, rest, rfl, by simpa using hfirst, hne, ?_⟩
        rw [hstep, hpieces]
        simp

/-- No number comes in when a number goes. -/
theorem finditer_loneRe (x t : Text) :
    ∀ m ∈ refRe.finditer ((loneRe chapter sec only).subFrom keepMark x t), m ∈ refRe.finditer t := by
  induction hn : t.length using Nat.strongRecOn generalizing x t with
  | _ n ih =>
    cases t with
    | nil => exact fun m hm => hm
    | cons c t =>
      intro m hm
      cases hlone : (loneRe chapter sec only).first x (c :: t) with
      | some found =>
        obtain ⟨m', rest⟩ := found
        obtain ⟨hline, s, h, b, sp, hmark, hsp, hrest, hd, heq, rfl⟩ := exists_lone hlone
        have hlen := congrArg List.length heq
        have hpos := List.length_pos_of_ne_nil hmark.ne_nil
        simp only [List.length_cons, List.length_append] at hlen hn
        have hkeep : ∀ c ∈ s ++ (h ++ [' ']), isNumeric c = false := by
          intro c hc
          rcases List.mem_append.mp hc with hc | hc
          · exact hmark.not_numeric c (by simp [hc])
          · rcases List.mem_append.mp hc with hc | hc
            · exact hmark.not_numeric c (by simp [hc])
            · rw [List.mem_singleton.mp hc]
              decide
        rw [subFrom_hit (by simp [hmark.ne_nil]) hlone] at hm
        have hkept : keepMark ⟨s ++ (h ++ (b ++ (label chapter sec only ++ sp))), [(.mark, s ++ h)]⟩ =
            s ++ (h ++ [' ']) := by
          simp [keepMark, Match.group]
        rw [hkept, finditer, pieces_not_numeric hkeep, hits_append, hits_map_plain,
          List.nil_append] at hm
        have hin := ih rest.length (by omega) _ rest rfl m hm
        have hpieces : refRe.pieces (c :: t) = (s ++ (h ++ b)).map .plain ++
            .hit (refMatch (ofNat chapter) (ofNat sec) (ofNat only)) ::
              (sp.map .plain ++ refRe.pieces rest) := by
          rw [heq, ← pieces_not_numeric fun c hc => not_numeric_space (hsp c hc), label_eq,
            ← pieces_threeNumbers (digits_ofNat _) (digits_ofNat _) (digits_ofNat _) hd,
            ← pieces_not_numeric hmark.not_numeric]
          simp
        rw [finditer, hpieces, hits_append, hits_map_plain]
        refine .tail _ ?_
        show m ∈ hits (sp.map .plain ++ refRe.pieces rest)
        rw [hits_append, hits_map_plain]
        exact hin
      | none =>
        cases href : refRe.first [] (c :: t) with
        | some found =>
          obtain ⟨m', rest⟩ := found
          obtain ⟨y, z, w, hy, hz, hw, rfl, heq, hrest⟩ := exists_threeNumbers href
          have hlen := congrArg List.length heq
          have hpos := List.length_pos_of_ne_nil (threeNumbers_ne_nil (x := y) (y := z) (z := w))
          simp only [List.length_cons, List.length_append] at hlen hn
          rw [heq, LineBound.finditer_number lineBound_loneRe hy hz hw hrest] at hm
          rw [heq, finditer, pieces_threeNumbers hy hz hw hrest]
          rcases List.mem_cons.mp hm with rfl | hm
          · exact .head _
          · exact .tail _ (ih rest.length (by omega) _ rest rfl m hm)
        | none =>
          rw [LineBound.finditer_plain lineBound_loneRe hlone href] at hm
          rw [finditer, pieces_plain blind_refRe href]
          exact ih t.length (by simp at hn; omega) _ t rfl m hm

/-! A text with a heading in it. -/

theorem headedFrom_append (x : Text) (ps qs : List (Piece NumberGroup)) :
    headedFrom x (ps ++ qs) = headedFrom x ps ++ headedFrom ((render ps).reverse ++ x) qs ∧
      bodyFrom x (ps ++ qs) = bodyFrom x ps ++ bodyFrom ((render ps).reverse ++ x) qs := by
  induction ps generalizing x with
  | nil => exact ⟨rfl, rfl⟩
  | cons p ps ih =>
    cases p with
    | plain c =>
      have hnext := ih (c :: x)
      simpa [headedFrom, bodyFrom, spotsFrom] using hnext
    | hit m =>
      obtain ⟨hheads, hbody⟩ := ih (m.text.reverse ++ x)
      have hbefore : (render (.hit m :: ps)).reverse ++ x =
          (render ps).reverse ++ (m.text.reverse ++ x) := by simp
      rw [List.cons_append, hbefore]
      by_cases hheaded : Headed x
      · rw [headedFrom_hit hheaded, headedFrom_hit hheaded, bodyFrom_hit hheaded, bodyFrom_hit hheaded,
          hheads, hbody]
        exact ⟨rfl, rfl⟩
      · rw [headedFrom_skip hheaded, headedFrom_skip hheaded, bodyFrom_skip hheaded,
          bodyFrom_skip hheaded, hheads, hbody]
        exact ⟨rfl, rfl⟩

theorem pieces_cut (hw : ∀ c ∈ w.head?, isNumeric c = false) (u : Text) :
    refRe.pieces (u ++ w) = refRe.pieces u ++ refRe.pieces w := by
  cases w with
  | nil => simp
  | cons c w =>
    have hc := hw c rfl
    have hfront := pieces_not_numeric (u := [c]) (by simpa using hc) w
    rw [pieces_unread (shuns_of_not_numeric hc) unended_refRe blind_refRe]
    exact congrArg _ hfront.symm

theorem head?_mark (hm : Mark s h b) : ∀ c ∈ (s ++ (h ++ v)).head?, isNumeric c = false := by
  intro c hc
  refine hm.not_numeric c ?_
  obtain ⟨d, h', rfl⟩ := List.exists_cons_of_ne_nil hm.ne_nil
  cases s with
  | nil =>
    obtain rfl := Option.some.inj hc
    simp
  | cons e s =>
    obtain rfl := Option.some.inj hc
    simp

theorem pieces_heading (hm : Mark s h b) (hx : Digits x) (hy : Digits y) (hz : Digits z)
    (hv : ∀ c ∈ v.head?, isDigit c = false) (u : Text) :
    refRe.pieces (u ++ (s ++ (h ++ (b ++ (threeNumbers x y z ++ v))))) =
      refRe.pieces u ++ ((s ++ (h ++ b)).map .plain ++ .hit (refMatch x y z) :: refRe.pieces v) := by
  rw [pieces_cut (head?_mark hm), ← pieces_threeNumbers hx hy hz hv,
    ← pieces_not_numeric hm.not_numeric]
  simp

/-- The numbers around a heading. -/
theorem sorted_heading (hm : Mark s h b) (hx : Digits x) (hy : Digits y) (hz : Digits z)
    (hv : ∀ c ∈ v.head?, isDigit c = false) (hline : atLineStart (u.reverse ++ w)) :
    headedFrom w (refRe.pieces (u ++ (s ++ (h ++ (b ++ (threeNumbers x y z ++ v)))))) =
        headedFrom w (refRe.pieces u) ++ refMatch x y z ::
          headedFrom ((threeNumbers x y z).reverse ++ ((s ++ (h ++ b)).reverse ++ (u.reverse ++ w)))
            (refRe.pieces v) ∧
      bodyFrom w (refRe.pieces (u ++ (s ++ (h ++ (b ++ (threeNumbers x y z ++ v)))))) =
        bodyFrom w (refRe.pieces u) ++
          bodyFrom ((threeNumbers x y z).reverse ++ ((s ++ (h ++ b)).reverse ++ (u.reverse ++ w)))
            (refRe.pieces v) := by
  obtain ⟨hheads, hbody⟩ := headedFrom_append w (refRe.pieces u)
    ((s ++ (h ++ b)).map .plain ++ .hit (refMatch x y z) :: refRe.pieces v)
  have hheaded : Headed ((s ++ (h ++ b)).reverse ++ (u.reverse ++ w)) := ⟨s, h, b, _, hm, rfl, hline⟩
  rw [pieces_heading hm hx hy hz hv, hheads, hbody, render_pieces, headedFrom_map_plain,
    bodyFrom_map_plain, headedFrom_hit hheaded, bodyFrom_hit hheaded]
  exact ⟨rfl, rfl⟩

/-- The numbers around a mark that has lost its number. -/
theorem sorted_mark (hm : Mark s h b) (u v : Text) :
    headedFrom [] (refRe.pieces (u ++ (s ++ (h ++ (' ' :: v))))) = headedFrom [] (refRe.pieces u) ++
        headedFrom ((s ++ (h ++ [' '])).reverse ++ u.reverse) (refRe.pieces v) ∧
      bodyFrom [] (refRe.pieces (u ++ (s ++ (h ++ (' ' :: v))))) = bodyFrom [] (refRe.pieces u) ++
        bodyFrom ((s ++ (h ++ [' '])).reverse ++ u.reverse) (refRe.pieces v) := by
  have hkeep : ∀ c ∈ s ++ (h ++ [' ']), isNumeric c = false := by
    intro c hc
    rcases List.mem_append.mp hc with hc | hc
    · exact hm.not_numeric c (by simp [hc])
    · rcases List.mem_append.mp hc with hc | hc
      · exact hm.not_numeric c (by simp [hc])
      · rw [List.mem_singleton.mp hc]
        decide
  have hpieces : refRe.pieces (u ++ (s ++ (h ++ (' ' :: v)))) =
      refRe.pieces u ++ ((s ++ (h ++ [' '])).map .plain ++ refRe.pieces v) := by
    rw [pieces_cut (head?_mark hm), ← pieces_not_numeric hkeep]
    simp
  obtain ⟨hheads, hbody⟩ := headedFrom_append [] (refRe.pieces u)
    ((s ++ (h ++ [' '])).map .plain ++ refRe.pieces v)
  rw [hpieces, hheads, hbody, render_pieces, headedFrom_map_plain, bodyFrom_map_plain,
    List.append_nil]
  exact ⟨rfl, rfl⟩

/-! Only a number right behind the one that goes comes into a heading. -/

/-- A mark that begins behind a given place begins there whatever stands before it. -/
theorem headed_behind {p k : Text} (hp : ∀ c ∈ p.getLast?, isSpace c = false) (hne : p ≠ [])
    (hhead : Headed (p ++ ' ' :: '#' :: k)) (x : Text) : Headed (p ++ x) := by
  obtain ⟨s, h, b, y, hm, heq, hline⟩ := hhead
  have hstop : ∀ {c : Char} {k : Text}, c ≠ '\n' → ¬ atLineStart (c :: k) := by
    intro c k hc
    simpa [atLineStart] using hc
  rcases List.append_eq_append_iff.mp heq with ⟨q, hq, hy⟩ | ⟨q, rfl, rfl⟩
  · exfalso
    have hmark : (s ++ (h ++ b)).reverse = b.reverse ++ (h.reverse ++ s.reverse) := by simp
    cases q with
    | nil =>
      rw [List.nil_append] at hy
      exact hstop (by decide) (hy ▸ hline)
    | cons c q =>
      obtain ⟨hc, hy⟩ := List.cons.inj hy
      cases q with
      | nil =>
        rw [List.append_eq, List.nil_append] at hy
        exact hstop (by decide) (hy ▸ hline)
      | cons d q =>
        obtain ⟨hd, -⟩ := List.cons.inj hy
        subst hc hd
        rw [hmark] at hq
        rcases List.append_eq_append_iff.mp hq with ⟨r, rfl, hr⟩ | ⟨r, hb, -⟩
        · rcases List.append_eq_append_iff.mp hr with ⟨e, rfl, he⟩ | ⟨e, hh, he⟩
          · have hmem : '#' ∈ s := by
              rw [← List.mem_reverse, he]
              simp
            exact absurd (hm.indent '#' hmem) (by decide)
          · cases e with
            | nil =>
              have hmem : '#' ∈ s := by
                rw [← List.mem_reverse]
                rw [List.nil_append] at he
                simp [← he]
              exact absurd (hm.indent '#' hmem) (by decide)
            | cons e e' =>
              obtain ⟨rfl, -⟩ := List.cons.inj he
              have hmem : ' ' ∈ h := by
                rw [← List.mem_reverse, hh]
                simp
              exact absurd (hm.hashes ' ' hmem) (by decide)
        · have hlast := hp _ (List.getLast?_eq_some_getLast hne)
          have hmem : p.getLast hne ∈ b := by
            rw [← List.mem_reverse, hb]
            simp
          rw [hm.gap _ hmem] at hlast
          cases hlast
  · refine ⟨s, h, b, q ++ x, hm, by simp, ?_⟩
    cases q with
    | cons c q => exact hline
    | nil => exact absurd hline (hstop (by decide))

/-- Where a number stands. -/
theorem mem_spotsFrom {p : Text × Match NumberGroup} (hp : p ∈ spotsFrom x (refRe.pieces t)) :
    ∃ y z, t = y ++ (p.2.text ++ z) ∧ p.1 = y.reverse ++ x ∧ ∀ c ∈ z.head?, isDigit c = false := by
  induction hn : t.length using Nat.strongRecOn generalizing x t with
  | _ n ih =>
    cases t with
    | nil => cases hp
    | cons c t =>
      cases hfirst : refRe.first [] (c :: t) with
      | none =>
        rw [pieces_plain blind_refRe hfirst] at hp
        obtain ⟨y, z, rfl, hbefore, hz⟩ := ih t.length (by simp at hn; omega) hp rfl
        exact ⟨c :: y, z, rfl, by simp [hbefore], hz⟩
      | some found =>
        obtain ⟨m, rest⟩ := found
        obtain ⟨a, b, e, -, -, -, rfl, heq, hrest⟩ := exists_threeNumbers hfirst
        have hlen := congrArg List.length heq
        have hpos := List.length_pos_of_ne_nil (threeNumbers_ne_nil (x := a) (y := b) (z := e))
        simp only [List.length_cons, List.length_append] at hlen hn
        rw [pieces_hit blind_refRe threeNumbers_ne_nil hfirst] at hp
        rcases List.mem_cons.mp hp with rfl | hp
        · exact ⟨[], rest, heq, rfl, hrest⟩
        · obtain ⟨y, z, hsplit, hbefore, hz⟩ := ih rest.length (by omega) hp rfl
          have htext : (refMatch a b e).text = threeNumbers a b e := rfl
          exact ⟨threeNumbers a b e ++ y, z, by rw [heq, hsplit, List.append_assoc],
            by simp [hbefore, htext], hz⟩

theorem map_snd_spotsFrom (x : Text) (ps : List (Piece NumberGroup)) :
    (spotsFrom x ps).map (·.2) = hits ps := by
  induction ps generalizing x with
  | nil => rfl
  | cons p ps ih =>
    cases p with
    | plain c => exact ih (c :: x)
    | hit m => exact congrArg (m :: ·) (ih (m.text.reverse ++ x))

theorem mem_finditer {m : Match NumberGroup} :
    m ∈ refRe.finditer t ↔ m ∈ inHeadings t ∨ m ∈ inBody t := by
  classical
  have hspots := map_snd_spotsFrom [] (refRe.pieces t)
  rw [finditer, ← hspots]
  constructor
  · intro hm
    obtain ⟨p, hp, rfl⟩ := List.mem_map.mp hm
    by_cases hheaded : Headed p.1
    · exact .inl (List.mem_map_of_mem (List.mem_filter.mpr ⟨hp, by simpa using hheaded⟩))
    · exact .inr (List.mem_map_of_mem (List.mem_filter.mpr ⟨hp, by simpa using hheaded⟩))
  · rintro (hm | hm)
    · obtain ⟨p, hp, rfl⟩ := List.mem_map.mp hm
      exact List.mem_map_of_mem (List.mem_filter.mp hp).1
    · obtain ⟨p, hp, rfl⟩ := List.mem_map.mp hm
      exact List.mem_map_of_mem (List.mem_filter.mp hp).1

theorem spotsFrom_over (x y : Text) (ps : List (Piece NumberGroup)) :
    spotsFrom (y ++ x) ps = (spotsFrom y ps).map fun p => (p.1 ++ x, p.2) := by
  induction ps generalizing y with
  | nil => rfl
  | cons p ps ih =>
    cases p with
    | plain c => exact ih (c :: y)
    | hit m =>
      have hnext := ih (m.text.reverse ++ y)
      rw [List.append_assoc] at hnext
      rw [spotsFrom, spotsFrom, hnext]
      rfl

/-- The number at the very front. -/
theorem first_of_spot {p : Text × Match NumberGroup} (hp : p ∈ spotsFrom [] (refRe.pieces v))
    (hfront : p.1 = []) : ∃ rest, refRe.first [] v = some (p.2, rest) := by
  cases v with
  | nil => cases hp
  | cons c v =>
    cases hfirst : refRe.first [] (c :: v) with
    | none =>
      rw [pieces_plain blind_refRe hfirst] at hp
      obtain ⟨y, -, -, hbefore, -⟩ := mem_spotsFrom (show p ∈ spotsFrom [c] (refRe.pieces v) from hp)
      simp [hfront] at hbefore
    | some found =>
      obtain ⟨m, rest⟩ := found
      obtain ⟨a, b, z, -, -, -, rfl, -, -⟩ := exists_threeNumbers hfirst
      rw [pieces_hit blind_refRe threeNumbers_ne_nil hfirst] at hp
      rcases List.mem_cons.mp hp with rfl | hp
      · exact ⟨rest, rfl⟩
      · obtain ⟨y, -, -, hbefore, -⟩ := mem_spotsFrom hp
        have hne : (refMatch a b z).text ≠ [] := threeNumbers_ne_nil
        simp [hfront, hne] at hbefore

theorem ownNumbers_eq_nil {ms : List (Match NumberGroup)} : ownNumbers chapter sec ms = [] ↔
    ∀ m ∈ ms, ¬ (numberOf m .chapter = chapter ∧ numberOf m .section = sec) := by
  rw [ownNumbers, List.filterMap_eq_nil_iff]
  refine forall₂_congr fun m _ => ?_
  by_cases hown : numberOf m .chapter = chapter ∧ numberOf m .section = sec <;> simp [hown]

theorem ownNumbers_filter {l : List (Text × Match NumberGroup)} {q : Text × Match NumberGroup → Bool}
    (hq : ∀ p ∈ l, numberOf p.2 .chapter = chapter ∧ numberOf p.2 .section = sec → q p) :
    ownNumbers chapter sec ((l.filter q).map (·.2)) = ownNumbers chapter sec (l.map (·.2)) := by
  induction l with
  | nil => rfl
  | cons p l ih =>
    have htail := ih fun p hp => hq p (.tail _ hp)
    simp only [ownNumbers] at htail ⊢
    by_cases hown : numberOf p.2 .chapter = chapter ∧ numberOf p.2 .section = sec
    · rw [List.filter_cons_of_pos (hq p (.head _) hown), List.map_cons, List.map_cons,
        List.filterMap_cons, List.filterMap_cons, htail]
    · rw [List.map_cons, List.filterMap_cons, if_neg hown, ← htail]
      by_cases hkeep : q p
      · rw [List.filter_cons_of_pos hkeep, List.map_cons, List.filterMap_cons, if_neg hown]
      · rw [List.filter_cons_of_neg hkeep]

open Classical in
theorem headedFrom_over (x : Text) (ps : List (Piece NumberGroup)) :
    headedFrom x ps = ((spotsFrom [] ps).filter fun p => Headed (p.1 ++ x)).map (·.2) := by
  have hspots := spotsFrom_over x [] ps
  rw [List.nil_append] at hspots
  rw [headedFrom, hspots, List.filter_map, List.map_map]
  rfl

open Classical in
theorem bodyFrom_over (x : Text) (ps : List (Piece NumberGroup)) :
    bodyFrom x ps = ((spotsFrom [] ps).filter fun p => ¬ Headed (p.1 ++ x)).map (·.2) := by
  have hspots := spotsFrom_over x [] ps
  rw [List.nil_append] at hspots
  rw [bodyFrom, hspots, List.filter_map, List.map_map]
  rfl

/-- Behind the mark that stays no number of the section comes into a heading, unless one stands
right there. -/
theorem sorted_rest {k : Text} (hv : ∀ c ∈ v.head?, isSpace c = false)
    (hnone : ownNumbers chapter sec (headedFrom x (refRe.pieces v)) = [])
    (hfree : ∀ m rest, refRe.first [] v = some (m, rest) →
      ¬ (numberOf m .chapter = chapter ∧ numberOf m .section = sec)) :
    ownNumbers chapter sec (headedFrom (' ' :: '#' :: k) (refRe.pieces v)) = [] ∧
      ownNumbers chapter sec (bodyFrom (' ' :: '#' :: k) (refRe.pieces v)) =
        ownNumbers chapter sec (bodyFrom x (refRe.pieces v)) := by
  classical
  have hthere : ∀ p ∈ spotsFrom [] (refRe.pieces v),
      numberOf p.2 .chapter = chapter ∧ numberOf p.2 .section = sec → ¬ Headed (p.1 ++ x) := by
    intro p hp hown hheaded
    refine ownNumbers_eq_nil.1 hnone p.2 ?_ hown
    rw [headedFrom_over]
    exact List.mem_map_of_mem (List.mem_filter.mpr ⟨hp, by simpa using hheaded⟩)
  have hhere : ∀ p ∈ spotsFrom [] (refRe.pieces v),
      numberOf p.2 .chapter = chapter ∧ numberOf p.2 .section = sec →
        ¬ Headed (p.1 ++ ' ' :: '#' :: k) := by
    intro p hp hown hheaded
    by_cases hfront : p.1 = []
    · obtain ⟨rest, hfirst⟩ := first_of_spot hp hfront
      exact hfree _ _ hfirst hown
    · refine hthere p hp hown (headed_behind ?_ hfront hheaded x)
      obtain ⟨y, z, hsplit, hbefore, -⟩ := mem_spotsFrom hp
      rw [List.append_nil] at hbefore
      have hy : y ≠ [] := by
        rintro rfl
        exact hfront hbefore
      obtain ⟨c, y, rfl⟩ := List.exists_cons_of_ne_nil hy
      intro d hd
      rw [hbefore] at hd
      refine hv d ?_
      rw [hsplit]
      simpa using hd
  refine ⟨ownNumbers_eq_nil.2 fun m hm hown => ?_, ?_⟩
  · rw [headedFrom_over] at hm
    obtain ⟨p, hp, rfl⟩ := List.mem_map.mp hm
    obtain ⟨hmem, hheaded⟩ := List.mem_filter.mp hp
    exact hhere p hmem hown (by simpa using hheaded)
  · rw [bodyFrom_over, bodyFrom_over, ownNumbers_filter fun p hp hown => by simpa using hhere p hp hown,
      ownNumbers_filter fun p hp hown => by simpa using hthere p hp hown]

end RownRg.Headings

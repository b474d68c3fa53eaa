import RownRg.Qa.HeadingCheck

/-! Which numbers of a text stand in its headings, and which refer to them. -/

open PyText Regex

namespace RownRg.Headings

variable {s h b t u v w x y z x' y' z' v' rest : Text} {m : Match NumberGroup} {c d : Char}
  {γ : Type} {r : Regex γ} {f : Match γ → Text} {ps : List (Piece NumberGroup)}

/-- The match of three numbers. -/
def refMatch (x y z : Text) : Match NumberGroup :=
  ⟨threeNumbers x y z, [(.number, z), (.section, y), (.chapter, x)]⟩

theorem threeNumbers_ne_nil : threeNumbers x y z ≠ [] := by simp [threeNumbers]

theorem threeNumbers_inj (hx : Digits x) (hy : Digits y) (hz : Digits z) (hx' : Digits x')
    (hy' : Digits y') (hz' : Digits z') (hv : ∀ c ∈ v.head?, isDigit c = false)
    (hv' : ∀ c ∈ v'.head?, isDigit c = false)
    (heq : threeNumbers x y z ++ v = threeNumbers x' y' z' ++ v') :
    x = x' ∧ y = y' ∧ z = z' ∧ v = v' := by
  have hdot : ∀ {w : Text}, ∀ c ∈ ('.' :: w).head?, isDigit c = false := by
    intro w c hc
    obtain rfl := Option.some.inj hc
    decide
  simp only [threeNumbers, List.append_assoc, List.cons_append] at heq
  obtain ⟨rfl, hyz⟩ := append_inj_of_all hx.2 hx'.2 hdot hdot heq
  obtain ⟨rfl, hzv⟩ := append_inj_of_all hy.2 hy'.2 hdot hdot (List.cons.inj hyz).2
  obtain ⟨rfl, rfl⟩ := append_inj_of_all hz.2 hz'.2 hv hv' (List.cons.inj hzv).2
  exact ⟨rfl, rfl, rfl, rfl⟩

/-- A pattern that matches in one way. -/
theorem first_of_mem {p : Pos γ} (hp : p ∈ r.run ⟨x, t, []⟩)
    (hall : ∀ q ∈ r.run ⟨x, t, []⟩, q = p) (ht : t = w ++ p.after) :
    r.first x t = some (⟨w, p.caps⟩, p.after) := by
  obtain ⟨q, l, hrun⟩ := List.exists_cons_of_ne_nil (List.ne_nil_of_mem hp)
  obtain rfl := hall q (by simp [hrun])
  simp [first, hrun, since_skip (s := ⟨x, t, []⟩) ht]

theorem first_threeNumbers (hx : Digits x) (hy : Digits y) (hz : Digits z)
    (hv : ∀ c ∈ v.head?, isDigit c = false) :
    refRe.first [] (threeNumbers x y z ++ v) = some (refMatch x y z, v) := by
  refine first_of_mem (mem_refRe.2 ⟨x, y, z, v, hx, hy, hz, rfl, hv, rfl⟩) ?_ rfl
  intro q hq
  obtain ⟨x', y', z', v', hx', hy', hz', heq, hv', rfl⟩ := mem_refRe.1 hq
  obtain ⟨rfl, rfl, rfl, rfl⟩ := threeNumbers_inj hx hy hz hx' hy' hz' hv hv' heq
  rfl

theorem exists_threeNumbers (hfirst : refRe.first [] t = some (m, rest)) :
    ∃ x y z, Digits x ∧ Digits y ∧ Digits z ∧ m = refMatch x y z ∧
      t = threeNumbers x y z ++ rest ∧ ∀ c ∈ rest.head?, isDigit c = false := by
  obtain ⟨q, hq, heq⟩ := Option.map_eq_some_iff.mp hfirst
  obtain ⟨x, y, z, v, hx, hy, hz, rfl, hv, rfl⟩ := mem_refRe.1 (List.mem_of_head? hq)
  obtain ⟨rfl, rfl⟩ := Prod.mk.inj heq
  exact ⟨x, y, z, hx, hy, hz, by rw [since_skip (w := threeNumbers x y z) rfl]; rfl, rfl, hv⟩

theorem pieces_threeNumbers (hx : Digits x) (hy : Digits y) (hz : Digits z)
    (hv : ∀ c ∈ v.head?, isDigit c = false) :
    refRe.pieces (threeNumbers x y z ++ v) = .hit (refMatch x y z) :: refRe.pieces v :=
  pieces_hit blind_refRe threeNumbers_ne_nil (first_threeNumbers hx hy hz hv)

/-- A character of three numbers. -/
def isNumeric (c : Char) : Bool := isDigit c || c == '.'

theorem shuns_of_not_numeric (hc : isNumeric c = false) : refRe.Shuns c := by
  simp only [isNumeric, Bool.or_eq_false_iff, beq_eq_false_iff_ne] at hc
  exact shuns_refRe hc.1 hc.2

theorem not_numeric_space (hc : isSpace c) : isNumeric c = false := by
  rw [isNumeric, not_isDigit_of_isSpace hc, Bool.false_or, beq_eq_false_iff_ne]
  rintro rfl
  exact absurd hc (by decide)

theorem numeric_threeNumbers (hx : Digits x) (hy : Digits y) (hz : Digits z) :
    ∀ c ∈ threeNumbers x y z, isNumeric c := by
  intro c hc
  simp only [threeNumbers, List.mem_append, List.mem_cons] at hc
  simp only [isNumeric, Bool.or_eq_true, beq_iff_eq]
  rcases hc with hc | rfl | hc | rfl | hc
  · exact .inl (hx.2 c hc)
  · exact .inr rfl
  · exact .inl (hy.2 c hc)
  · exact .inr rfl
  · exact .inl (hz.2 c hc)

theorem pieces_not_numeric (hu : ∀ c ∈ u, isNumeric c = false) (v : Text) :
    refRe.pieces (u ++ v) = u.map .plain ++ refRe.pieces v := by
  refine pieces_append_plain blind_refRe fun c hc v => ?_
  by_contra hne
  obtain ⟨⟨m, rest⟩, hm⟩ := Option.ne_none_iff_exists'.mp hne
  obtain ⟨x, y, z, hx, -, -, -, heq, -⟩ := exists_threeNumbers hm
  obtain ⟨d, x, rfl⟩ := List.exists_cons_of_ne_nil hx.1
  have hplain := hu c hc
  simp [(List.cons.inj heq).1, isNumeric, hx.2 d (by simp)] at hplain

/-- Whether three numbers stand at the front depends on the digits and dots there alone. -/
theorem first_numeric (hu : refRe.first [] u = none)
    (heq : u.takeWhile isNumeric = v.takeWhile isNumeric) : refRe.first [] v = none := by
  by_contra hne
  obtain ⟨⟨m, rest⟩, hm⟩ := Option.ne_none_iff_exists'.mp hne
  obtain ⟨x, y, z, hx, hy, hz, -, rfl, -⟩ := exists_threeNumbers hm
  rw [List.takeWhile_append_of_pos (numeric_threeNumbers hx hy hz)] at heq
  have hcut := List.takeWhile_append_dropWhile (p := isNumeric) (l := u)
  generalize u.dropWhile isNumeric = k at hcut
  rw [heq] at hcut
  obtain ⟨d, z, rfl⟩ := List.exists_cons_of_ne_nil hz.1
  exact first_refRe_none hu hx hy (hz.2 d (by simp)) (v := z ++ (rest.takeWhile isNumeric ++ k))
    (by rw [← hcut]; simp [threeNumbers])

/-! Patterns that match at a line start, and there at no digit or dot. -/

structure LineBound (r : Regex γ) : Prop where
  line : ∀ {x t}, atLineStart x = false → r.first x t = none
  front : ∀ {x c t m rest}, r.first x (c :: t) = some (m, rest) → isNumeric c = false

theorem atLineStart_cons (hc : isNumeric c) : atLineStart (c :: x) = false := by
  have hne : c ≠ '\n' := by
    rintro rfl
    exact absurd hc (by decide)
  simp [atLineStart, hne]

theorem LineBound.first_numeric (hr : LineBound r) (hc : isNumeric c) : r.first x (c :: t) = none := by
  by_contra hne
  obtain ⟨⟨m, rest⟩, hm⟩ := Option.ne_none_iff_exists'.mp hne
  simp [hr.front hm] at hc

theorem LineBound.takeWhile_subFrom (hr : LineBound r) (hx : atLineStart x = false) :
    (r.subFrom f x t).takeWhile isNumeric = t.takeWhile isNumeric := by
  induction t generalizing x with
  | nil => rfl
  | cons c t ih =>
    rw [subFrom_plain (hr.line hx)]
    by_cases hc : isNumeric c
    · simp [hc, ih (atLineStart_cons hc)]
    · simp [hc]

theorem LineBound.head?_subFrom (hr : LineBound r) (hx : atLineStart x = false) :
    (r.subFrom f x t).head? = t.head? := by
  cases t with
  | nil => rfl
  | cons c t =>
    rw [subFrom_plain (hr.line hx)]
    rfl

theorem LineBound.piecesFrom_numeric (hr : LineBound r) (hu : ∀ c ∈ u, isNumeric c) :
    r.piecesFrom x (u ++ t) = u.map .plain ++ r.piecesFrom (u.reverse ++ x) t := by
  induction u generalizing x with
  | nil => rfl
  | cons c u ih =>
    obtain ⟨hc, hu⟩ := List.forall_mem_cons.mp hu
    rw [List.cons_append, piecesFrom_plain (hr.first_numeric hc), ih hu]
    simp

/-- Three numbers pass through. -/
theorem LineBound.subFrom_numeric (hr : LineBound r) (hu : ∀ c ∈ u, isNumeric c) :
    r.subFrom f x (u ++ t) = u ++ r.subFrom f (u.reverse ++ x) t := by
  induction u generalizing x with
  | nil => rfl
  | cons c u ih =>
    obtain ⟨hc, hu⟩ := List.forall_mem_cons.mp hu
    rw [List.cons_append, subFrom_plain (hr.first_numeric hc), ih hu]
    simp

theorem atLineStart_threeNumbers (hz : Digits z) :
    atLineStart ((threeNumbers x y z).reverse ++ w) = false := by
  obtain ⟨z, c, rfl⟩ := List.eq_nil_or_concat z |>.resolve_left hz.1
  have hc : isNumeric c := by simp [isNumeric, hz.2 c (by simp)]
  simpa [threeNumbers] using atLineStart_cons hc

theorem LineBound.finditer_number (hr : LineBound r) (hx : Digits x) (hy : Digits y) (hz : Digits z)
    (hv : ∀ c ∈ v.head?, isDigit c = false) :
    refRe.finditer (r.subFrom f w (threeNumbers x y z ++ v)) =
      refMatch x y z :: refRe.finditer (r.subFrom f ((threeNumbers x y z).reverse ++ w) v) := by
  rw [hr.subFrom_numeric (numeric_threeNumbers hx hy hz), finditer,
    pieces_threeNumbers hx hy hz]
  · rfl
  · rwa [hr.head?_subFrom (atLineStart_threeNumbers hz)]

theorem LineBound.finditer_plain (hr : LineBound r) (hfirst : r.first x (c :: t) = none)
    (href : refRe.first [] (c :: t) = none) :
    refRe.finditer (r.subFrom f x (c :: t)) = refRe.finditer (r.subFrom f (c :: x) t) := by
  have hnone : refRe.first [] (c :: r.subFrom f (c :: x) t) = none := by
    refine RownRg.Headings.first_numeric href ?_
    by_cases hc : isNumeric c
    · simp [hc, hr.takeWhile_subFrom (atLineStart_cons hc)]
    · simp [hc]
  rw [subFrom_plain hfirst, finditer, pieces_plain blind_refRe hnone]
  rfl

/-! The mark in front of a heading: at most three spaces, two to four hashes, and spaces. -/

structure Mark (s h b : Text) : Prop where
  short : s.length ≤ 3
  indent : ∀ c ∈ s, isSpace c
  least : 2 ≤ h.length
  most : h.length ≤ 4
  hashes : ∀ c ∈ h, c = '#'
  gap : ∀ c ∈ b, isSpace c

theorem Mark.ne_nil (hm : Mark s h b) : h ≠ [] := by
  rintro rfl
  have hleast := hm.least
  simp at hleast

theorem Mark.not_numeric (hm : Mark s h b) : ∀ c ∈ s ++ (h ++ b), isNumeric c = false := by
  intro c hc
  rcases List.mem_append.mp hc with hc | hc
  · exact not_numeric_space (hm.indent c hc)
  · rcases List.mem_append.mp hc with hc | hc
    · rw [hm.hashes c hc]
      decide
    · exact not_numeric_space (hm.gap c hc)

/-- A mark in front of a digit can be read in one way. -/
theorem Mark.inj {s' h' b' : Text} (hm : Mark s h b) (hm' : Mark s' h' b')
    (hv : ∀ c ∈ v.head?, isDigit c) (hv' : ∀ c ∈ v'.head?, isDigit c)
    (heq : s ++ (h ++ (b ++ v)) = s' ++ (h' ++ (b' ++ v'))) : s = s' ∧ h = h' ∧ b = b' ∧ v = v' := by
  have hhash : ∀ {s h b v : Text}, Mark s h b → ∀ c ∈ (h ++ v).head?, isSpace c = false := by
    intro s h b v hm c hc
    obtain ⟨d, h', rfl⟩ := List.exists_cons_of_ne_nil hm.ne_nil
    obtain rfl := Option.some.inj hc
    rw [hm.hashes d (by simp)]
    decide
  have hdigit : ∀ {v : Text}, (∀ c ∈ v.head?, isDigit c) → ∀ c ∈ v.head?, isSpace c = false := by
    intro v hv c hc
    by_contra hspace
    rw [Bool.not_eq_false] at hspace
    have hnot := not_isDigit_of_isSpace hspace
    simp [hv c hc] at hnot
  have hstop : ∀ {b v : Text}, (∀ c ∈ b, isSpace c) → (∀ c ∈ v.head?, isDigit c) →
      ∀ c ∈ (b ++ v).head?, (c == '#') = false := by
    intro b v hb hv c hc
    rw [beq_eq_false_iff_ne]
    rintro rfl
    cases b with
    | nil => exact absurd (hv '#' hc) (by decide)
    | cons d b =>
      obtain rfl := Option.some.inj hc
      exact absurd (hb '#' (by simp)) (by decide)
  obtain ⟨rfl, heq₁⟩ := append_inj_of_all hm.indent hm'.indent (hhash hm) (hhash hm') heq
  obtain ⟨rfl, heq₂⟩ := append_inj_of_all (p := (· == '#')) (fun c hc => by simpa using hm.hashes c hc)
    (fun c hc => by simpa using hm'.hashes c hc) (hstop hm.gap hv) (hstop hm'.gap hv') heq₁
  obtain ⟨rfl, rfl⟩ := append_inj_of_all hm.gap hm'.gap (hdigit hv) (hdigit hv') heq₂
  exact ⟨rfl, rfl, rfl, rfl⟩

theorem plain_indent : (between space 0 3 : Regex γ).Plain := plain_between (by simp [space, Plain]) 0 3

theorem plain_hashes : (hashes 2 4 : Regex γ).Plain := plain_between (by simp [chr, Plain]) 2 4

theorem accepts_indent : (between space 0 3 : Regex γ).Accepts s ↔ s.length ≤ 3 ∧ ∀ c ∈ s, isSpace c := by
  rw [space, accepts_between (Nat.zero_le 3)]
  simp

theorem accepts_hashes :
    (hashes 2 4 : Regex γ).Accepts h ↔ 2 ≤ h.length ∧ h.length ≤ 4 ∧ ∀ c ∈ h, c = '#' := by
  rw [hashes, chr, accepts_between (by decide)]
  simp

theorem mem_lineStart {s q : Pos γ} :
    q ∈ (lineStart : Regex γ).run s ↔ atLineStart s.before ∧ q = s := by
  by_cases hline : s.before.head?.all (· == '\n') <;> simp [run, atLineStart, hline]

theorem run_refRe (x t : Text) : refRe.run ⟨x, t, []⟩ = (refRe.run ⟨[], t, []⟩).map (Pos.over x) := by
  rw [← run_over blind_refRe]
  rfl

theorem mem_subHeadingRe {q : Pos NumberGroup} : q ∈ subHeadingRe.run ⟨x, t, []⟩ ↔
    atLineStart x ∧ ∃ s h b y z w v, Mark s h b ∧ Digits y ∧ Digits z ∧ Digits w ∧
      (∀ c ∈ v.head?, isDigit c = false) ∧ t = s ++ (h ++ (b ++ (threeNumbers y z w ++ v))) ∧
        q = ⟨(threeNumbers y z w).reverse ++ ((s ++ (h ++ b)).reverse ++ x), v,
          (refMatch y z w).caps⟩ := by
  have hspaces : (star space : Regex NumberGroup).Plain := trivial
  simp only [subHeadingRe, cat, mem_run_seq (a := lineStart), mem_lineStart]
  constructor
  · rintro ⟨_, ⟨hx, rfl⟩, hq⟩
    obtain ⟨s, _, hs, rfl, hq₁⟩ := (mem_run_seq_plain plain_indent).mp hq
    obtain ⟨h, _, hh, rfl, hq₂⟩ := (mem_run_seq_plain plain_hashes).mp hq₁
    obtain ⟨b, _, hb, rfl, hq₃⟩ := (mem_run_seq_plain hspaces).mp hq₂
    rw [run_refRe] at hq₃
    obtain ⟨_, hq₄, rfl⟩ := List.mem_map.mp hq₃
    obtain ⟨y, z, w, v, hy, hz, hw, rfl, hv, rfl⟩ := mem_refRe.1 hq₄
    obtain ⟨hshort, hindent⟩ := accepts_indent.1 hs
    obtain ⟨hleast, hmost, hhash⟩ := accepts_hashes.1 hh
    refine ⟨hx, s, h, b, y, z, w, v, ⟨hshort, hindent, hleast, hmost, hhash, accepts_star_cls.1 hb⟩,
      hy, hz, hw, hv, rfl, by simp [Pos.over, refMatch]⟩
  · rintro ⟨hx, s, h, b, y, z, w, v, hm, hy, hz, hw, hv, rfl, rfl⟩
    refine ⟨_, ⟨hx, rfl⟩, (mem_run_seq_plain plain_indent).mpr ⟨s, _,
      accepts_indent.2 ⟨hm.short, hm.indent⟩, rfl, (mem_run_seq_plain plain_hashes).mpr ⟨h, _,
        accepts_hashes.2 ⟨hm.least, hm.most, hm.hashes⟩, rfl, (mem_run_seq_plain hspaces).mpr
          ⟨b, _, accepts_star_cls.2 hm.gap, rfl, ?_⟩⟩⟩⟩
    rw [run_refRe]
    exact List.mem_map.mpr ⟨_, mem_refRe.2 ⟨y, z, w, v, hy, hz, hw, rfl, hv, rfl⟩,
      by simp [Pos.over, refMatch]⟩

theorem head?_threeNumbers (hx : Digits x) : ∀ c ∈ (threeNumbers x y z ++ v).head?, isDigit c := by
  obtain ⟨d, x, rfl⟩ := List.exists_cons_of_ne_nil hx.1
  intro c hc
  obtain rfl := Option.some.inj hc
  exact hx.2 d (by simp)

theorem first_subHeading (hx : atLineStart w) (hm : Mark s h b) (hx' : Digits x) (hy : Digits y)
    (hz : Digits z) (hv : ∀ c ∈ v.head?, isDigit c = false) :
    subHeadingRe.first w (s ++ (h ++ (b ++ (threeNumbers x y z ++ v)))) =
      some (⟨s ++ (h ++ (b ++ threeNumbers x y z)), (refMatch x y z).caps⟩, v) := by
  refine first_of_mem (mem_subHeadingRe.2 ⟨hx, s, h, b, x, y, z, v, hm, hx', hy, hz, hv, rfl, rfl⟩)
    ?_ (by simp)
  intro q hq
  obtain ⟨-, s', h', b', x', y', z', v', hm', hx'', hy', hz', hv', heq, rfl⟩ := mem_subHeadingRe.1 hq
  obtain ⟨rfl, rfl, rfl, hrest⟩ := hm.inj hm' (head?_threeNumbers hx') (head?_threeNumbers hx'') heq
  obtain ⟨rfl, rfl, rfl, rfl⟩ := threeNumbers_inj hx' hy hz hx'' hy' hz' hv hv' hrest
  rfl

theorem exists_subHeading (hfirst : subHeadingRe.first w t = some (m, rest)) :
    atLineStart w ∧ ∃ s h b x y z, Mark s h b ∧ Digits x ∧ Digits y ∧ Digits z ∧
      (∀ c ∈ rest.head?, isDigit c = false) ∧
        t = s ++ (h ++ (b ++ (threeNumbers x y z ++ rest))) ∧
          m = ⟨s ++ (h ++ (b ++ threeNumbers x y z)), (refMatch x y z).caps⟩ := by
  obtain ⟨q, hq, heq⟩ := Option.map_eq_some_iff.mp hfirst
  obtain ⟨hline, s, h, b, x, y, z, v, hm, hx, hy, hz, hv, rfl, rfl⟩ :=
    mem_subHeadingRe.1 (List.mem_of_head? hq)
  obtain ⟨rfl, rfl⟩ := Prod.mk.inj heq
  refine ⟨hline, s, h, b, x, y, z, hm, hx, hy, hz, hv, rfl, ?_⟩
  rw [since_skip (w := s ++ (h ++ (b ++ threeNumbers x y z))) (by simp)]

theorem Mark.front (hm : Mark s h b) (heq : c :: t = s ++ (h ++ (b ++ v))) : isNumeric c = false := by
  refine hm.not_numeric c ?_
  obtain ⟨d, h', rfl⟩ := List.exists_cons_of_ne_nil hm.ne_nil
  cases s with
  | nil => simp [(List.cons.inj heq).1]
  | cons e s => simp [(List.cons.inj heq).1]

theorem lineBound_subHeadingRe : LineBound subHeadingRe where
  line := first_midLine
  front := by
    intro x c t m rest hfirst
    obtain ⟨-, s, h, b, x, y, z, hm, -, -, -, -, heq, -⟩ := exists_subHeading hfirst
    exact hm.front heq

/-! The numbers of a text, each with the text before it. -/

def spotsFrom (x : Text) : List (Piece NumberGroup) → List (Text × Match NumberGroup)
  | [] => []
  | .plain c :: ps => spotsFrom (c :: x) ps
  | .hit m :: ps => (x, m) :: spotsFrom (m.text.reverse ++ x) ps

/-- What stands before a number ends in the mark of a heading. -/
def Headed (x : Text) : Prop :=
  ∃ s h b y, Mark s h b ∧ x = (s ++ (h ++ b)).reverse ++ y ∧ atLineStart y

theorem spotsFrom_map_plain (u x : Text) (ps : List (Piece NumberGroup)) :
    spotsFrom x (u.map .plain ++ ps) = spotsFrom (u.reverse ++ x) ps := by
  induction u generalizing x with
  | nil => rfl
  | cons c u ih => simp [spotsFrom, ih]

/-- No heading begins at the spaces and hashes that have been passed. -/
def Passed (x t : Text) : Prop :=
  ∀ w y, w ≠ [] → (∀ c ∈ w, isNumeric c = false) → x = w.reverse ++ y →
    subHeadingRe.first y (w ++ t) = none

theorem Passed.of_number (hz : Digits z) : Passed ((threeNumbers x y z).reverse ++ w) t := by
  intro u v hu hplain heq
  obtain ⟨z, c, rfl⟩ := List.eq_nil_or_concat' z |>.resolve_left hz.1
  obtain ⟨u, d, rfl⟩ := List.eq_nil_or_concat' u |>.resolve_left hu
  simp only [threeNumbers, List.reverse_append, List.reverse_cons, List.reverse_nil, List.nil_append,
    List.append_assoc, List.cons_append, List.cons.injEq] at heq
  have hd := hplain d (by simp)
  simp [← heq.1, isNumeric, hz.2 c (by simp)] at hd

theorem Passed.cons (hpass : Passed x (c :: t)) (hnone : subHeadingRe.first x (c :: t) = none) :
    Passed (c :: x) t := by
  intro w y hw hplain heq
  obtain ⟨w, d, rfl⟩ := List.eq_nil_or_concat' w |>.resolve_left hw
  simp only [List.reverse_append, List.reverse_cons, List.reverse_nil, List.nil_append,
    List.cons_append, List.cons.injEq] at heq
  obtain ⟨rfl, rfl⟩ := heq
  by_cases hnil : w = []
  · subst hnil
    simpa using hnone
  · simpa using hpass w y hnil (fun c hc => hplain c (by simp [hc])) rfl

theorem not_headed_of_passed (hpass : Passed w (threeNumbers x y z ++ v)) (hx : Digits x)
    (hy : Digits y) (hz : Digits z) (hv : ∀ c ∈ v.head?, isDigit c = false) : ¬ Headed w := by
  rintro ⟨s, h, b, w, hm, rfl, hline⟩
  have hnone := hpass _ w (by simp [hm.ne_nil]) hm.not_numeric rfl
  rw [List.append_assoc, List.append_assoc, first_subHeading hline hm hx hy hz hv] at hnone
  cases hnone

open Classical in
/-- The numbers that stand in a heading. -/
noncomputable def headedFrom (x : Text) (ps : List (Piece NumberGroup)) : List (Match NumberGroup) :=
  ((spotsFrom x ps).filter fun p => Headed p.1).map (·.2)

open Classical in
/-- The numbers that stand in no heading. -/
noncomputable def bodyFrom (x : Text) (ps : List (Piece NumberGroup)) : List (Match NumberGroup) :=
  ((spotsFrom x ps).filter fun p => ¬ Headed p.1).map (·.2)

theorem headedFrom_hit (h : Headed x) : headedFrom x (.hit m :: ps) =
    m :: headedFrom (m.text.reverse ++ x) ps := by
  rw [headedFrom, spotsFrom, List.filter_cons_of_pos (by simpa using h)]
  rfl

theorem bodyFrom_hit (h : Headed x) : bodyFrom x (.hit m :: ps) =
    bodyFrom (m.text.reverse ++ x) ps := by
  rw [bodyFrom, spotsFrom, List.filter_cons_of_neg (by simpa using h)]
  rfl

theorem headedFrom_skip (h : ¬ Headed x) : headedFrom x (.hit m :: ps) =
    headedFrom (m.text.reverse ++ x) ps := by
  rw [headedFrom, spotsFrom, List.filter_cons_of_neg (by simpa using h)]
  rfl

theorem bodyFrom_skip (h : ¬ Headed x) : bodyFrom x (.hit m :: ps) =
    m :: bodyFrom (m.text.reverse ++ x) ps := by
  rw [bodyFrom, spotsFrom, List.filter_cons_of_pos (by simpa using h)]
  rfl

theorem headedFrom_map_plain (u x : Text) (ps : List (Piece NumberGroup)) :
    headedFrom x (u.map .plain ++ ps) = headedFrom (u.reverse ++ x) ps := by
  rw [headedFrom, spotsFrom_map_plain]
  rfl

theorem bodyFrom_map_plain (u x : Text) (ps : List (Piece NumberGroup)) :
    bodyFrom x (u.map .plain ++ ps) = bodyFrom (u.reverse ++ x) ps := by
  rw [bodyFrom, spotsFrom_map_plain]
  rfl

/-- The pattern of the headings finds the numbers behind a mark; the other numbers are left when
the headings go. -/
theorem split_spotsFrom (hpass : Passed x t) :
    (hits (subHeadingRe.piecesFrom x t)).map Match.caps =
        (headedFrom x (refRe.pieces t)).map Match.caps ∧
      refRe.finditer (subHeadingRe.subFrom (fun _ => []) x t) = bodyFrom x (refRe.pieces t) := by
  induction hn : t.length using Nat.strongRecOn generalizing x t with
  | _ n ih =>
    cases t with
    | nil => exact ⟨rfl, rfl⟩
    | cons c t =>
      cases hhead : subHeadingRe.first x (c :: t) with
      | some found =>
        obtain ⟨m, rest⟩ := found
        obtain ⟨hline, s, h, b, y, z, w, hm, hy, hz, hw, hrest, heq, rfl⟩ := exists_subHeading hhead
        have hlen := congrArg List.length heq
        have hpos := List.length_pos_of_ne_nil hm.ne_nil
        simp only [List.length_cons, List.length_append] at hlen hn
        obtain ⟨hcaps, hrefs⟩ := ih rest.length (by omega)
          (Passed.of_number (x := y) (y := z) (w := (s ++ (h ++ b)).reverse ++ x) hw) rfl
        have hpieces : refRe.pieces (c :: t) = (s ++ (h ++ b)).map .plain ++
            .hit (refMatch y z w) :: refRe.pieces rest := by
          rw [heq, ← pieces_threeNumbers hy hz hw hrest, ← pieces_not_numeric hm.not_numeric]
          simp
        have hheaded : Headed ((s ++ (h ++ b)).reverse ++ x) := ⟨s, h, b, x, hm, rfl, hline⟩
        have hne : s ++ (h ++ (b ++ threeNumbers y z w)) ≠ [] := by simp [hm.ne_nil]
        have hbefore : (s ++ (h ++ (b ++ threeNumbers y z w))).reverse ++ x =
            (threeNumbers y z w).reverse ++ ((s ++ (h ++ b)).reverse ++ x) := by simp
        rw [hpieces, headedFrom_map_plain, bodyFrom_map_plain, headedFrom_hit hheaded,
          bodyFrom_hit hheaded, piecesFrom_hit hne hhead, subFrom_hit hne hhead]
        simp only [hbefore]
        exact ⟨congrArg ((refMatch y z w).caps :: ·) hcaps, hrefs⟩
      | none =>
        cases href : refRe.first [] (c :: t) with
        | some found =>
          obtain ⟨m, rest⟩ := found
          obtain ⟨y, z, w, hy, hz, hw, rfl, heq, hrest⟩ := exists_threeNumbers href
          have hlen := congrArg List.length heq
          have hpos := List.length_pos_of_ne_nil (threeNumbers_ne_nil (x := y) (y := z) (z := w))
          simp only [List.length_cons, List.length_append] at hlen hn
          obtain ⟨hcaps, hrefs⟩ := ih rest.length (by omega)
            (Passed.of_number (x := y) (y := z) (w := x) hw) rfl
          rw [heq] at hpass ⊢
          have hheaded := not_headed_of_passed hpass hy hz hw hrest
          rw [pieces_threeNumbers hy hz hw hrest, headedFrom_skip hheaded, bodyFrom_skip hheaded,
            LineBound.finditer_number lineBound_subHeadingRe hy hz hw hrest,
            LineBound.piecesFrom_numeric lineBound_subHeadingRe (numeric_threeNumbers hy hz hw),
            hits_append, hits_map_plain]
          exact ⟨hcaps, congrArg _ hrefs⟩
        | none =>
          obtain ⟨hcaps, hrefs⟩ := ih t.length (by simp at hn; omega) (hpass.cons hhead) rfl
          rw [pieces_plain blind_refRe href, piecesFrom_plain hhead,
            LineBound.finditer_plain lineBound_subHeadingRe hhead href]
          exact ⟨hcaps, hrefs⟩

theorem passed_nil (t : Text) : Passed [] t := by
  intro w y hw _ heq
  simp [hw] at heq

theorem digits_of_hit (hm : .hit m ∈ refRe.pieces t) :
    ∃ x y z, Digits x ∧ Digits y ∧ Digits z ∧ m = refMatch x y z := by
  have hmem : m ∈ hits (refRe.pieces t) := List.mem_filterMap.mpr ⟨.hit m, hm, rfl⟩
  obtain ⟨-, u, rest, hfirst⟩ := exists_first blind_refRe hmem
  obtain ⟨x, y, z, hx, hy, hz, rfl, -, -⟩ := exists_threeNumbers hfirst
  exact ⟨x, y, z, hx, hy, hz, rfl⟩

/-! The numbers of a text, sorted by whether they stand in a heading. -/

noncomputable def inHeadings (t : Text) : List (Match NumberGroup) := headedFrom [] (refRe.pieces t)

noncomputable def inBody (t : Text) : List (Match NumberGroup) := bodyFrom [] (refRe.pieces t)

theorem finditer_subHeadingRe (t : Text) :
    (subHeadingRe.finditer t).map Match.caps = (inHeadings t).map Match.caps :=
  (split_spotsFrom (passed_nil t)).1

theorem finditer_bodyWithoutHeadings (t : Text) :
    refRe.finditer (subHeadingRe.sub (fun _ => []) t) = inBody t :=
  (split_spotsFrom (passed_nil t)).2

end RownRg.Headings

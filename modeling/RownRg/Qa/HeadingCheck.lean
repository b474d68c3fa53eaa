import RownRg.Lib.Unread

/-! Numbers of the sub-headings of a section: a reprinted title goes, the numbers are set right. -/

open PyText Regex

namespace RownRg.Headings

inductive NumberGroup where
  | chapter | section | number
  deriving DecidableEq

inductive LineGroup where
  | text | mark
  deriving DecidableEq

/-- `#{n,m}` -/
def hashes {γ : Type} (n m : Nat) : Regex γ := between (chr '#') n m

/-- `_REF_RE` -/
def refRe : Regex NumberGroup :=
  cat [group .chapter (plus digit), chr '.', group .section (plus digit), chr '.',
    group .number (plus digit), notAhead digit]

/-- `_HEADING_RE` of the check -/
def subHeadingRe : Regex NumberGroup :=
  cat [lineStart, between space 0 3, hashes 2 4, star space, refRe]

/-- `_ANY_HEADING_RE` -/
def anyHeadingRe : Regex LineGroup :=
  cat [textStart, between space 0 3, hashes 1 4, star space, group .text (plus (cls (· != '\n'))),
    textEnd]

/-- `^[\d.\s]+` -/
def leadNumberRe : Regex LineGroup :=
  seq textStart (plus (cls fun c => isDigit c || c == '.' || isSpace c))

/-- The three numbers of a match. -/
def numberOf (m : Match NumberGroup) (g : NumberGroup) : Nat := natOf ((m.group g).getD [])

/-- `re.sub(r"\s+", "", text)` -/
def squeeze (t : Text) : Text := sub (plus space : Regex LineGroup) (fun _ => []) t

/-- The text of a heading is the title, apart from numbers in front and from spaces. -/
def isTitle (title text : Text) : Bool :=
  let norm := squeeze (strip (leadNumberRe.sub (fun _ => []) text))
  !norm.isEmpty && norm == squeeze title

/-- The lines before the first one with text, that line, and the lines behind it. -/
def leadLine : List Text → Option (List Text × Text × List Text)
  | [] => none
  | line :: lines =>
    if (strip line).isEmpty then (leadLine lines).map fun x => (line :: x.1, x.2)
    else some ([], line, lines)

/-- `_title_reprinted` -/
def titleReprinted (content title : Text) : Bool :=
  match leadLine (content.splitOn '\n') with
  | none => false
  | some (_, line, _) =>
    match anyHeadingRe.matchStart line with
    | none => false
    | some m => isTitle title ((m.group .text).getD [])

def stripTitleReprint (content title : Text) : Text :=
  if content.isEmpty || !titleReprinted content title then content
  else
    match leadLine (content.splitOn '\n') with
    | none => content
    | some (before, _, rest) => (joinLines (before ++ rest)).dropWhile (· == '\n')

/-- The numbers of the section's own sub-headings, each once, in the order of the text. -/
def ownOrder (content : Text) (chapter sec : Nat) : List Nat :=
  ((subHeadingRe.finditer content).filterMap fun m =>
    if numberOf m .chapter = chapter ∧ numberOf m .section = sec then some (numberOf m .number)
    else none).eraseDups

/-- `"X.Y.n"` -/
def label (chapter sec n : Nat) : Text := ofNat chapter ++ '.' :: (ofNat sec ++ '.' :: ofNat n)

/-- The number of the only sub-heading goes, its text stays. -/
def dropLoneNumber (chapter sec only : Nat) (content : Text) : Text :=
  sub (cat [lineStart, group .mark (seq (between space 0 3) (hashes 2 4)), star space,
      lit (label chapter sec only), notAhead digit, star space])
    (fun m => (m.group LineGroup.mark).getD [] ++ [' ']) content

/-- The new number of each old one. -/
def mappingOf (order : List Nat) : List (Nat × Nat) := order.zip (List.range' 1 order.length)

def renumberRef (mapping : List (Nat × Nat)) (chapter sec : Nat) (m : Match NumberGroup) : Text :=
  let a := numberOf m .chapter
  let b := numberOf m .section
  let c := numberOf m .number
  match mapping.lookup c with
  | some n => if a = chapter ∧ b = sec then replaceFirst (label a b c) (label a b n) m.text else m.text
  | none => m.text

def renumberRefs (mapping : List (Nat × Nat)) (chapter sec : Nat) (content : Text) : Text :=
  refRe.sub (renumberRef mapping chapter sec) content

/-- Sub-headings and references to them, numbered through. -/
def renumber (order : List Nat) (chapter sec : Nat) (content : Text) : Text :=
  let mapping := mappingOf order
  if mapping.all fun x => x.1 = x.2 then content
  else renumberRefs mapping chapter sec content

def fixHeadingNumbers (content : Text) (chapter sec : Nat) : Text :=
  if content.isEmpty then content
  else
    match ownOrder content chapter sec with
    | [] => content
    | [only] => dropLoneNumber chapter sec only content
    | order => renumber order chapter sec content

/-! A reference is three numbers with dots between them. -/

variable {t u v w x y z rest : Text} {m : Match NumberGroup} {mapping : List (Nat × Nat)}
  {chapter sec n : Nat} {c d : Char}

def Digits (t : Text) : Prop := t ≠ [] ∧ ∀ c ∈ t, isDigit c

theorem digits_ofNat (n : Nat) : Digits (ofNat n) :=
  ⟨ofNat_ne_nil, List.all_eq_true.mp all_isDigit_ofNat⟩

def threeNumbers (x y z : Text) : Text := x ++ '.' :: (y ++ '.' :: z)

theorem blind_refRe : refRe.Blind := by simp [refRe, cat, plus, digit, chr, Blind]

theorem unended_refRe : refRe.Unended := by simp [refRe, cat, plus, digit, chr, Unended]

theorem shuns_refRe (hd : isDigit c = false) (hc : c ≠ '.') : refRe.Shuns c := by
  simp [refRe, cat, plus, digit, chr, Shuns, hd, hc]

theorem shuns_refRe_space (c : Char) (h : isSpace c) : refRe.Shuns c := by
  refine shuns_refRe (not_isDigit_of_isSpace h) ?_
  rintro rfl
  exact absurd h (by decide)

theorem plain_digits : (plus digit : Regex NumberGroup).Plain := by
  simp [plus, digit, Plain]

theorem accepts_digits : (plus digit : Regex NumberGroup).Accepts w ↔ Digits w := accepts_plus_cls

/-- What `refRe` matches at the front of a text. -/
theorem mem_refRe {q : Pos NumberGroup} : q ∈ refRe.run ⟨[], t, []⟩ ↔
    ∃ x y z v, Digits x ∧ Digits y ∧ Digits z ∧ t = threeNumbers x y z ++ v ∧
      (∀ c ∈ v.head?, isDigit c = false) ∧
      q = ⟨(threeNumbers x y z).reverse, v, [(.number, z), (.section, y), (.chapter, x)]⟩ := by
  simp only [refRe, cat, mem_run_seq_group plain_digits, accepts_digits, mem_run_seq, mem_run_chr]
  constructor
  · rintro ⟨x, _, hx, rfl, _, ⟨_, rfl, rfl⟩, y, _, hy, rfl, _, ⟨_, rfl, rfl⟩, z, v, hz, rfl, hq⟩
    obtain ⟨hv, rfl⟩ := mem_run_notAhead_cls.1 hq
    exact ⟨x, y, z, v, hx, hy, hz, by simp [threeNumbers], hv, by simp [threeNumbers]⟩
  · rintro ⟨x, y, z, v, hx, hy, hz, rfl, hv, rfl⟩
    refine ⟨x, '.' :: (y ++ '.' :: (z ++ v)), hx, by simp [threeNumbers], _, ⟨_, rfl, rfl⟩,
      y, _, hy, rfl, _, ⟨_, rfl, rfl⟩, z, v, hz, rfl, ?_⟩
    exact mem_run_notAhead_cls.2 ⟨hv, by simp [threeNumbers]⟩

theorem first_refRe (h : refRe.first [] t = some (m, rest)) :
    ∃ x y z, Digits x ∧ Digits y ∧ Digits z ∧ m.text = threeNumbers x y z ∧
      numberOf m .chapter = natOf x ∧ numberOf m .section = natOf y ∧
        numberOf m .number = natOf z ∧ t = threeNumbers x y z ++ rest := by
  obtain ⟨q, hq, heq⟩ := Option.map_eq_some_iff.mp h
  obtain ⟨x, y, z, v, hx, hy, hz, rfl, -, rfl⟩ := mem_refRe.1 (List.mem_of_head? hq)
  obtain ⟨rfl, rfl⟩ := Prod.mk.inj heq
  exact ⟨x, y, z, hx, hy, hz, since_skip rfl, rfl, rfl, rfl, rfl⟩

/-- A match starts where three numbers stand. -/
theorem first_refRe_none (h : refRe.first [] t = none) (hx : Digits x) (hy : Digits y)
    (hd : isDigit d) : t ≠ x ++ '.' :: (y ++ '.' :: d :: v) := by
  rintro rfl
  have hcut := List.takeWhile_append_dropWhile (p := isDigit) (l := d :: v)
  have hz : Digits ((d :: v).takeWhile isDigit) :=
    ⟨by simp [hd], fun c hc => List.mem_takeWhile_imp hc⟩
  have hmem := mem_refRe.2 ⟨x, y, _, (d :: v).dropWhile isDigit, hx, hy, hz,
    by rw [threeNumbers, List.append_assoc, List.cons_append, List.append_assoc, List.cons_append,
      hcut], fun c hc => ?_, rfl⟩
  · rw [first, Option.map_eq_none_iff, List.head?_eq_none_iff] at h
    rw [h] at hmem
    cases hmem
  · exact head?_dropWhile (d :: v) c hc

/-! A reference is renumbered behind its second dot only. -/

theorem count_dot (h : ∀ c ∈ t, isDigit c) : t.count '.' = 0 := by
  rw [List.count_eq_zero]
  intro hdot
  exact absurd (h '.' hdot) (by decide)

/-- Three numbers stand in three numbers in one way. -/
theorem threeNumbers_inside {a b k : Text} (hx : Digits x) (hy : Digits y) (hz : Digits z)
    (ha : Digits a) (hb : Digits b) (hk : Digits k)
    (h : threeNumbers x y z = u ++ (threeNumbers a b k ++ v)) :
    x = u ++ a ∧ y = b ∧ z = k ++ v ∧ ∀ c ∈ v, isDigit c := by
  have hcount := congrArg (List.count '.') h
  simp only [threeNumbers, List.count_append, List.count_cons_self, count_dot hx.2, count_dot hy.2,
    count_dot hz.2, count_dot ha.2, count_dot hb.2, count_dot hk.2] at hcount
  have hfree : ∀ {w : Text}, (∀ c ∈ w, c ∈ threeNumbers x y z) → w.count '.' = 0 →
      ∀ c ∈ w, isDigit c := by
    intro w hw hzero c hc
    have hdot : c ≠ '.' := by
      rintro rfl
      exact List.count_eq_zero.mp hzero hc
    have hmem := hw c hc
    simp only [threeNumbers, List.mem_append, List.mem_cons] at hmem
    rcases hmem with hmem | rfl | hmem | rfl | hmem
    · exact hx.2 c hmem
    · exact absurd rfl hdot
    · exact hy.2 c hmem
    · exact absurd rfl hdot
    · exact hz.2 c hmem
  have hu : ∀ c ∈ u, isDigit c := hfree (fun c hc => by simp [h, hc]) (by omega)
  have hv : ∀ c ∈ v, isDigit c := hfree (fun c hc => by simp [h, hc]) (by omega)
  have hua : ∀ c ∈ u ++ a, isDigit c := fun c hc =>
    (List.mem_append.mp hc).elim (hu c) (ha.2 c)
  have hdot : ∀ {w : Text}, ∀ c ∈ ('.' :: w).head?, isDigit c = false := by
    intro w c hc
    obtain rfl := Option.some.inj hc
    decide
  have hassoc : u ++ (threeNumbers a b k ++ v) = (u ++ a) ++ '.' :: (b ++ '.' :: (k ++ v)) := by
    simp [threeNumbers]
  rw [hassoc, threeNumbers] at h
  obtain ⟨hxa, h⟩ := append_inj_of_all hx.2 hua hdot hdot h
  obtain ⟨hyb, h⟩ := append_inj_of_all hy.2 hb.2 hdot hdot (List.cons.inj h).2
  exact ⟨hxa, hyb, (List.cons.inj h).2, hv⟩

theorem label_eq : label chapter sec n = threeNumbers (ofNat chapter) (ofNat sec) (ofNat n) := rfl

theorem renumberRef_eq (mapping : List (Nat × Nat)) (chapter sec : Nat) (hx : Digits x)
    (hy : Digits y) (hz : Digits z) (hm : m.text = threeNumbers x y z) :
    ∃ z', Digits z' ∧ renumberRef mapping chapter sec m = threeNumbers x y z' := by
  unfold renumberRef
  dsimp only
  split
  · rename_i k _
    split
    · rw [replaceFirst]
      split
      · exact ⟨z, hz, hm⟩
      · rename_i u v hcut
        rw [hm] at hcut
        obtain ⟨rfl, rfl, -, hv⟩ := threeNumbers_inside hx hy hz (digits_ofNat _) (digits_ofNat _)
          (digits_ofNat _) (cutAt_eq hcut)
        refine ⟨ofNat k ++ v, ⟨by simp [ofNat_ne_nil], fun c hc => ?_⟩,
          by simp [label, threeNumbers]⟩
        exact (List.mem_append.mp hc).elim ((digits_ofNat k).2 c) (hv c)
    · exact ⟨z, hz, hm⟩
  · exact ⟨z, hz, hm⟩

theorem not_isSpace_threeNumbers (hx : Digits x) (hy : Digits y) (hz : Digits z) :
    threeNumbers x y z ≠ [] ∧ ∀ c ∈ threeNumbers x y z, isSpace c = false := by
  refine ⟨by simp [threeNumbers], fun c hc => ?_⟩
  by_contra hspace
  rw [Bool.not_eq_false] at hspace
  have hnot := not_isDigit_of_isSpace hspace
  simp only [threeNumbers, List.mem_append, List.mem_cons] at hc
  rcases hc with hc | rfl | hc | rfl | hc
  · simp [hx.2 c hc] at hnot
  · exact absurd hspace (by decide)
  · simp [hy.2 c hc] at hnot
  · exact absurd hspace (by decide)
  · simp [hz.2 c hc] at hnot

/-- What is put for a reference has no space in it. -/
theorem tight_renumberRef (t : Text) : ∀ m ∈ refRe.finditer t,
    renumberRef mapping chapter sec m ≠ [] ∧
      ∀ c ∈ renumberRef mapping chapter sec m, isSpace c = false := by
  intro m hm
  obtain ⟨-, u, rest, hfirst⟩ := exists_first blind_refRe hm
  obtain ⟨x, y, z, hx, hy, hz, htext, -⟩ := first_refRe hfirst
  obtain ⟨z', hz', heq⟩ := renumberRef_eq mapping chapter sec hx hy hz htext
  rw [heq]
  exact not_isSpace_threeNumbers hx hy hz'

/-- The start of a text up to its second number is not renumbered. -/
theorem prefix_of_number {a b : Text} (ha : Digits a) (hx : Digits x)
    (hw : ∀ c ∈ w.head?, isDigit c = false) :
    a ++ '.' :: b <+: x ++ w ↔ a = x ∧ '.' :: b <+: w := by
  constructor
  · rintro ⟨v, hv⟩
    have hdot : ∀ c ∈ ('.' :: (b ++ v)).head?, isDigit c = false := by
      intro c hc
      obtain rfl := Option.some.inj hc
      decide
    have hassoc : a ++ '.' :: (b ++ v) = x ++ w := by simpa using hv
    obtain ⟨rfl, rfl⟩ := append_inj_of_all ha.2 hx.2 hdot hw hassoc
    exact ⟨rfl, v, rfl⟩
  · rintro ⟨rfl, v, rfl⟩
    exact ⟨v, by simp⟩

theorem prefix_digits {b : Text} (hb : Digits b) (hw : ∀ c ∈ w.head?, isDigit c = false) :
    b <+: y ++ w ↔ b <+: y := by
  constructor
  · rintro ⟨v, hv⟩
    rcases List.append_eq_append_iff.mp hv with ⟨k, rfl, -⟩ | ⟨k, rfl, rfl⟩
    · exact ⟨k, rfl⟩
    · cases k with
      | nil => simp
      | cons c k =>
        have hc := hw c rfl
        simp [hb.2 c (by simp)] at hc
  · exact fun h => h.trans (List.prefix_append y w)

theorem prefix_section {a b : Text} (ha : Digits a) (hb : Digits b) (hx : Digits x)
    (hw : ∀ c ∈ w.head?, isDigit c = false) :
    a ++ '.' :: b <+: x ++ '.' :: (y ++ w) ↔ a = x ∧ b <+: y := by
  have hdot : ∀ c ∈ ('.' :: (y ++ w)).head?, isDigit c = false := by
    intro c hc
    obtain rfl := Option.some.inj hc
    decide
  rw [prefix_of_number ha hx hdot, List.cons_prefix_cons, prefix_digits hb hw]
  simp

/-- What stands before a character that is no digit is no reference. -/
theorem sub_nondigit {f : Match NumberGroup → Text} (hc : isDigit c = false) (t : Text) :
    refRe.sub f (c :: t) = c :: refRe.sub f t := by
  have hnone : refRe.first [] (c :: t) = none := by
    by_contra hne
    obtain ⟨⟨m, rest⟩, hm⟩ := Option.ne_none_iff_exists'.mp hne
    obtain ⟨x, y, z, hx, -, -, -, -, -, -, heq⟩ := first_refRe hm
    obtain ⟨d, x, rfl⟩ := List.exists_cons_of_ne_nil hx.1
    obtain ⟨rfl, -⟩ := List.cons.inj heq
    simp [hx.2 c (by simp)] at hc
  rw [sub, pieces_plain blind_refRe hnone]
  rfl

/-- Renumbering keeps the first character. -/
theorem head?_renumberRefs (t : Text) : (renumberRefs mapping chapter sec t).head? = t.head? := by
  cases hfirst : refRe.first [] t with
  | some r =>
    obtain ⟨m, rest⟩ := r
    obtain ⟨x, y, z, hx, hy, hz, htext, -, -, -, rfl⟩ := first_refRe hfirst
    obtain ⟨z', hz', heq⟩ := renumberRef_eq mapping chapter sec hx hy hz htext
    obtain ⟨c, x, rfl⟩ := List.exists_cons_of_ne_nil hx.1
    rw [renumberRefs, sub, pieces_hit blind_refRe (by simp [htext, threeNumbers]) hfirst,
      List.flatMap_cons, Piece.rewrite, heq]
    rfl
  | none =>
    cases t with
    | nil => rfl
    | cons c t =>
      rw [renumberRefs, sub, pieces_plain blind_refRe hfirst]
      rfl

/-- A number with which no reference starts passes through. -/
theorem sub_number {f : Match NumberGroup → Text} (hx : Digits x)
    (hw : ∀ c ∈ w.head?, isDigit c = false) (h : refRe.first [] (x ++ w) = none) :
    refRe.sub f (x ++ w) = x ++ refRe.sub f w := by
  have hrest : ∀ u v, x = u ++ v → refRe.sub f (v ++ w) = v ++ refRe.sub f w := by
    intro u v huv
    induction v generalizing u with
    | nil => rfl
    | cons c v ih =>
      have hnone : refRe.first [] (c :: (v ++ w)) = none := by
        by_contra hne
        obtain ⟨⟨m, rest⟩, hm⟩ := Option.ne_none_iff_exists'.mp hne
        obtain ⟨x', y, z, hx', hy, hz, -, -, -, -, heq⟩ := first_refRe hm
        have hdot : ∀ d ∈ ('.' :: (y ++ '.' :: z ++ rest)).head?, isDigit d = false := by
          intro d hd
          obtain rfl := Option.some.inj hd
          decide
        have hcv : ∀ d ∈ c :: v, isDigit d := fun d hd =>
          hx.2 d (huv ▸ List.mem_append_right u hd)
        obtain ⟨-, rfl⟩ := append_inj_of_all hcv hx'.2 hw hdot
          (by simpa [threeNumbers] using heq)
        obtain ⟨d, z, rfl⟩ := List.exists_cons_of_ne_nil hz.1
        exact first_refRe_none (v := z ++ rest) h hx hy (hz.2 d (by simp)) (by simp)
      rw [List.cons_append, sub, pieces_plain blind_refRe hnone, List.flatMap_cons]
      have htail := ih (u ++ [c]) (by simp [huv])
      rw [sub] at htail
      rw [htail]
      rfl
  exact hrest [] x rfl

/-- Renumbering keeps whether a text begins with the number of a section. -/
theorem prefix_renumbered {a b : Text} (ha : Digits a) (hb : Digits b) :
    a ++ '.' :: b <+: renumberRefs mapping chapter sec t ↔ a ++ '.' :: b <+: t := by
  have hdot : ∀ {w : Text}, ∀ c ∈ ('.' :: w).head?, isDigit c = false := by
    intro w c hc
    obtain rfl := Option.some.inj hc
    decide
  cases hfirst : refRe.first [] t with
  | some r =>
    obtain ⟨m, rest⟩ := r
    obtain ⟨x, y, z, hx, hy, hz, htext, -, -, -, rfl⟩ := first_refRe hfirst
    obtain ⟨z', hz', heq⟩ := renumberRef_eq mapping chapter sec hx hy hz htext
    have hsub : renumberRefs mapping chapter sec (threeNumbers x y z ++ rest) =
        threeNumbers x y z' ++ renumberRefs mapping chapter sec rest := by
      rw [renumberRefs, sub, pieces_hit blind_refRe (by simp [htext, threeNumbers]) hfirst, List.flatMap_cons,
        Piece.rewrite, heq]
      rfl
    have hsplit : ∀ z v : Text, a ++ '.' :: b <+: threeNumbers x y z ++ v ↔ a = x ∧ b <+: y := by
      intro z v
      rw [threeNumbers, List.append_assoc, List.cons_append, List.append_assoc, List.cons_append,
        prefix_section ha hb hx hdot]
    rw [hsub, hsplit, hsplit]
  | none =>
    have hcut := List.takeWhile_append_dropWhile (p := isDigit) (l := t)
    have hx : ∀ c ∈ t.takeWhile isDigit, isDigit c := fun c hc => List.mem_takeWhile_imp hc
    have hw : ∀ c ∈ (t.dropWhile isDigit).head?, isDigit c = false := head?_dropWhile t
    generalize t.takeWhile isDigit = x at hcut hx
    generalize t.dropWhile isDigit = w at hcut hw
    subst hcut
    by_cases hnil : x = []
    · subst hnil
      have hno : ∀ {s : Text}, (∀ c ∈ s.head?, isDigit c = false) → ¬ a ++ '.' :: b <+: s := by
        rintro s hs ⟨v, rfl⟩
        obtain ⟨d, a, rfl⟩ := List.exists_cons_of_ne_nil ha.1
        have hd := hs d rfl
        simp [ha.2 d (by simp)] at hd
      rw [List.nil_append]
      exact iff_of_false (hno (by rw [head?_renumberRefs]; exact hw)) (hno hw)
    · rw [renumberRefs, sub_number ⟨hnil, hx⟩ hw hfirst]
      cases w with
      | nil => rfl
      | cons c u =>
        have hc := hw c rfl
        rw [sub_nondigit hc]
        by_cases hdotc : c = '.'
        · subst hdotc
          have hcut := List.takeWhile_append_dropWhile (p := isDigit) (l := u)
          have hy : ∀ c ∈ u.takeWhile isDigit, isDigit c := fun c hc => List.mem_takeWhile_imp hc
          have hv : ∀ c ∈ (u.dropWhile isDigit).head?, isDigit c = false := head?_dropWhile u
          generalize u.takeWhile isDigit = y at hcut hy
          generalize u.dropWhile isDigit = v at hcut hv
          subst hcut
          have hsub : refRe.sub (renumberRef mapping chapter sec) (y ++ v) =
              y ++ refRe.sub (renumberRef mapping chapter sec) v := by
            by_cases hnil' : y = []
            · rw [hnil']
              rfl
            · refine sub_number ⟨hnil', hy⟩ hv ?_
              by_contra hne
              obtain ⟨⟨m, rest⟩, hm⟩ := Option.ne_none_iff_exists'.mp hne
              obtain ⟨x', y', z, hx', hy', hz, -, -, -, -, heq⟩ := first_refRe hm
              obtain ⟨d, y', rfl⟩ := List.exists_cons_of_ne_nil hy'.1
              obtain ⟨-, rfl⟩ := append_inj_of_all hy hx'.2 hv hdot
                (by simpa [threeNumbers] using heq)
              exact first_refRe_none (v := y' ++ '.' :: (z ++ rest)) hfirst ⟨hnil, hx⟩
                ⟨hnil', hy⟩ (hy'.2 d (by simp)) (by simp)
          rw [hsub, prefix_section ha hb ⟨hnil, hx⟩ hv, prefix_section ha hb ⟨hnil, hx⟩]
          rw [← renumberRefs, head?_renumberRefs]
          exact hv
        · rw [prefix_of_number ha ⟨hnil, hx⟩ (by simpa using hc),
            prefix_of_number ha ⟨hnil, hx⟩ (by simpa using hc)]
          simp [Ne.symm hdotc]

/-- A stretch without digits and dots is as long after renumbering. -/
theorem takeWhile_renumberRefs {p : Char → Bool} (hp : ∀ c, p c → isDigit c = false ∧ c ≠ '.')
    (t : Text) : (renumberRefs mapping chapter sec t).takeWhile p = t.takeWhile p ∧
      (renumberRefs mapping chapter sec t).dropWhile p =
        renumberRefs mapping chapter sec (t.dropWhile p) := by
  have hcut := List.takeWhile_append_dropWhile (p := p) (l := t)
  have hw : ∀ c ∈ t.takeWhile p, p c := fun c hc => List.mem_takeWhile_imp hc
  have hv : ∀ c ∈ (t.dropWhile p).head?, p c = false := head?_dropWhile t
  have hsub : renumberRefs mapping chapter sec t =
      t.takeWhile p ++ renumberRefs mapping chapter sec (t.dropWhile p) := by
    nth_rewrite 1 [← hcut]
    exact sub_append_left (fun c hc => shuns_refRe (hp c (hw c hc)).1 (hp c (hw c hc)).2)
      unended_refRe blind_refRe _
  rw [hsub]
  exact takeWhile_append_stop hw (by rw [head?_renumberRefs]; exact hv)

theorem strip_renumberRefs (t : Text) :
    strip (renumberRefs mapping chapter sec t) = renumberRefs mapping chapter sec (strip t) :=
  strip_sub shuns_refRe_space unended_refRe blind_refRe tight_renumberRef t

theorem splitLines_renumberRefs (t : Text) : splitLines (renumberRefs mapping chapter sec t) =
    (splitLines t).map (renumberRefs mapping chapter sec) :=
  splitLines_sub shuns_refRe_space unended_refRe blind_refRe tight_renumberRef t

theorem renumberRefs_eq_nil : renumberRefs mapping chapter sec t = [] ↔ t = [] :=
  sub_eq_nil tight_renumberRef

theorem mem_renumberRefs (h : c ∈ renumberRefs mapping chapter sec t) : c ∈ t ∨ isSpace c = false :=
  mem_sub tight_renumberRef h

theorem leadLine_eq {lines before rest : List Text} {line : Text}
    (h : leadLine lines = some (before, line, rest)) : lines = before ++ line :: rest := by
  induction lines generalizing before with
  | nil => cases h
  | cons l lines ih =>
    rw [leadLine] at h
    split at h
    · obtain ⟨⟨before', line', rest'⟩, hx, heq⟩ := Option.map_eq_some_iff.mp h
      obtain ⟨rfl, rfl, rfl⟩ := by simpa using heq
      rw [ih hx]
      rfl
    · obtain ⟨rfl, rfl, rfl⟩ := by simpa using h
      rfl

theorem leadLine_map {f : Text → Text} (hf : ∀ l, strip (f l) = [] ↔ strip l = []) (lines : List Text) :
    leadLine (lines.map f) =
      (leadLine lines).map fun x => (x.1.map f, f x.2.1, x.2.2.map f) := by
  induction lines with
  | nil => rfl
  | cons l lines ih =>
    simp only [List.map_cons, leadLine, List.isEmpty_iff, hf, ih]
    split
    · rw [Option.map_map, Option.map_map]
      rfl
    · rfl

end RownRg.Headings

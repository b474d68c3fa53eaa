import RownRg.Lib.Lines

/-! The spaces around source markers: none in front, one behind the label. -/

open PyText Regex

namespace RownRg.MarkerSpacing

/-- `_MARKER_INNER_RE` -/
def markerInnerRe : Regex Unit :=
  cat [chr '(', star space, group () (alt (lit "출처".toList) (lit "근거".toList)), star space]

/-- `_MARKER_SPACE_RE` -/
def markerSpaceRe : Regex Unit := seq (plus space) markerInnerRe

/-- `"(\g<1> "` -/
def spaced (label : Text) : Text := '(' :: (label ++ [' '])

def marked (m : Match Unit) : Text := spaced ((m.group ()).getD [])

def normalizeMarkerSpacing (content : Text) : Text :=
  if content.isEmpty then content
  else markerInnerRe.sub marked (markerSpaceRe.sub marked content)

/-! An opening is a bracket and a label, with spaces anywhere around them. -/

variable {t u v w p x rest : Text} {a b d : Text} {r : Regex Unit} {L : Text → Prop} {c : Char}
  {m : Match Unit}

def Spaces (t : Text) : Prop := ∀ c ∈ t, isSpace c

def Label (w : Text) : Prop := w = "출처".toList ∨ w = "근거".toList

/-- The text opens a marker with a label, and goes on with the rest. -/
def Opens (t w rest : Text) : Prop :=
  Label w ∧ (∀ c ∈ rest.head?, isSpace c = false) ∧
    ∃ b d, Spaces b ∧ Spaces d ∧ t = '(' :: (b ++ (w ++ (d ++ rest)))

theorem Label.ne_nil (h : Label w) : w ≠ [] := by
  rcases h with rfl | rfl <;> decide

theorem Label.solid (h : Label w) : ∀ c ∈ w, isSpace c = false ∧ c ≠ '(' := by
  rcases h with rfl | rfl <;> decide

theorem Spaces.notMem (h : Spaces a) : '(' ∉ a := fun hmem => absurd (h '(' hmem) (by decide)

theorem Label.notMem (h : Label w) : '(' ∉ w := fun hmem => (h.solid '(' hmem).2 rfl

/-- Where a label stands behind a bracket a marker opens. -/
theorem opens_of_label (hw : Label w) (hb : Spaces b) (v : Text) :
    ∃ rest, Opens ('(' :: (b ++ (w ++ v))) w rest := by
  refine ⟨v.dropWhile isSpace, hw, head?_dropWhile v, b, v.takeWhile isSpace, hb,
    fun c hc => List.mem_takeWhile_imp hc, ?_⟩
  rw [List.takeWhile_append_dropWhile]

theorem spaced_opens (hw : Label w) (h : ∀ c ∈ rest.head?, isSpace c = false) :
    Opens (spaced w ++ rest) w rest :=
  ⟨hw, h, [], [' '], by simp [Spaces], by simp [Spaces, isSpace, spaceCodes], by simp [spaced]⟩

/-! What the patterns match. -/

theorem plain_labels : (alt (lit "출처".toList) (lit "근거".toList) : Regex Unit).Plain :=
  ⟨plain_lit _, plain_lit _⟩

theorem plain_spaces : (star space : Regex Unit).Plain := trivial

theorem accepts_labels :
    (alt (lit "출처".toList) (lit "근거".toList) : Regex Unit).Accepts w ↔ Label w := by
  show (lit "출처".toList : Regex Unit).Accepts w ∨ (lit "근거".toList : Regex Unit).Accepts w ↔ _
  rw [accepts_lit, accepts_lit, Label]

theorem opens_of_mem {q : Pos Unit} (h : q ∈ markerInnerRe.run ⟨x, t, []⟩) :
    ∃ w rest, Opens t w rest := by
  simp only [markerInnerRe, cat] at h
  rw [mem_run_seq] at h
  obtain ⟨_, hchr, h⟩ := h
  obtain ⟨t, rfl, rfl⟩ := mem_run_chr.1 hchr
  obtain ⟨b, v, hb, rfl, h⟩ := (mem_run_seq_plain plain_spaces).mp h
  obtain ⟨w, v, hw, rfl, -⟩ := (mem_run_seq_group plain_labels).mp h
  obtain ⟨rest, hopens⟩ := opens_of_label (accepts_labels.1 hw) (accepts_star_cls.1 hb) v
  exact ⟨w, rest, hopens⟩

theorem run_labels (hw : Label w) (x v : Text) :
    ∃ l, (group () (alt (lit "출처".toList) (lit "근거".toList))).run ⟨x, w ++ v, []⟩ =
      (⟨w.reverse ++ x, v, [((), w)]⟩ : Pos Unit) :: l := by
  have hcapture : Pos.capture () ⟨x, w ++ v, []⟩ (⟨w.reverse ++ x, v, []⟩ : Pos Unit) =
      ⟨w.reverse ++ x, v, [((), w)]⟩ := by
    simp [Pos.capture, since_skip (s := ⟨x, w ++ v, []⟩) (t := (⟨w.reverse ++ x, v, []⟩ : Pos Unit))
      rfl]
  have hrun : ∃ l, (alt (lit "출처".toList) (lit "근거".toList)).run ⟨x, w ++ v, []⟩ =
      (⟨w.reverse ++ x, v, []⟩ : Pos Unit) :: l := by
    rcases hw with rfl | rfl
    · refine ⟨(lit "근거".toList).run ⟨x, "출처".toList ++ v, []⟩, ?_⟩
      rw [run, run_lit (v := v) rfl, skip_eq rfl]
      rfl
    · refine ⟨[], ?_⟩
      have hnone : (lit "출처".toList).run (⟨x, "근거".toList ++ v, []⟩ : Pos Unit) = [] := by
        rw [List.eq_nil_iff_forall_not_mem]
        intro q hq
        obtain ⟨_, _, hacc, heq, -⟩ := (mem_run_plain_iff (plain_lit _)).mp hq
        rw [accepts_lit.1 hacc] at heq
        exact absurd (List.cons.inj heq).1 (by decide)
      rw [run, hnone, run_lit (v := v) rfl, skip_eq rfl]
      rfl
  obtain ⟨l, hl⟩ := hrun
  obtain ⟨l', hl'⟩ := run_group (g := ()) hl
  exact ⟨l', by rw [hl', hcapture]⟩

theorem run_opens (h : Opens t w rest) (x : Text) :
    ∃ y, (markerInnerRe.run ⟨x, t, []⟩).head? = some ⟨y, rest, [((), w)]⟩ := by
  obtain ⟨hw, hrest, b, d, hb, hd, rfl⟩ := h
  have hchr : (chr '(').run (⟨x, '(' :: (b ++ (w ++ (d ++ rest))), []⟩ : Pos Unit) =
      [⟨'(' :: x, b ++ (w ++ (d ++ rest)), []⟩] := by
    simp [chr, run]
  have hwhead : ∀ c ∈ (w ++ (d ++ rest)).head?, isSpace c = false := by
    obtain ⟨c, w', rfl⟩ := List.exists_cons_of_ne_nil hw.ne_nil
    intro e he
    obtain rfl := Option.some.inj he
    exact (hw.solid c (by simp)).1
  obtain ⟨l₁, h₁⟩ := run_star_stop (γ := Unit) (x := '(' :: x) (k := []) hb hwhead
  obtain ⟨l₂, h₂⟩ := run_labels hw (b.reverse ++ '(' :: x) (d ++ rest)
  obtain ⟨l₃, h₃⟩ := run_star_stop (γ := Unit) (x := w.reverse ++ (b.reverse ++ '(' :: x))
    (k := [((), w)]) hd hrest
  have hend : ((star space).run (⟨w.reverse ++ (b.reverse ++ '(' :: x), d ++ rest,
      [((), w)]⟩ : Pos Unit)).head? =
      some ⟨d.reverse ++ (w.reverse ++ (b.reverse ++ '(' :: x)), rest, [((), w)]⟩ :=
    congrArg List.head? h₃
  exact ⟨_, head?_run_seq hchr (head?_run_seq h₁ (head?_run_seq h₂ hend))⟩

/-- A pattern that finds the openings behind certain spaces. -/
structure Finds (r : Regex Unit) (L : Text → Prop) : Prop where
  blind : r.Blind
  hit : ∀ a u w rest, L a → Spaces a → Opens u w rest → ∃ m : Match Unit,
    r.first [] (a ++ u) = some (m, rest) ∧ m.group () = some w
  miss : ∀ t, (∀ a u w rest, t = a ++ u → L a → Spaces a → ¬ Opens u w rest) →
    r.first [] t = none

theorem finds_seq {lead : Regex Unit} (hplain : lead.Plain) (hblind : lead.Blind)
    (hrun : ∀ a u w rest, L a → Spaces a → Opens u w rest →
      ∃ l, lead.run ⟨[], a ++ u, []⟩ = ⟨a.reverse, u, []⟩ :: l)
    (hacc : ∀ a, lead.Accepts a → L a ∧ Spaces a) : Finds (seq lead markerInnerRe) L := by
  have hinner : markerInnerRe.Blind := by
    simp [markerInnerRe, cat, chr, lit, Blind, space]
  refine ⟨⟨hblind, hinner⟩, fun a u w rest ha hspaces hopens => ?_, fun t hno => ?_⟩
  · obtain ⟨l, hl⟩ := hrun a u w rest ha hspaces hopens
    obtain ⟨y, hy⟩ := run_opens hopens a.reverse
    have hhead := head?_run_seq hl hy
    refine ⟨_, by rw [first, hhead]; rfl, rfl⟩
  · rw [first, Option.map_eq_none_iff, List.head?_eq_none_iff, List.eq_nil_iff_forall_not_mem]
    intro q hq
    obtain ⟨a, u, ha, rfl, hinner⟩ := (mem_run_seq_plain hplain).mp hq
    obtain ⟨w, rest, hopens⟩ := opens_of_mem hinner
    obtain ⟨hL, hspaces⟩ := hacc a ha
    exact hno a u w rest rfl hL hspaces hopens

theorem head?_opens (h : Opens u w rest) : ∀ c ∈ u.head?, isSpace c = false := by
  obtain ⟨-, -, b, d, -, -, rfl⟩ := h
  intro c hc
  obtain rfl := Option.some.inj hc
  decide

theorem finds_space : Finds markerSpaceRe (· ≠ []) := by
  refine finds_seq (by simp [plus, space, Plain]) (by simp [plus, space, Blind]) ?_ ?_
  · intro a u w rest ha hspaces hopens
    obtain ⟨c, a, rfl⟩ := List.exists_cons_of_ne_nil ha
    obtain ⟨hc, ha⟩ := List.forall_mem_cons.mp hspaces
    obtain ⟨l, hl⟩ := run_star_stop (γ := Unit) (x := [c]) (k := []) ha (head?_opens hopens)
    refine ⟨l, ?_⟩
    rw [plus, run]
    simpa [space, run, hc] using hl
  · intro a ha
    exact accepts_plus_cls.1 ha

/-- An opening with the spaces around it. -/
def marginRe : Regex Unit := seq (star space) markerInnerRe

theorem finds_margin : Finds marginRe fun _ => True := by
  refine finds_seq plain_spaces (by simp [space, Blind]) ?_ fun a ha =>
    ⟨trivial, accepts_star_cls.1 ha⟩
  intro a u w rest _ hspaces hopens
  obtain ⟨l, hl⟩ := run_star_stop (γ := Unit) (x := []) (k := []) hspaces (head?_opens hopens)
  exact ⟨l, by simpa [space] using hl⟩

theorem finds_inner : Finds markerInnerRe (· = []) := by
  refine ⟨by simp [markerInnerRe, cat, chr, lit, Blind, space], ?_, fun t hno => ?_⟩
  · rintro _ u w rest rfl _ hopens
    obtain ⟨y, hy⟩ := run_opens hopens []
    exact ⟨_, by rw [first, List.nil_append, hy]; rfl, rfl⟩
  · rw [first, Option.map_eq_none_iff, List.head?_eq_none_iff, List.eq_nil_iff_forall_not_mem]
    intro q hq
    obtain ⟨w, rest, hopens⟩ := opens_of_mem hq
    exact hno [] t w rest rfl rfl (by simp [Spaces]) hopens

/-! How a text is rewritten from its front. -/

theorem Finds.sub_hit (h : Finds r L) (ha : L a) (hspaces : Spaces a) (hopens : Opens u w rest) :
    r.sub marked (a ++ u) = spaced w ++ r.sub marked rest := by
  obtain ⟨m, hm, hg⟩ := h.hit a u w rest ha hspaces hopens
  have hne : m.text ≠ [] := by
    intro hnil
    have hlen := congrArg List.length (first_reads hm)
    obtain ⟨-, -, b, d, -, -, rfl⟩ := hopens
    simp [hnil] at hlen
    omega
  rw [sub, pieces_hit h.blind hne hm, List.flatMap_cons, Piece.rewrite, marked, hg]
  rfl

theorem Finds.sub_miss (h : Finds r L)
    (hno : ∀ a u w rest, c :: t = a ++ u → L a → Spaces a → ¬ Opens u w rest) :
    r.sub marked (c :: t) = c :: r.sub marked t := by
  rw [sub, pieces_plain h.blind (h.miss _ hno)]
  rfl

/-- Whether a match starts at the front of a text. -/
theorem Finds.cases (h : Finds r L) (t : Text) :
    (∃ a u w rest, t = a ++ u ∧ L a ∧ Spaces a ∧ Opens u w rest ∧
      r.sub marked t = spaced w ++ r.sub marked rest) ∨
    (∀ a u w rest, t = a ++ u → L a → Spaces a → ¬ Opens u w rest) ∧
      (t = [] ∨ ∃ c t', t = c :: t' ∧ r.sub marked t = c :: r.sub marked t') := by
  by_cases hopens : ∃ a u w rest, t = a ++ u ∧ L a ∧ Spaces a ∧ Opens u w rest
  · obtain ⟨a, u, w, rest, rfl, hL, ha, hu⟩ := hopens
    exact .inl ⟨a, u, w, rest, rfl, hL, ha, hu, h.sub_hit hL ha hu⟩
  · have hno : ∀ a u w rest, t = a ++ u → L a → Spaces a → ¬ Opens u w rest :=
      fun a u w rest ht hL ha hu => hopens ⟨a, u, w, rest, ht, hL, ha, hu⟩
    refine .inr ⟨hno, ?_⟩
    cases t with
    | nil => exact .inl rfl
    | cons c t => exact .inr ⟨c, t, rfl, h.sub_miss hno⟩

theorem Finds.head?_sub (h : Finds r L) (ht : ∀ c ∈ t.head?, isSpace c = false) :
    ∀ c ∈ (r.sub marked t).head?, isSpace c = false := by
  intro c hc
  rcases h.cases t with ⟨a, u, w, rest, -, -, -, -, heq⟩ | ⟨-, rfl | ⟨d, t', rfl, heq⟩⟩
  · rw [heq] at hc
    obtain rfl := Option.some.inj hc
    decide
  · cases hc
  · rw [heq] at hc
    obtain rfl := Option.some.inj hc
    exact ht d rfl

/-- What has no bracket in it was there before. -/
theorem Finds.of_prefix (h : Finds r L) (hp : '(' ∉ p) {y : Text}
    (heq : r.sub marked t = p ++ y) : ∃ y', t = p ++ y' ∧ r.sub marked y' = y := by
  induction p generalizing t with
  | nil => exact ⟨t, rfl, heq⟩
  | cons c p ih =>
    have hc : '(' ≠ c := by
      rintro rfl
      exact hp (by simp)
    have htail : '(' ∉ p := fun hmem => hp (List.mem_cons_of_mem c hmem)
    rcases h.cases t with ⟨a, u, w, rest, -, -, -, -, hsub⟩ | ⟨-, rfl | ⟨d, t', rfl, hsub⟩⟩
    · rw [hsub] at heq
      exact absurd (List.cons.inj heq).1 hc
    · cases heq
    · rw [hsub] at heq
      obtain ⟨rfl, hrest⟩ := List.cons.inj heq
      obtain ⟨y', rfl, hy'⟩ := ih htail hrest
      exact ⟨y', rfl, hy'⟩

/-- Rewriting makes no opening. -/
theorem Finds.opens_of_sub (h : Finds r L) (hopens : Opens ('(' :: r.sub marked t) w rest) :
    ∃ rest', Opens ('(' :: t) w rest' := by
  obtain ⟨hw, -, b, d, hb, -, heq⟩ := hopens
  have hp : '(' ∉ b ++ w := by
    simp only [List.mem_append, not_or]
    exact ⟨hb.notMem, hw.notMem⟩
  obtain ⟨y, rfl, -⟩ := h.of_prefix hp (y := d ++ rest) (by simpa using heq)
  rw [List.append_assoc]
  exact opens_of_label hw hb y

theorem opens_head (h : Opens (c :: t) w rest) : c = '(' := by
  obtain ⟨-, -, b, d, -, -, heq⟩ := h
  exact (List.cons.inj heq).1

/-! Both passes together put right every opening with the spaces around it. -/

theorem not_spaces_of_stretch {y : Text} (hne : p ≠ []) (hp : '(' ∉ p)
    (hlast : ∀ c ∈ p.getLast?, isSpace c = false) (heq : p ++ v = a ++ '(' :: y) : ¬ Spaces a := by
  intro ha
  have hpre : p <+: a := by
    rcases List.append_eq_append_iff.mp heq with ⟨k, rfl, -⟩ | ⟨k, rfl, hk⟩
    · exact ⟨k, rfl⟩
    · cases k with
      | nil => simp
      | cons e k =>
        obtain ⟨rfl, -⟩ := List.cons.inj hk
        exact absurd (by simp) hp
  have hmem := List.getLast_mem hne
  have hspace := ha _ (hpre.subset hmem)
  rw [hlast _ (List.getLast?_eq_some_getLast hne)] at hspace
  cases hspace

/-- A stretch that ends with a letter and has no bracket passes the first pattern. -/
theorem sub_stretch (hp : '(' ∉ p) (hlast : ∀ c ∈ p.getLast?, isSpace c = false) (v : Text) :
    markerSpaceRe.sub marked (p ++ v) = p ++ markerSpaceRe.sub marked v := by
  induction p with
  | nil => rfl
  | cons c p ih =>
    rw [List.cons_append, Finds.sub_miss finds_space fun a u w rest heq _ ha hu => ?_]
    · cases p with
      | nil => rfl
      | cons e p =>
        rw [ih (fun h => hp (List.mem_cons_of_mem c h)) (by simpa using hlast)]
        rfl
    · obtain ⟨-, -, b, d, -, -, rfl⟩ := hu
      exact not_spaces_of_stretch (by simp) hp hlast heq ha

/-- Spaces pass it where no marker opens behind them. -/
theorem sub_spaces (hd : Spaces d) (hhead : ∀ c ∈ rest.head?, isSpace c = false)
    (hno : ∀ w rest', ¬ Opens rest w rest') :
    markerSpaceRe.sub marked (d ++ rest) = d ++ markerSpaceRe.sub marked rest := by
  induction d with
  | nil => rfl
  | cons c d ih =>
    rw [List.cons_append, Finds.sub_miss finds_space fun a u w rest' heq _ ha hu => ?_]
    · rw [ih fun e he => hd e (List.mem_cons_of_mem c he)]
      rfl
    · have hsame := append_inj_of_all hd ha hhead (head?_opens hu) heq
      exact hno w rest' (hsame.2 ▸ hu)

theorem sub_bracket (hw : Label w) (hb : Spaces b) (v : Text) :
    markerSpaceRe.sub marked ('(' :: (b ++ (w ++ v))) =
      '(' :: (b ++ (w ++ markerSpaceRe.sub marked v)) := by
  have hp : '(' ∉ '(' :: (b ++ w) → False := fun h => h (by simp)
  have hpass : markerSpaceRe.sub marked ((b ++ w) ++ v) =
      (b ++ w) ++ markerSpaceRe.sub marked v := by
    refine sub_stretch (by simp [hb.notMem, hw.notMem]) (fun c hc => ?_) v
    rw [List.getLast?_append_of_ne_nil _ hw.ne_nil] at hc
    exact (hw.solid c (List.mem_of_getLast? hc)).1
  rw [Finds.sub_miss finds_space fun a u w rest heq ha hspaces hu => ?_]
  · simpa using hpass
  · obtain ⟨c, a, rfl⟩ := List.exists_cons_of_ne_nil ha
    obtain ⟨rfl, -⟩ := List.cons.inj heq
    exact absurd (hspaces '(' (by simp)) (by decide)

theorem inner_hit (hw : Label w) (hb : Spaces b) (hd : Spaces d)
    (hhead : ∀ c ∈ rest.head?, isSpace c = false) :
    markerInnerRe.sub marked ('(' :: (b ++ (w ++ (d ++ rest)))) =
      spaced w ++ markerInnerRe.sub marked rest :=
  Finds.sub_hit (a := []) finds_inner rfl (by simp [Spaces]) ⟨hw, hhead, b, d, hb, hd, rfl⟩

theorem inner_spaced (hw : Label w) (hhead : ∀ c ∈ rest.head?, isSpace c = false) :
    markerInnerRe.sub marked (spaced w ++ rest) = spaced w ++ markerInnerRe.sub marked rest :=
  Finds.sub_hit (a := []) finds_inner rfl (by simp [Spaces]) (spaced_opens hw hhead)

theorem Opens.length_lt (h : Opens u w rest) : rest.length < u.length := by
  obtain ⟨-, -, b, d, -, -, rfl⟩ := h
  simp
  omega

theorem sub_sub (t : Text) : markerInnerRe.sub marked (markerSpaceRe.sub marked t) =
    marginRe.sub marked t := by
  induction hn : t.length using Nat.strongRecOn generalizing t with
  | _ n ih =>
    subst hn
    rcases Finds.cases finds_margin t with ⟨a, u, w, rest, rfl, -, ha, hu, heq⟩ | ⟨hno, hcase⟩
    · have hlt := hu.length_lt
      have hrest := ih rest.length (by simp; omega) rest rfl
      have hhead := Finds.head?_sub finds_space hu.2.1
      by_cases hnil : a = []
      · subst hnil
        obtain ⟨hw, hrhead, b, d, hb, hd, rfl⟩ := hu
        rw [heq, List.nil_append, sub_bracket hw hb]
        by_cases hnext : d ≠ [] ∧ ∃ w' rest', Opens rest w' rest'
        · -- the spaces behind this label are taken for spaces in front of the next one
          obtain ⟨hd', w', rest', hu'⟩ := hnext
          have hlt' := hu'.length_lt
          have hrest' := ih rest'.length (by simp at hlt ⊢; omega) rest' rfl
          have hhead' := Finds.head?_sub finds_space hu'.2.1
          have hmargin : marginRe.sub marked rest = spaced w' ++ marginRe.sub marked rest' :=
            Finds.sub_hit (a := []) finds_margin trivial (by simp [Spaces]) hu'
          have hbracket : ∀ c ∈ (spaced w' ++ markerSpaceRe.sub marked rest').head?,
              isSpace c = false := by
            intro c hc
            obtain rfl := Option.some.inj hc
            decide
          rw [Finds.sub_hit finds_space hd' hd hu', ← List.nil_append (spaced w' ++ _),
            inner_hit hw hb (by simp [Spaces]) hbracket, inner_spaced hu'.1 hhead', hrest', ← hmargin]
        · have hpass : markerSpaceRe.sub marked (d ++ rest) =
              d ++ markerSpaceRe.sub marked rest := by
            by_cases hd' : d = []
            · rw [hd']
              rfl
            · exact sub_spaces hd hrhead fun w' rest' hu' => hnext ⟨hd', w', rest', hu'⟩
          rw [hpass, inner_hit hw hb hd hhead, hrest]
      · rw [heq, Finds.sub_hit finds_space hnil ha hu, inner_spaced hu.1 hhead, hrest]
    · rcases hcase with rfl | ⟨c, t, rfl, heq⟩
      · rfl
      · rw [heq, Finds.sub_miss finds_space fun a u w rest h _ => hno a u w rest h trivial,
          Finds.sub_miss finds_inner ?_, ih t.length (by simp) t rfl]
        rintro a u w rest heq' rfl _ hu
        rw [List.nil_append] at heq'
        rw [← heq'] at hu
        obtain rfl := opens_head hu
        obtain ⟨rest', hu'⟩ := Finds.opens_of_sub finds_space hu
        exact hno [] _ w rest' rfl trivial (by simp [Spaces]) hu'

theorem normalize_eq (t : Text) : normalizeMarkerSpacing t = marginRe.sub marked t := by
  unfold normalizeMarkerSpacing
  split
  · rename_i h
    rw [List.isEmpty_iff.mp h]
    rfl
  · exact sub_sub t

theorem margin_idem (t : Text) :
    marginRe.sub marked (marginRe.sub marked t) = marginRe.sub marked t := by
  induction hn : t.length using Nat.strongRecOn generalizing t with
  | _ n ih =>
    subst hn
    rcases Finds.cases finds_margin t with ⟨a, u, w, rest, rfl, -, ha, hu, heq⟩ | ⟨hno, hcase⟩
    · have hlt := hu.length_lt
      have hhead := Finds.head?_sub finds_margin hu.2.1
      have hagain : marginRe.sub marked (spaced w ++ marginRe.sub marked rest) =
          spaced w ++ marginRe.sub marked (marginRe.sub marked rest) :=
        Finds.sub_hit (a := []) finds_margin trivial (by simp [Spaces]) (spaced_opens hu.1 hhead)
      rw [heq, hagain, ih rest.length (by simp; omega) rest rfl]
    · rcases hcase with rfl | ⟨c, t, rfl, heq⟩
      · rfl
      · rw [heq, Finds.sub_miss finds_margin ?_, ih t.length (by simp) t rfl]
        intro a u w rest heq' _ ha hu
        obtain ⟨v, rfl⟩ : ∃ v, u = '(' :: v := by
          obtain ⟨-, -, b, d, -, -, rfl⟩ := hu
          exact ⟨_, rfl⟩
        cases a with
        | nil =>
          obtain ⟨rfl, rfl⟩ := List.cons.inj heq'
          obtain ⟨rest', hu'⟩ := Finds.opens_of_sub finds_margin hu
          exact hno [] _ w rest' rfl trivial (by simp [Spaces]) hu'
        | cons e a =>
          obtain ⟨rfl, htail⟩ := List.cons.inj heq'
          have ha' : Spaces a := fun e he => ha e (List.mem_cons_of_mem c he)
          obtain ⟨y, rfl, hy⟩ := Finds.of_prefix finds_margin ha'.notMem htail
          rcases Finds.cases finds_margin y with ⟨a', u', w', rest', rfl, -, ha₂, hu', -⟩ | ⟨-, hcase⟩
          · refine hno (c :: (a ++ a')) u' w' rest' (by simp) trivial ?_ hu'
            intro e he
            simp only [List.mem_cons, List.mem_append] at he
            rcases he with rfl | he | he
            · exact ha e (by simp)
            · exact ha' e he
            · exact ha₂ e he
          · rcases hcase with rfl | ⟨e, y, rfl, hy'⟩
            · cases hy
            · rw [hy'] at hy
              obtain ⟨rfl, rfl⟩ := List.cons.inj hy
              obtain ⟨rest', hu'⟩ := Finds.opens_of_sub finds_margin hu
              exact hno (c :: a) _ w rest' (by simp) trivial ha hu'

/-! What the repair leaves alone, and when. -/

def isBlank (c : Char) : Bool := c == ' ' || c == '\t'

def Blanks (t : Text) : Prop := ∀ c ∈ t, isBlank c

/-- The texts differ in blanks and tabs around openings only. -/
inductive Respaced : Text → Text → Prop
  | nil : Respaced [] []
  | keep (c : Char) {t t' : Text} (h : Respaced t t') : Respaced (c :: t) (c :: t')
  | opening {a b d a' b' d' w t t' : Text} (hw : Label w) (ha : Blanks a) (hb : Blanks b)
      (hd : Blanks d) (ha' : Blanks a') (hb' : Blanks b') (hd' : Blanks d') (h : Respaced t t') :
      Respaced (a ++ '(' :: (b ++ (w ++ (d ++ t)))) (a' ++ '(' :: (b' ++ (w ++ (d' ++ t'))))

/-- Only blanks and tabs around openings change, every line stays a line of its own, every line
break stays, and a second repair changes nothing. -/
structure SpacedLocally (t : Text) : Prop where
  respaced : Respaced t (normalizeMarkerSpacing t)
  lines : List.Forall₂ Respaced (t.splitOn '\n') ((normalizeMarkerSpacing t).splitOn '\n')
  breaks : (normalizeMarkerSpacing t).filter isBreak = t.filter isBreak
  idem : normalizeMarkerSpacing (normalizeMarkerSpacing t) = normalizeMarkerSpacing t

/-- Around every opening stand blanks and tabs only. -/
def BlankMargins (t : Text) : Prop :=
  ∀ m ∈ marginRe.finditer t, ∀ c ∈ m.text, isSpace c → isBlank c

theorem isSpace_of_isBlank (h : isBlank c) : isSpace c := by
  simp only [isBlank, Bool.or_eq_true, beq_iff_eq] at h
  rcases h with rfl | rfl <;> decide

theorem not_isBreak_of_isBlank (h : isBlank c) : isBreak c = false := by
  simp only [isBlank, Bool.or_eq_true, beq_iff_eq] at h
  rcases h with rfl | rfl <;> decide

theorem Label.not_isBlank (h : Label w) : ∀ c ∈ w, isBlank c = false := by
  rcases h with rfl | rfl <;> decide

theorem Label.not_isBreak (h : Label w) : ∀ c ∈ w, isBreak c = false := by
  rcases h with rfl | rfl <;> decide

theorem finditer_hit (ha : Spaces a) (hw : Label w) (hb : Spaces b) (hd : Spaces d)
    (hhead : ∀ c ∈ rest.head?, isSpace c = false) :
    ∃ m : Match Unit, m.text = a ++ '(' :: (b ++ (w ++ d)) ∧
      marginRe.finditer (a ++ '(' :: (b ++ (w ++ (d ++ rest)))) = m :: marginRe.finditer rest := by
  obtain ⟨m, hm, -⟩ := Finds.hit finds_margin a _ w rest trivial ha ⟨hw, hhead, b, d, hb, hd, rfl⟩
  have htext : m.text = a ++ '(' :: (b ++ (w ++ d)) := by
    refine List.append_cancel_right (?_ : m.text ++ rest = _ ++ rest)
    rw [← first_reads hm]
    simp
  refine ⟨m, htext, ?_⟩
  rw [finditer, pieces_hit (Finds.blind finds_margin) (by simp [htext]) hm]
  rfl

theorem finditer_miss (hno : ∀ a u w rest, c :: t = a ++ u → True → Spaces a → ¬ Opens u w rest) :
    marginRe.finditer (c :: t) = marginRe.finditer t := by
  rw [finditer, pieces_plain (Finds.blind finds_margin) (Finds.miss finds_margin _ hno)]
  rfl

theorem respaced_of_blankMargins (h : BlankMargins t) : Respaced t (marginRe.sub marked t) := by
  induction hn : t.length using Nat.strongRecOn generalizing t with
  | _ n ih =>
    subst hn
    rcases Finds.cases finds_margin t with ⟨a, u, w, rest, rfl, -, ha, hu, heq⟩ | ⟨hno, hcase⟩
    · have hlt := hu.length_lt
      obtain ⟨hw, hhead, b, d, hb, hd, rfl⟩ := hu
      obtain ⟨m, hm, hhits⟩ := finditer_hit ha hw hb hd hhead
      have hblank : ∀ c ∈ m.text, isSpace c → isBlank c := h m (by simp [hhits])
      have hrest : BlankMargins rest := fun m' hm' => h m' (by simp [hhits, hm'])
      have hopening : Respaced (a ++ '(' :: (b ++ (w ++ (d ++ rest))))
          ([] ++ '(' :: ([] ++ (w ++ ([' '] ++ marginRe.sub marked rest)))) :=
        .opening hw (fun c hc => hblank c (by simp [hm, hc]) (ha c hc))
          (fun c hc => hblank c (by simp [hm, hc]) (hb c hc))
          (fun c hc => hblank c (by simp [hm, hc]) (hd c hc))
          (by simp [Blanks]) (by simp [Blanks]) (by simp [Blanks, isBlank])
          (ih rest.length (by simp at hlt ⊢; omega) hrest rfl)
      simpa [heq, spaced] using hopening
    · rcases hcase with rfl | ⟨c, t, rfl, heq⟩
      · exact .nil
      · rw [heq]
        exact .keep c (ih t.length (by simp) (fun m hm => h m (by rwa [finditer_miss hno])) rfl)

/-- The characters that are no blanks. -/
def inked (t : Text) : Nat := t.countP fun c => !isBlank c

theorem Respaced.inked (h : Respaced t u) : inked t = inked u := by
  have hblanks : ∀ {a : Text}, Blanks a → a.countP (fun c => !isBlank c) = 0 := by
    intro a ha
    simpa [List.countP_eq_zero, Blanks] using ha
  unfold MarkerSpacing.inked
  induction h with
  | nil => rfl
  | keep c _ ih => simp [List.countP_cons, ih]
  | opening hw ha hb hd ha' hb' hd' _ ih =>
    simp [List.countP_append, List.countP_cons, hblanks ha, hblanks hb, hblanks hd, hblanks ha',
      hblanks hb', hblanks hd', ih]

/-- Rewriting loses every other space around an opening. -/
theorem inked_margin (t : Text) : inked (marginRe.sub marked t) ≤ inked t ∧
    (inked (marginRe.sub marked t) = inked t → BlankMargins t) := by
  induction hn : t.length using Nat.strongRecOn generalizing t with
  | _ n ih =>
    subst hn
    rcases Finds.cases finds_margin t with ⟨a, u, w, rest, rfl, -, ha, hu, heq⟩ | ⟨hno, hcase⟩
    · have hlt := hu.length_lt
      obtain ⟨hw, hhead, b, d, hb, hd, rfl⟩ := hu
      obtain ⟨m, hm, hhits⟩ := finditer_hit ha hw hb hd hhead
      obtain ⟨hle, hrest⟩ := ih rest.length (by simp at hlt ⊢; omega) rest rfl
      have hcount : inked (a ++ '(' :: (b ++ (w ++ (d ++ rest)))) =
          inked a + (inked b + (inked w + (inked d + inked rest)) + 1) := by
        simp [inked, List.countP_append, isBlank]
      have hcount' : inked (spaced w ++ marginRe.sub marked rest) =
          inked w + inked (marginRe.sub marked rest) + 1 := by
        simp [inked, spaced, List.countP_append, isBlank]
      rw [heq, hcount, hcount']
      refine ⟨by omega, fun hsame => ?_⟩
      have hzero : ∀ {a}, inked a = 0 → Blanks a := fun h c hc => by
        simpa using List.countP_eq_zero.mp h c hc
      have hblank : ∀ c ∈ m.text, isSpace c → isBlank c := by
        intro c hc hspace
        simp only [hm, List.mem_append, List.mem_cons] at hc
        rcases hc with hc | rfl | hc | hc | hc
        · exact hzero (by omega) c hc
        · exact absurd hspace (by decide)
        · exact hzero (by omega) c hc
        · rw [(hw.solid c hc).1] at hspace
          cases hspace
        · exact hzero (by omega) c hc
      intro m' hm'
      rw [hhits] at hm'
      rcases List.mem_cons.mp hm' with rfl | hm'
      · exact hblank
      · exact hrest (by omega) m' hm'
    · rcases hcase with rfl | ⟨c, t, rfl, heq⟩
      · exact ⟨le_rfl, fun _ m hm => by cases hm⟩
      · obtain ⟨hle, hrest⟩ := ih t.length (by simp) t rfl
        rw [heq]
        simp only [inked, List.countP_cons] at hle hrest ⊢
        refine ⟨by omega, fun hsame m hm => ?_⟩
        rw [finditer_miss hno] at hm
        exact hrest (by omega) m hm

theorem Respaced.breaks (h : Respaced t u) : u.filter isBreak = t.filter isBreak := by
  have hnone : ∀ {a : Text}, Blanks a → a.filter isBreak = [] := by
    intro a ha
    simpa [List.filter_eq_nil_iff] using fun c hc => not_isBreak_of_isBlank (ha c hc)
  induction h with
  | nil => rfl
  | keep c _ ih => simp [List.filter_cons, ih]
  | opening hw ha hb hd ha' hb' hd' _ ih =>
    simp [List.filter_append, List.filter_cons, hnone ha, hnone hb, hnone hd, hnone ha',
      hnone hb', hnone hd', ih]

theorem splitOn_append (h : '\n' ∉ p) (t : Text) :
    (p ++ t).splitOn '\n' = (t.splitOn '\n').modifyHead (p ++ ·) := by
  induction p with
  | nil =>
    rw [List.nil_append]
    cases t.splitOn '\n' <;> rfl
  | cons c p ih =>
    have hc : c ≠ '\n' := by
      rintro rfl
      exact h (by simp)
    have htail := ih fun hmem => h (List.mem_cons_of_mem c hmem)
    rw [List.splitOn_eq_splitOnP] at htail ⊢
    rw [List.cons_append, List.splitOnP_cons_eq_if_modifyHead, htail, if_neg (by simpa using hc)]
    cases t.splitOn '\n' <;> rfl

theorem forall₂_modifyHead {f g : Text → Text} {l l' : List Text}
    (hfg : ∀ x y, Respaced x y → Respaced (f x) (g y)) (h : List.Forall₂ Respaced l l') :
    List.Forall₂ Respaced (l.modifyHead f) (l'.modifyHead g) := by
  cases h with
  | nil => exact .nil
  | cons hx hl => exact .cons (hfg _ _ hx) hl

/-- Respacing works line by line. -/
theorem Respaced.lines (h : Respaced t u) :
    List.Forall₂ Respaced (t.splitOn '\n') (u.splitOn '\n') := by
  have hbreak : ∀ {a : Text}, Blanks a → '\n' ∉ a := fun ha hmem =>
    absurd (not_isBreak_of_isBlank (ha _ hmem)) (by decide)
  induction h with
  | nil => exact .cons .nil .nil
  | keep c _ ih =>
    rw [List.splitOn_eq_splitOnP, List.splitOn_eq_splitOnP, List.splitOnP_cons_eq_if_modifyHead,
      List.splitOnP_cons_eq_if_modifyHead, ← List.splitOn_eq_splitOnP, ← List.splitOn_eq_splitOnP]
    split
    · exact .cons .nil ih
    · exact forall₂_modifyHead (fun _ _ => .keep c) ih
  | @opening a b d a' b' d' w t t' hw ha hb hd ha' hb' hd' _ ih =>
    have hlabel : '\n' ∉ w := fun hmem => absurd (hw.not_isBreak _ hmem) (by decide)
    have hsplit : ∀ {a b d : Text} (t : Text), Blanks a → Blanks b → Blanks d →
        (a ++ '(' :: (b ++ (w ++ (d ++ t)))).splitOn '\n' =
          (t.splitOn '\n').modifyHead fun l => a ++ '(' :: (b ++ (w ++ (d ++ l))) := by
      intro a b d t ha hb hd
      have heq := splitOn_append (p := a ++ '(' :: (b ++ (w ++ d)))
        (by simp [hbreak ha, hbreak hb, hbreak hd, hlabel]) t
      simpa using heq
    rw [hsplit t ha hb hd, hsplit t' ha' hb' hd']
    exact forall₂_modifyHead (fun _ _ => .opening hw ha hb hd ha' hb' hd') ih

/-- The repair keeps to blanks and tabs exactly where nothing else stands around the openings. -/
theorem spacedLocally_iff_blankMargins (t : Text) : SpacedLocally t ↔ BlankMargins t := by
  constructor
  · intro h
    have hinked := h.respaced.inked
    rw [normalize_eq] at hinked
    exact (inked_margin t).2 hinked.symm
  · intro h
    have hrespaced : Respaced t (normalizeMarkerSpacing t) := by
      rw [normalize_eq]
      exact respaced_of_blankMargins h
    refine ⟨hrespaced, hrespaced.lines, hrespaced.breaks, ?_⟩
    rw [normalize_eq, normalize_eq, margin_idem]

/-- A source line under a table joins the last row. -/
theorem not_spacedLocally_sourceLine : ¬ ∀ t, SpacedLocally t := by
  intro h
  have hlines := (h "| 수출 | 10 |\n(출처 3)".toList).lines.length_eq
  exact absurd hlines (by decide)

end RownRg.MarkerSpacing

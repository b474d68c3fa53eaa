import RownRg.Core.MarkPlaces
import RownRg.Lib.Leftmost
import RownRg.Web.Markers

/-! A correction of a source mark: when the back end reads it, and that it can be taken back. -/

open PyText Regex

namespace RownRg.Markers

open Citations (markRe numbersInOrder marks numbersOf Core NoMark)

/-- The correction of `s` by `n` is read, and taking `n` out again leaves the numbers of `s`; around
the mark nothing changes. -/
def TakesEffect (s : Text) (n : Nat) (s' : Text) : Prop :=
  ∃ before m after edited, s = before ++ (m ++ after) ∧ s' = before ++ (edited ++ after) ∧
    (∀ k, k ∈ numbersInOrder s' ↔ k ∈ numbersInOrder s ∨ k = n) ∧
    (n ∉ numbersInOrder s → ∃ restored,
      removeSourceNumber s' n = some (before ++ (restored ++ after)) ∧
      numbersInOrder (before ++ (restored ++ after)) = numbersInOrder s)

variable {s s' before after rest t u v w y old : Text} {n : Nat} {l : List Nat} {c : Char}
  {k k' j : SourceMark} {m : Match Unit}

/-- The mark is one of the back end's grammar. -/
structure SourceMark.Plain (k : SourceMark) : Prop where
  opening : k.opening = '('
  gap : k.gap = []
  label : k.label = "출처".toList
  closing : k.closing = ')'
  lead : '\uFEFF' ∉ k.lead
  list : '\uFEFF' ∉ k.list
  trail : '\uFEFF' ∉ k.trail

def SourceMark.core (k : SourceMark) : Core := .source k.lead k.list k.trail

def SourceMark.appended (k : SourceMark) (n : Nat) : SourceMark :=
  { k with list := k.list ++ (k.trail ++ ',' :: ([' '] ++ ofNat n)), trail := [] }

def SourceMark.restored (k : SourceMark) (l : List Nat) : SourceMark :=
  { k with list := joinWith ", ".toList (l.map ofNat), trail := [] }

/-! What the editor does to the mark. -/

theorem listed_found (hk : Nums k.list l) : markNumbers k.found = l := listed_eq hk

theorem beforeClosing_text (hk : k.Ok) : beforeClosing k.text = k.sp ++ k.opening :: k.body := by
  have hlast : k.text = (k.sp ++ k.opening :: k.body) ++ [k.closing] := by simp [SourceMark.text]
  rw [beforeClosing, hlast, List.reverse_append, List.reverse_singleton, List.singleton_append,
    List.dropWhile_cons_of_neg (by simp [hk.closing])]
  simp

theorem withNumber_text (hk : k.Ok) (n : Nat) : withNumber n k.text = (k.appended n).text := by
  rw [withNumber, beforeClosing_text hk]
  simp [SourceMark.text, SourceMark.body, SourceMark.appended]

theorem short_ofNat (hn : n ≤ 999) : Short (ofNat n) := by
  refine ⟨ofNat_ne_nil, ?_, fun c hc => ?_⟩
  · exact (Nat.length_toDigits_le_iff (by omega) (by omega)).mpr (by omega)
  · have hd := Nat.isDigit_of_mem_toDigits (by omega) (by omega) hc
    simp only [Char.isDigit, ge_iff_le, Bool.and_eq_true, decide_eq_true_eq] at hd
    simp only [Script.isDigit, Bool.and_eq_true, decide_eq_true_eq]
    exact hd

theorem nums_appended (hk : Nums k.list l) (htrail : Blank k.trail) (hn : n ≤ 999) :
    Nums (k.appended n).list (l ++ [n]) := by
  have hblank : Blank [' '] := by
    simp only [Blank, List.mem_singleton, forall_eq]
    decide
  have h := nums_snoc hk htrail hblank (short_ofNat hn)
  rwa [natOf_ofNat] at h

theorem appended_ok (hk : k.Ok) (hn : n ≤ 999) : (k.appended n).Ok := by
  obtain ⟨l, hl⟩ := hk.list
  exact ⟨hk.sp, hk.opening, hk.gap, hk.label, hk.lead, ⟨_, nums_appended hl hk.trail hn⟩,
    by simp [Blank, SourceMark.appended], hk.closing⟩

theorem cutAt_first {d : Char} (hu : d ∉ u) :
    cutAt (d :: w) (u ++ (d :: w ++ v)) = some (u, v) := by
  induction u with
  | nil => simp [cutAt]
  | cons c u ih =>
    obtain ⟨hc, hu⟩ := not_or.mp (mt List.mem_cons.mpr hu)
    rw [List.cons_append, cutAt, ih hu]
    simp [hc]

/-- The list is replaced where it stands. -/
theorem replaceFirst_list (hk : k.Ok) (new : Text) :
    replaceFirst k.list new k.text = { k with list := new : SourceMark }.text := by
  obtain ⟨l, hl⟩ := hk.list
  obtain ⟨d, g, hg, hd⟩ := nums_head hl
  have hbefore : d ∉ k.sp ++ k.opening :: (k.gap ++ (k.label ++ k.lead)) := by
    intro hmem
    have hno : ∀ c ∈ "（(출처자료참고".toList, Script.isDigit c = false := by decide
    rw [List.mem_append, List.mem_cons] at hmem
    rcases hmem with h | rfl | h
    · have hsp := (Bool.and_eq_true_iff.mp (hk.sp d h)).1
      rw [Script.not_isSpace_of_isDigit hd] at hsp
      cases hsp
    · rcases isOpening_iff.1 hk.opening with h | h <;> rw [h] at hd <;> exact absurd hd (by decide)
    · rcases prefix_chars hk d h with h | h
      · rw [Script.not_isSpace_of_isDigit hd] at h
        cases h
      · rw [hno d (by simp at h ⊢; tauto)] at hd
        cases hd
  have htext : k.text = (k.sp ++ k.opening :: (k.gap ++ (k.label ++ k.lead))) ++
      (d :: g ++ (k.trail ++ [k.closing])) := by
    simp [SourceMark.text, SourceMark.body, hg]
  rw [replaceFirst, hg, htext, cutAt_first hbefore]
  simp [SourceMark.text, SourceMark.body]

theorem words_sourceMarkRe : ¬ sourceMarkRe.Words [] := by
  intro h
  simp only [sourceMarkRe, cat] at h
  obtain ⟨_, _, -, ⟨_, _, ⟨c, -, rfl⟩, -, rfl⟩, hnil⟩ := h
  simp at hnil

/-- With another list, a mark that begins before stands before. -/
theorem mark_moves (hk : k.Ok) (hsp : k.sp = k'.sp) (hopen : k.opening = k'.opening)
    (hj : j.Ok) (h : y ++ (k'.text ++ after) = j.text ++ rest) :
    ∃ j' rest', SourceMark.Ok j' ∧ y ++ (k.text ++ after) = j'.text ++ rest' := by
  have hcut : (y ++ k.sp) ++ k.opening :: (k'.body ++ (k'.closing :: after)) =
      j.sp ++ (j.opening :: ((j.body ++ [j.closing]) ++ rest)) := by
    rw [hsp, hopen]
    simpa [SourceMark.text] using h
  have hblank : ∀ c ∈ j.sp, Script.isSpace c := fun c hc => (Bool.and_eq_true_iff.mp (hj.sp c hc)).1
  have hwider : y ++ k.sp = j.sp →
      ∃ j' rest', SourceMark.Ok j' ∧ y ++ (k.text ++ after) = j'.text ++ rest' := by
    intro heq
    refine ⟨{ k with sp := j.sp }, after, { hk with sp := hj.sp }, ?_⟩
    simp [SourceMark.text, SourceMark.body, ← heq]
  have hnot : k.opening ∉ j.body ++ [j.closing] := by
    intro hmem
    rcases List.mem_append.mp hmem with hmem | hmem
    · refine body_plain hj _ hmem ?_
      rcases isOpening_iff.1 hk.opening with h | h <;> rw [h] <;> decide
    · have hc := hj.closing
      rw [← List.mem_singleton.mp hmem] at hc
      rcases isOpening_iff.1 hk.opening with h | h <;> rw [h] at hc <;> exact absurd hc (by decide)
  rcases List.append_eq_append_iff.mp hcut with ⟨a, ha, hrest⟩ | ⟨a, ha, hrest⟩
  · cases a with
    | nil => exact hwider (by simpa using ha.symm)
    | cons c a =>
      obtain ⟨rfl, -⟩ := List.cons.inj hrest
      have hc := hblank k.opening (by simp [ha])
      rw [not_space_opening hk.opening] at hc
      cases hc
  · cases a with
    | nil => exact hwider (by simpa using ha)
    | cons c a =>
      obtain ⟨rfl, hbody⟩ := List.cons.inj hrest
      rcases List.append_eq_append_iff.mp hbody with ⟨b, rfl, -⟩ | ⟨b, hb, hrest'⟩
      · refine ⟨j, b ++ k.opening :: (k.body ++ (k.closing :: after)), hj, ?_⟩
        calc y ++ (k.text ++ after)
            = (y ++ k.sp) ++ k.opening :: (k.body ++ (k.closing :: after)) := by
              simp [SourceMark.text]
          _ = _ := by
              rw [ha]
              simp [SourceMark.text]
      · cases b with
        | nil =>
          refine ⟨j, k.opening :: (k.body ++ (k.closing :: after)), hj, ?_⟩
          calc y ++ (k.text ++ after)
              = (y ++ k.sp) ++ k.opening :: (k.body ++ (k.closing :: after)) := by
                simp [SourceMark.text]
            _ = _ := by
                rw [ha]
                simp [SourceMark.text, ← (by simpa using hb : j.body ++ [j.closing] = a)]
        | cons d b =>
          obtain ⟨rfl, -⟩ := List.cons.inj hrest'
          exact absurd (by rw [hb]; simp) hnot

/-- An edit of the list leaves the mark the first one. -/
theorem head_spots_edit (hk : k.Ok) (hk' : k'.Ok) (hsp : k.sp = k'.sp)
    (hopen : k.opening = k'.opening)
    (h : (sourceMarkRe.spots s).head? = some (before, k.found, after)) :
    (sourceMarkRe.spots (before.reverse ++ (k'.text ++ after))).head? =
      some (before, k'.found, after) := by
  obtain ⟨-, -, hnone⟩ := (head_spots_iff blind_sourceMarkRe words_sourceMarkRe).mp h
  refine (head_spots_iff blind_sourceMarkRe words_sourceMarkRe).mpr
    ⟨rfl, first_sourceMarkRe.2 ⟨k', hk', rfl, rfl⟩, fun y hy hsuffix => ?_⟩
  by_contra hne
  obtain ⟨⟨m, rest⟩, hfirst⟩ := Option.ne_none_iff_exists'.mp hne
  obtain ⟨j, hj, -, heq⟩ := first_sourceMarkRe.1 hfirst
  obtain ⟨j', rest', hj', heq'⟩ := mark_moves hk hsp hopen hj heq
  have hsome := (@first_sourceMarkRe rest' [] _ _).mpr ⟨j', hj', rfl, heq'⟩
  rw [show k.found.text = k.text from rfl] at hnone
  rw [hnone y hy hsuffix] at hsome
  cases hsome

/-! What the back end reads. -/

theorem core_text (hk : k.Plain) : k.text = k.sp ++ k.core.text := by
  simp [SourceMark.text, SourceMark.body, SourceMark.core, Core.text, hk.opening, hk.gap, hk.label,
    hk.closing]

theorem core_ok (hk : k.Ok) (hplain : k.Plain) : k.core.Ok := by
  obtain ⟨l, hl⟩ := hk.list
  exact ⟨spaces_of_blank hk.lead hplain.lead,
    Citations.accepts_numberList.mpr (numberList_nums hl hplain.list),
    spaces_of_blank hk.trail hplain.trail⟩

theorem numbers_core (hl : Nums k.list l) (hplain : k.Plain) (sp : Text) :
    Citations.markNumbers (Citations.mark sp k.core) = l := by
  simpa [Citations.markNumbers, SourceMark.core] using split_nums hl hplain.list

theorem plain_appended (hk : k.Plain) (n : Nat) : (k.appended n).Plain := by
  refine ⟨hk.opening, hk.gap, hk.label, hk.closing, hk.lead, ?_, by simp [SourceMark.appended]⟩
  have hn : '\uFEFF' ∉ ofNat n := fun h => absurd (isDigit_of_mem_ofNat h) (by decide)
  simp [SourceMark.appended, hk.list, hk.trail, hn]

theorem plain_of_appended (hk : (k.appended n).Plain) : k.Plain := by
  have hlist := hk.list
  simp only [SourceMark.appended, List.mem_append, not_or, List.mem_cons] at hlist
  exact ⟨hk.opening, hk.gap, hk.label, hk.closing, hk.lead, hlist.1, hlist.2.1⟩

/-- Where a mark of the back end begins at the parenthesis, the mark is plain. -/
theorem plain_of_core (hk : k.Ok) {q : Core} (hq : q.Ok)
    (h : k.opening :: (k.body ++ k.closing :: after) = q.text ++ rest) : k.Plain := by
  cases q with
  | quote g =>
    obtain ⟨ho, -⟩ := List.cons.inj h
    rcases isOpening_iff.1 hk.opening with h | h <;> rw [h] at ho <;> exact absurd ho (by decide)
  | source w₁ g w₂ =>
    obtain ⟨h₁, hg, h₂⟩ := hq
    have hg := Citations.numberList_chars (Citations.accepts_numberList.mp hg)
    have hin : ∀ c ∈ w₁ ++ (g ++ w₂), isDigit c ∨ isSpace c ∨ c = ',' := by
      intro c hc
      rcases List.mem_append.mp hc with hc | hc
      · exact .inr (.inl (h₁ c hc))
      · rcases List.mem_append.mp hc with hc | hc
        · exact hg c hc
        · exact .inr (.inl (h₂ c hc))
    have hno : ∀ d ∈ ")）\uFEFF".toList, ¬ (isDigit d ∨ isSpace d ∨ d = ',') := by decide
    have hopen : k.opening = '(' ∧ k.body ++ (k.closing :: after) =
        ('출' :: '처' :: (w₁ ++ (g ++ w₂))) ++ (')' :: rest) := by
      simpa [Core.text] using h
    obtain ⟨ho, hbody⟩ := hopen
    have hclosed : ∀ c ∈ '출' :: '처' :: (w₁ ++ (g ++ w₂)), (!isClosing c) = true := by
      intro c hc
      rw [Bool.not_eq_true', Bool.eq_false_iff]
      intro hclosing
      rcases List.mem_cons.mp hc with rfl | hc
      · exact absurd hclosing (by decide)
      · rcases List.mem_cons.mp hc with rfl | hc
        · exact absurd hclosing (by decide)
        · refine hno c ?_ (hin c hc)
          rcases isClosing_iff.1 hclosing with rfl | rfl <;> decide
    obtain ⟨hbody, hclose⟩ := append_inj_of_all
      (fun c hc => by rw [not_isClosing_of_plain (body_plain hk c hc)]; rfl) hclosed
      (by rintro c ⟨⟩; rw [hk.closing]; rfl) (by rintro c ⟨⟩; rfl) hbody
    obtain ⟨hc, -⟩ := List.cons.inj hclose
    have hgap : k.gap = [] := by
      cases hgap : k.gap with
      | nil => rfl
      | cons c gap =>
        obtain rfl : c = '출' := by
          rw [SourceMark.body, hgap] at hbody
          exact (List.cons.inj hbody).1
        have hs := hk.gap '출' (by simp [hgap])
        exact absurd hs (by decide)
    have hlabel : k.label = "출처".toList := by
      have hl := hk.label
      simp only [labels, List.mem_cons, List.not_mem_nil, or_false] at hl
      rcases hl with hl | hl | hl
      · exact hl
      · rw [SourceMark.body, hgap, hl] at hbody
        exact absurd (List.cons.inj hbody).1 (by decide)
      · rw [SourceMark.body, hgap, hl] at hbody
        exact absurd (List.cons.inj hbody).1 (by decide)
    have hrest : k.lead ++ (k.list ++ k.trail) = w₁ ++ (g ++ w₂) := by
      simpa [SourceMark.body, hgap, hlabel] using hbody
    have hbom : '\uFEFF' ∉ k.lead ++ (k.list ++ k.trail) := by
      rw [hrest]
      exact fun hmem => hno _ (by decide) (hin _ hmem)
    simp only [List.mem_append, not_or] at hbom
    exact ⟨ho, hgap, hlabel, hc, hbom.1, hbom.2.1, hbom.2.2⟩

theorem words_markRe : ¬ markRe.Words [] := by
  intro h
  simp only [markRe, cat] at h
  obtain ⟨_, _, -, hcore, hnil⟩ := h
  obtain ⟨-, rfl⟩ := List.append_eq_nil_iff.mp hnil.symm
  rcases hcore with ⟨_, _, hlit, -, hnil⟩ | ⟨_, _, ⟨c, -, rfl⟩, -, hnil⟩
  · obtain ⟨rfl, -⟩ := List.append_eq_nil_iff.mp hnil.symm
    rw [words_plain (plain_lit _), accepts_lit] at hlit
    cases hlit
  · cases hnil

/-- No mark of the back end opens behind the parenthesis. -/
theorem not_open_behind (hk : k.Ok) : ∀ c ∈ k.body ++ [k.closing], c ≠ '(' ∧ c ≠ '[' := by
  intro c hc
  rcases List.mem_append.mp hc with hc | hc
  · have hplain := body_plain hk c hc
    constructor <;> rintro rfl <;> exact hplain (by decide)
  · rw [List.mem_singleton.mp hc]
    rcases isClosing_iff.1 hk.closing with h | h <;> rw [h] <;> decide

theorem found_iff_plain (hk : k.Ok) : markRe.found k.text ↔ k.Plain := by
  rw [found_iff words_markRe]
  constructor
  · rintro ⟨u, y, q, hu, hq⟩
    obtain ⟨sp, q, rest, hsp, hok, -, rfl, -⟩ := Citations.mem_markRe.mp hq
    have hopen := @Citations.core_head_open rest _ hok
    have hcut : k.sp ++ (k.opening :: (k.body ++ k.closing :: [])) =
        (u ++ sp) ++ (q.text ++ rest) := by
      simpa [SourceMark.text] using hu
    rcases List.append_eq_append_iff.mp hcut with ⟨a, -, ha⟩ | ⟨a, hsp, ha⟩
    · cases a with
      | nil => exact plain_of_core hk hok ha
      | cons c a =>
        obtain ⟨-, hbody⟩ := List.cons.inj ha
        obtain ⟨d, z, hd⟩ := List.exists_cons_of_ne_nil (Citations.core_text_ne_nil hok)
        have hmem : d ∈ k.body ++ [k.closing] := by
          rw [hbody, hd]
          simp
        have hne := not_open_behind hk d hmem
        rcases hopen d (by rw [hd]; rfl) with h | h
        · exact absurd h hne.1
        · exact absurd h hne.2
    · cases a with
      | nil => exact plain_of_core hk hok ha.symm
      | cons c a =>
        have hc := (Bool.and_eq_true_iff.mp (hk.sp c (by rw [hsp]; simp))).1
        rcases hopen c (by rw [ha]; rfl) with rfl | rfl <;> exact absurd hc (by decide)
  · intro hplain
    refine ⟨k.sp, k.core.text, _, core_text hplain, Citations.mem_markRe.mpr
      ⟨[], k.core, [], by simp, core_ok hk hplain, ?_, by simp, rfl⟩⟩
    exact fun _ => by simp

/-- A mark that is not plain has no part in the numbers. -/
theorem numbers_not_plain (hk : k.Ok) (hplain : ¬ k.Plain) (x after : Text) :
    ∃ ps, ∀ k', SourceMark.Ok k' → k.sp = k'.sp → k.opening = k'.opening → ¬ k'.Plain →
      numbersOf (marks (x ++ (k'.text ++ after))) = numbersOf ps ++ numbersOf (marks after) := by
  have hno : ∀ {k : SourceMark}, k.Ok → ¬ k.Plain →
      NoMark (k.opening :: (k.body ++ k.closing :: after)) := by
    intro k hk hplain sp q rest hsp hq _ heq
    cases sp with
    | nil => exact hplain (plain_of_core hk hq heq)
    | cons c sp =>
      obtain ⟨rfl, -⟩ := List.cons.inj heq
      have hc := hsp k.opening (by simp)
      rcases isOpening_iff.1 hk.opening with h | h <;> rw [h] at hc <;> exact absurd hc (by decide)
  have hinside : ¬ Citations.Inside k.opening := by
    rcases isOpening_iff.1 hk.opening with h | h <;> rw [h]
    · simp [Citations.Inside]
      decide
    · exact Citations.not_inside_open (.inl rfl)
  obtain ⟨ps, hps⟩ := Citations.marks_before hinside (hno hk hplain) (x ++ k.sp)
  refine ⟨ps, fun k' hk' hsp hopen hplain' => ?_⟩
  have hno' := hno hk' hplain'
  have hcut : x ++ (k'.text ++ after) =
      (x ++ k.sp) ++ k.opening :: (k'.body ++ k'.closing :: after) := by
    simp [SourceMark.text, hsp, hopen]
  have hbehind := not_open_behind hk'
  have hbody : ∀ c ∈ k'.body, c ≠ '(' ∧ c ≠ '[' := fun c hc => hbehind c (List.mem_append_left _ hc)
  have hclosed := Citations.marks_closed hbody (hbehind k'.closing (by simp)) (by
      rcases isClosing_iff.1 hk'.closing with h | h <;> rw [h] <;> decide) after
  rw [hopen] at hps hcut
  rw [hcut, hps _ hno', Citations.marks_plain hno', hclosed]
  simp [numbersOf, hits_append, hits_plain, hits_map_plain]

/-! The correction of a text, and taking it back. -/

theorem head_found (h : (sourceMarkRe.spots s).head? = some (before, m, after)) :
    ∃ k l, SourceMark.Ok k ∧ Nums k.list l ∧ m = k.found ∧
      s = before.reverse ++ (k.text ++ after) := by
  obtain ⟨hs, hfirst, -⟩ := (head_spots_iff blind_sourceMarkRe words_sourceMarkRe).mp h
  obtain ⟨k, hk, rfl, -⟩ := first_sourceMarkRe.1 hfirst
  obtain ⟨l, hl⟩ := hk.list
  exact ⟨k, l, hk, hl, rfl, hs⟩

/-- What a correction does: the first mark, without the number so far, takes it. -/
theorem append_cases (h : appendSourceNumber s n = some s') : ∃ before k after l,
    (sourceMarkRe.spots s).head? = some (before, k.found, after) ∧ SourceMark.Ok k ∧
    Nums k.list l ∧ n ∉ l ∧ s = before.reverse ++ (k.text ++ after) ∧
    s' = before.reverse ++ ((k.appended n).text ++ after) := by
  unfold appendSourceNumber at h
  cases hhead : (sourceMarkRe.spots s).head? with
  | none =>
    rw [hhead] at h
    cases h
  | some x =>
    obtain ⟨before, m, after⟩ := x
    obtain ⟨k, l, hk, hl, rfl, hs⟩ := head_found hhead
    rw [hhead] at h
    simp only [listed_found hl] at h
    split at h
    · cases h
    · rename_i hn
      refine ⟨before, k, after, l, rfl, hk, hl, hn, hs, ?_⟩
      rw [← Option.some.inj h, ← withNumber_text hk n]
      rfl

theorem nums_ne_nil (h : Nums t l) : l ≠ [] := by
  cases h <;> simp

/-- Taking the last number out of the first mark. -/
theorem remove_last (hk : k.Ok) (hl : Nums k.list l) (hnew : n ∉ l) (hn : n ≤ 999)
    (h : (sourceMarkRe.spots s').head? = some (before, (k.appended n).found, after)) :
    removeSourceNumber s' n = some (before.reverse ++ ((k.restored l).text ++ after)) := by
  have hnums := nums_appended hl hk.trail hn
  have hfilter : (l ++ [n]).filter (· != n) = l := by
    rw [List.filter_append, List.filter_eq_self.mpr]
    · simp
    · intro m hm
      simpa using fun heq : m = n => hnew (heq ▸ hm)
  obtain ⟨rest, hspots⟩ : ∃ rest, sourceMarkRe.spots s' =
      (before, (k.appended n).found, after) :: rest := by
    cases hspots : sourceMarkRe.spots s' with
    | nil =>
      rw [hspots] at h
      cases h
    | cons x rest =>
      rw [hspots] at h
      cases h
      exact ⟨rest, rfl⟩
  obtain ⟨a, l, rfl⟩ := List.exists_cons_of_ne_nil (nums_ne_nil hl)
  have hreplace := replaceFirst_list (appended_ok hk hn)
    (joinWith ", ".toList ((a :: l).map ofNat))
  rw [removeSourceNumber, hspots, List.findSome?_cons]
  simp only [listed_found hnums, hfilter, List.mem_append, List.mem_singleton, or_true, if_true]
  rw [show ((k.appended n).found.group ()).getD [] = (k.appended n).list from rfl,
    show (k.appended n).found.text = (k.appended n).text from rfl, hreplace]
  rfl

theorem restored_core (hk : k.Ok) (hplain : k.Plain) (hne : l ≠ []) :
    (k.restored l).Plain ∧ (k.restored l).core.Ok ∧
      ∀ sp, Citations.markNumbers (Citations.mark sp (k.restored l).core) = l := by
  obtain ⟨a, l, rfl⟩ := List.exists_cons_of_ne_nil hne
  have hlist := Citations.numberList_join a l
  refine ⟨⟨hplain.opening, hplain.gap, hplain.label, hplain.closing, hplain.lead, fun hmem => ?_,
    by simp [SourceMark.restored]⟩, ⟨spaces_of_blank hk.lead hplain.lead,
    Citations.accepts_numberList.mpr hlist, fun c hc => absurd hc List.not_mem_nil⟩, fun sp => ?_⟩
  · have hno : ¬ (isDigit '\uFEFF' ∨ isSpace '\uFEFF' ∨ '\uFEFF' = ',') := by decide
    exact hno (Citations.numberList_chars hlist _ hmem)
  · have hsplit := congrArg (List.map natOf) (Citations.split_join a l)
    simpa [Citations.markNumbers, SourceMark.core, SourceMark.restored, List.map_map,
      Function.comp_def, natOf_ofNat] using hsplit

/-- The numbers of a plain mark stand among those of the text. -/
theorem numbers_plain (hk : k.Ok) (hplain : k.Plain) (x after : Text) :
    ∃ ps qs, ∀ k' l, SourceMark.Plain k' → k'.sp = k.sp → k'.core.Ok →
      (∀ sp, Citations.markNumbers (Citations.mark sp k'.core) = l) →
      numbersOf (marks (x ++ (k'.text ++ after))) = ps ++ (l ++ qs) := by
  obtain ⟨before, sp, rest, hmarks⟩ :=
    Citations.marks_replace (core_ok hk hplain) rfl (x ++ k.sp) after
  refine ⟨numbersOf before, numbersOf rest, fun k' l hplain' hsp hcore hl => ?_⟩
  have hcut : x ++ (k'.text ++ after) = (x ++ k.sp) ++ (k'.core.text ++ after) := by
    rw [core_text hplain', hsp]
    simp
  have hsplit : numbersOf (before ++ .hit (Citations.mark sp k'.core) :: rest) =
      numbersOf before ++ numbersOf (.hit (Citations.mark sp k'.core) :: rest) := by
    simp [numbersOf, hits_append]
  rw [hcut, hmarks _ hcore rfl, hsplit, Citations.numbersOf_hit, hl]

/-- A correction of a plain mark takes effect. -/
theorem takesEffect_plain (hk : k.Ok) (hplain : k.Plain) (hl : Nums k.list l) (hnew : n ∉ l)
    (hn : n ≤ 999) (h : (sourceMarkRe.spots s).head? = some (before, k.found, after))
    (hs : s = before.reverse ++ (k.text ++ after)) :
    TakesEffect s n (before.reverse ++ ((k.appended n).text ++ after)) := by
  obtain ⟨ps, qs, hnumbers⟩ := numbers_plain hk hplain before.reverse after
  have hok := appended_ok hk hn
  have happended := plain_appended hplain n
  have hold : numbersOf (marks s) = ps ++ (l ++ qs) := by
    rw [hs]
    exact hnumbers k l hplain rfl (core_ok hk hplain) (numbers_core hl hplain)
  have hedited := hnumbers (k.appended n) (l ++ [n]) happended rfl (core_ok hok happended)
    (numbers_core (nums_appended hl hk.trail hn) happended)
  have hhead := head_spots_edit hk hok rfl rfl h
  refine ⟨before.reverse, k.text, after, _, hs, rfl, fun m => ?_, fun _ => ?_⟩
  · rw [Citations.numbersInOrder_eq, Citations.numbersInOrder_eq, hedited, hold]
    simp only [List.mem_eraseDups, List.mem_append, List.mem_singleton]
    tauto
  · obtain ⟨hrestored, hcore, hcount⟩ := restored_core hk hplain (nums_ne_nil hl)
    refine ⟨(k.restored l).text, remove_last hk hl hnew hn hhead, ?_⟩
    rw [Citations.numbersInOrder_eq, Citations.numbersInOrder_eq, hold,
      hnumbers _ l hrestored rfl hcore hcount]

/-- A correction of another mark changes no number that the back end reads. -/
theorem numbers_unread (hk : k.Ok) (hplain : ¬ k.Plain) (hn : n ≤ 999) (x after : Text) :
    numbersInOrder (x ++ ((k.appended n).text ++ after)) =
      numbersInOrder (x ++ (k.text ++ after)) := by
  obtain ⟨ps, hps⟩ := numbers_not_plain hk hplain x after
  rw [Citations.numbersInOrder_eq, Citations.numbersInOrder_eq, hps k hk rfl rfl hplain,
    hps _ (appended_ok hk hn) rfl rfl (mt plain_of_appended hplain)]

end RownRg.Markers

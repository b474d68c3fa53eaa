import Mathlib.Data.List.Forall2
import RownRg.Lib.Scan

/-! Texts line by line, and the patterns that match from the start of a line. -/

namespace PyText

variable {l t x y : Text} {ls ks : List Text}

/-- Every line with a line break before it. -/
def below (ls : List Text) : Text := ls.flatMap fun l => '\n' :: l

/-- Every line with a line break behind it. -/
def closed (ls : List Text) : Text := ls.flatMap fun l => l ++ ['\n']

/-- `'\n'.join(lines)` -/
def joinLines : List Text → Text
  | [] => []
  | l :: ls => l ++ below ls

/-- Where `splitlines` ends a line. -/
def isBreak (c : Char) : Bool :=
  [10, 11, 12, 13, 28, 29, 30, 133, 8232, 8233].contains c.toNat

/-- `splitlines` with the line read so far, last character first. -/
def splitLinesFrom : Text → Text → List Text
  | line, [] => if line.isEmpty then [] else [line.reverse]
  | line, '\r' :: '\n' :: t => line.reverse :: splitLinesFrom [] t
  | line, c :: t =>
    if isBreak c then line.reverse :: splitLinesFrom [] t else splitLinesFrom (c :: line) t

/-- `text.splitlines()` -/
def splitLines (t : Text) : List Text := splitLinesFrom [] t

@[simp] theorem below_nil : below [] = [] := rfl

@[simp] theorem below_cons (l : Text) (ls : List Text) : below (l :: ls) = '\n' :: (l ++ below ls) :=
  rfl

@[simp] theorem below_append (ls ks : List Text) : below (ls ++ ks) = below ls ++ below ks :=
  List.flatMap_append

@[simp] theorem closed_nil : closed [] = [] := rfl

@[simp] theorem closed_cons (l : Text) (ls : List Text) :
    closed (l :: ls) = l ++ '\n' :: closed ls := by
  simp [closed]

theorem below_closed (ls : List Text) : '\n' :: closed ls = below ls ++ ['\n'] := by
  induction ls with
  | nil => rfl
  | cons l ls ih => simp [← ih]

theorem closed_eq_joinLines (h : ls ≠ []) : closed ls = joinLines ls ++ ['\n'] := by
  obtain ⟨l, ls, rfl⟩ := List.exists_cons_of_ne_nil h
  rw [closed_cons, below_closed, joinLines, List.append_assoc]

theorem mem_joinLines {c : Char} (h : c ∈ joinLines ls) : c = '\n' ∨ ∃ l ∈ ls, c ∈ l := by
  cases ls with
  | nil => cases h
  | cons l ls =>
    rcases List.mem_append.mp h with h | h
    · exact .inr ⟨l, .head _, h⟩
    · obtain ⟨m, hm, hc⟩ := List.mem_flatMap.mp h
      rcases List.mem_cons.mp hc with hc | hc
      · exact .inl hc
      · exact .inr ⟨m, .tail _ hm, hc⟩

/-- Induction over a text line by line. -/
@[elab_as_elim]
theorem line_induction {motive : Text → Prop} (t : Text) (last : ∀ l, '\n' ∉ l → motive l)
    (cons : ∀ l t, '\n' ∉ l → motive t → motive (l ++ '\n' :: t)) : motive t := by
  induction hn : t.length using Nat.strongRecOn generalizing t with
  | _ n ih =>
    by_cases ht : '\n' ∈ t
    · obtain ⟨l, u, rfl, hl⟩ := List.eq_append_cons_of_mem ht
      refine cons l u hl (ih u.length ?_ u rfl)
      rw [← hn, List.length_append, List.length_cons]
      omega
    · exact last t ht

theorem below_splitOn (t : Text) : below (t.splitOn '\n') = '\n' :: t := by
  induction t using line_induction with
  | last l hl => simp [List.splitOn_eq_singleton hl]
  | cons l t hl ih => simp [List.splitOn_append_cons_self_of_not_mem hl, ih]

theorem notMem_splitOn (t : Text) : ∀ l ∈ t.splitOn '\n', '\n' ∉ l := fun _ h => (mem_splitOn h).1

theorem splitOn_closed (h : ∀ l ∈ ls, '\n' ∉ l) : (closed ls).splitOn '\n' = ls ++ [[]] := by
  induction ls with
  | nil => rfl
  | cons l ls ih =>
    obtain ⟨hl, hls⟩ := List.forall_mem_cons.mp h
    rw [closed_cons, List.splitOn_append_cons_self_of_not_mem hl, ih hls]
    rfl

/-- Lines joined are the lines, if their number is known. -/
theorem joinLines_injective (hls : ∀ l ∈ ls, '\n' ∉ l) (hks : ∀ l ∈ ks, '\n' ∉ l)
    (hlen : ls.length = ks.length) (h : joinLines ls = joinLines ks) : ls = ks := by
  cases ls with
  | nil => exact (List.eq_nil_of_length_eq_zero hlen.symm).symm
  | cons l ls =>
    obtain ⟨k, ks, rfl⟩ := List.exists_cons_of_length_eq_add_one hlen.symm
    have hclosed : closed (l :: ls) = closed (k :: ks) := by
      rw [closed_eq_joinLines (by simp), closed_eq_joinLines (by simp), h]
    have hsplit := splitOn_closed hls
    rw [hclosed, splitOn_closed hks] at hsplit
    exact (List.append_cancel_right hsplit).symm

/-- A text that opens with a line break or is over. -/
def Broken (t : Text) : Prop := ∀ c ∈ t.head?, c = '\n'

theorem broken_below (ls : List Text) : Broken (below ls) := by
  cases ls <;> simp [Broken]

/-- Where a line ends is determined by the text. -/
theorem line_unique (hl : '\n' ∉ l) (hx : '\n' ∉ x) (ht : Broken t) (hy : Broken y)
    (h : l ++ t = x ++ y) : l = x ∧ t = y := by
  refine append_inj_of_all (p := fun c => c != '\n') (fun c hc => ?_) (fun c hc => ?_)
    (fun c hc => by simp [ht c hc]) (fun c hc => by simp [hy c hc]) h
  · exact bne_iff_ne.mpr fun he => hl (he ▸ hc)
  · exact bne_iff_ne.mpr fun he => hx (he ▸ hc)

/-- Whole lines are cut from whole lines at the end of a line. -/
theorem closed_prefix (hls : ∀ l ∈ ls, '\n' ∉ l) (h : closed ls = x ++ y)
    (hx : ∀ c ∈ x.getLast?, c = '\n') :
    ∃ ls₁ ls₂, ls = ls₁ ++ ls₂ ∧ x = closed ls₁ ∧ y = closed ls₂ := by
  induction ls generalizing x with
  | nil =>
    obtain ⟨rfl, rfl⟩ := List.append_eq_nil_iff.mp h.symm
    exact ⟨[], [], rfl, rfl, rfl⟩
  | cons l ls ih =>
    obtain ⟨hl, hls⟩ := List.forall_mem_cons.mp hls
    rw [closed_cons] at h
    rcases List.append_eq_append_iff.mp h with ⟨z, rfl, hz⟩ | ⟨z, rfl, hz⟩
    · cases z with
      | nil =>
        rw [List.append_nil] at hx
        cases hlast : l.getLast? with
        | none =>
          obtain rfl := List.getLast?_eq_none_iff.mp hlast
          exact ⟨[], [] :: ls, rfl, rfl, by simpa using hz.symm⟩
        | some c =>
          obtain rfl := hx c hlast
          exact absurd (List.mem_of_getLast? hlast) hl
      | cons c z =>
        obtain ⟨rfl, htail⟩ : '\n' = c ∧ closed ls = z ++ y := by simpa using hz
        obtain ⟨ls₁, ls₂, rfl, rfl, rfl⟩ := ih hls htail (by
          intro c hc
          refine hx c ?_
          rw [List.getLast?_append]
          cases z <;> simp_all)
        exact ⟨l :: ls₁, ls₂, rfl, by simp, rfl⟩
    · cases hlast : x.getLast? with
      | none =>
        obtain rfl := List.getLast?_eq_none_iff.mp hlast
        exact ⟨[], (z :: ls), rfl, rfl, by simpa using hz⟩
      | some c =>
        obtain rfl := hx c hlast
        exact absurd (List.mem_append_left z (List.mem_of_getLast? hlast)) hl

/-! Lines as `splitlines` cuts them. -/

variable {line e : Text} {c : Char}

theorem isSpace_of_isBreak (h : isBreak c) : isSpace c := by
  have hcodes : ∀ n ∈ [10, 11, 12, 13, 28, 29, 30, 133, 8232, 8233], n ∈ spaceCodes := by decide
  have hc := hcodes c.toNat (by simpa [isBreak] using h)
  simpa [isSpace] using hc

theorem not_isBreak_of_not_isSpace (h : isSpace c = false) : isBreak c = false := by
  by_contra hbreak
  rw [Bool.not_eq_false] at hbreak
  simp [isSpace_of_isBreak hbreak] at h

/-- What ends a line that the text goes on behind: both characters of a pair are one end. -/
def LineEnd (e t : Text) : Prop :=
  e = ['\r', '\n'] ∨ ∃ c, e = [c] ∧ isBreak c ∧ (c = '\r' → ∀ u, t ≠ '\n' :: u)

theorem LineEnd.append (h : LineEnd e t) (hne : t ≠ []) : LineEnd e (t ++ v) := by
  obtain ⟨d, t, rfl⟩ := List.exists_cons_of_ne_nil hne
  rcases h with rfl | ⟨c, rfl, hc, hno⟩
  · exact .inl rfl
  · refine .inr ⟨c, rfl, hc, fun hr u hu => ?_⟩
    obtain ⟨rfl, -⟩ := List.cons.inj hu
    exact hno hr t rfl

theorem splitLinesFrom_nil (line : Text) :
    splitLinesFrom line [] = if line.isEmpty then [] else [line.reverse] := rfl

theorem splitLinesFrom_char (h : c = '\r' → ∀ u, t ≠ '\n' :: u) :
    splitLinesFrom line (c :: t) = if isBreak c then line.reverse :: splitLinesFrom [] t
      else splitLinesFrom (c :: line) t :=
  splitLinesFrom.eq_3 line c t fun u hr hu => h hr u hu

theorem splitLinesFrom_end (h : LineEnd e t) :
    splitLinesFrom line (e ++ t) = line.reverse :: splitLinesFrom [] t := by
  rcases h with rfl | ⟨c, rfl, hc, hno⟩
  · rfl
  · rw [List.singleton_append, splitLinesFrom_char hno, if_pos hc]

theorem splitLinesFrom_cons (h : isBreak c = false) :
    splitLinesFrom line (c :: t) = splitLinesFrom (c :: line) t := by
  have hr : c ≠ '\r' := by
    rintro rfl
    exact absurd h (by decide)
  rw [splitLinesFrom_char fun he => absurd he hr, if_neg (by simp [h])]

/-- Induction over the lines of a text, character by character. -/
@[elab_as_elim]
theorem splitLinesFrom_induction {motive : Text → Text → Prop} (line t : Text)
    (last : ∀ line, motive line [])
    (ends : ∀ line e t, LineEnd e t → motive [] t → motive line (e ++ t))
    (goes : ∀ line c t, isBreak c = false → motive (c :: line) t → motive line (c :: t)) :
    motive line t := by
  induction line, t using splitLinesFrom.induct with
  | case1 line => exact last line
  | case2 line => exact last line
  | case3 line t ih => exact ends line _ t (.inl rfl) ih
  | case4 line c t hno hbreak ih =>
    exact ends line [c] t (.inr ⟨c, rfl, hbreak, fun hr u hu => hno u hr hu⟩) ih
  | case5 line c t _ hbreak ih => exact goes line c t (by simpa using hbreak) ih

theorem splitLinesFrom_append (h : ∀ c ∈ l, isBreak c = false) :
    splitLinesFrom r (l ++ t) = splitLinesFrom (l.reverse ++ r) t := by
  induction l generalizing r with
  | nil => rfl
  | cons c l ih =>
    obtain ⟨hc, hl⟩ := List.forall_mem_cons.mp h
    rw [List.cons_append, splitLinesFrom_cons hc, ih hl]
    simp

theorem head?_splitLinesFrom (h : line ≠ []) :
    ∃ r, (splitLinesFrom line t).head? = some (line.reverse ++ r) := by
  induction line, t using splitLinesFrom_induction with
  | last line => exact ⟨[], by simp [splitLinesFrom_nil, h]⟩
  | ends line e t he ih => exact ⟨[], by simp [splitLinesFrom_end he]⟩
  | goes line c t hc ih =>
    obtain ⟨r, hr⟩ := ih (List.cons_ne_nil _ _)
    exact ⟨c :: r, by simp [splitLinesFrom_cons hc, hr]⟩

/-- A text without breaks is one line. -/
theorem splitLines_unbroken (h : ∀ c ∈ l, isBreak c = false) (hl : l ≠ []) :
    splitLines l = [l] := by
  have hfrom := splitLinesFrom_append (r := []) (t := []) h
  rw [List.append_nil, List.append_nil] at hfrom
  rw [splitLines, hfrom, splitLinesFrom_nil]
  simp [hl]

theorem splitLines_crlf (hl : ∀ c ∈ l, isBreak c = false) :
    splitLines (l ++ '\r' :: '\n' :: v) = l :: splitLines v := by
  have hend : splitLinesFrom (l.reverse ++ []) (['\r', '\n'] ++ v) = _ :=
    splitLinesFrom_end (.inl rfl)
  rw [splitLines, splitLinesFrom_append hl]
  simpa [splitLines] using hend

theorem splitLines_break (hl : ∀ c ∈ l, isBreak c = false) (hc : isBreak c)
    (hcr : c = '\r' → ∀ w, v ≠ '\n' :: w) : splitLines (l ++ c :: v) = l :: splitLines v := by
  have hend : splitLinesFrom (l.reverse ++ []) ([c] ++ v) = _ :=
    splitLinesFrom_end (.inr ⟨c, rfl, hc, hcr⟩)
  rw [splitLines, splitLinesFrom_append hl]
  simpa [splitLines] using hend

theorem length_splitLines_joinLines (h : ∀ l ∈ ls, ∀ c ∈ l, isBreak c = false) :
    (splitLines (joinLines ls)).length ≤ ls.length := by
  induction ls with
  | nil => rfl
  | cons l ls ih =>
    obtain ⟨hl, hls⟩ := List.forall_mem_cons.mp h
    cases ls with
    | nil =>
      by_cases hnil : l = []
      · subst hnil
        simp [joinLines, splitLines, splitLinesFrom_nil]
      · simp [joinLines, splitLines_unbroken hl hnil]
    | cons k ls =>
      have hjoin : joinLines (l :: k :: ls) = l ++ '\n' :: joinLines (k :: ls) := rfl
      rw [hjoin, splitLines_break hl (by decide) (fun hr => absurd hr (by decide))]
      exact Nat.succ_le_succ (ih hls)

/-- A line break ends what stands before it. -/
theorem splitLinesFrom_newline (hl : ∀ c ∈ l.getLast?, isBreak c = false) (hne : line ≠ [] ∨ l ≠ []) :
    splitLinesFrom line (l ++ '\n' :: t) = splitLinesFrom line l ++ splitLines t := by
  induction line, l using splitLinesFrom_induction with
  | last line =>
    have hline : line ≠ [] := by simpa using hne
    have hend : splitLinesFrom line (['\n'] ++ t) = _ :=
      splitLinesFrom_end (.inr ⟨'\n', rfl, by decide, fun hr => absurd hr (by decide)⟩)
    simpa [splitLinesFrom_nil, splitLines, hline] using hend
  | ends line e t' he ih =>
    have hne' : t' ≠ [] := by
      rintro rfl
      rcases he with rfl | ⟨c, rfl, hc, -⟩
      · exact absurd (hl '\n' rfl) (by decide)
      · simp [hc] at hl
    have hlast : ∀ c ∈ t'.getLast?, isBreak c = false := by
      simpa [List.getLast?_append_of_ne_nil _ hne'] using hl
    rw [List.append_assoc, splitLinesFrom_end (he.append hne'), splitLinesFrom_end he,
      ih hlast (.inr hne')]
    rfl
  | goes line c t' hc ih =>
    have hlast : ∀ c ∈ t'.getLast?, isBreak c = false := by
      intro d hd
      refine hl d ?_
      cases t' with
      | nil => cases hd
      | cons e u => simpa using hd
    rw [List.cons_append, splitLinesFrom_cons hc, splitLinesFrom_cons hc,
      ih hlast (.inl (List.cons_ne_nil _ _))]

theorem splitLines_closed (h : ∀ l ∈ ls, l ≠ [] ∧ ∀ c ∈ l.getLast?, isBreak c = false) :
    splitLines (closed ls) = ls.flatMap splitLines := by
  induction ls with
  | nil => rfl
  | cons l ls ih =>
    obtain ⟨⟨hne, hlast⟩, hls⟩ := List.forall_mem_cons.mp h
    rw [closed_cons, splitLines, splitLinesFrom_newline hlast (.inr hne), ih hls, List.flatMap_cons]
    rfl

theorem mem_splitLinesFrom (h : l ∈ splitLinesFrom line t) (hc : c ∈ l)
    (hline : ∀ c ∈ line, isBreak c = false) :
    isBreak c = false ∧ (c ∈ line ∨ c ∈ t) := by
  induction line, t using splitLinesFrom_induction with
  | last line =>
    have hmem : c ∈ line := by
      rw [splitLinesFrom_nil] at h
      split at h
      · cases h
      · simpa [List.mem_singleton.mp h] using hc
    exact ⟨hline c hmem, .inl hmem⟩
  | ends line e t he ih =>
    rw [splitLinesFrom_end he] at h
    rcases List.mem_cons.mp h with rfl | h
    · have hmem : c ∈ line := by simpa using hc
      exact ⟨hline c hmem, .inl hmem⟩
    · obtain ⟨hb, hmem | hmem⟩ := ih h (by simp)
      · cases hmem
      · exact ⟨hb, .inr (List.mem_append_right e hmem)⟩
  | goes line d t hd ih =>
    rw [splitLinesFrom_cons hd] at h
    obtain ⟨hb, hmem | hmem⟩ := ih h (List.forall_mem_cons.mpr ⟨hd, hline⟩)
    · rcases List.mem_cons.mp hmem with rfl | hmem
      · exact ⟨hb, .inr (List.mem_cons_self ..)⟩
      · exact ⟨hb, .inl hmem⟩
    · exact ⟨hb, .inr (List.mem_cons_of_mem _ hmem)⟩

theorem infix_splitLinesFrom (h : l ∈ splitLinesFrom line t) : l <:+: line.reverse ++ t := by
  induction line, t using splitLinesFrom_induction with
  | last line =>
    rw [splitLinesFrom_nil] at h
    split at h
    · cases h
    · rw [List.mem_singleton.mp h]
      exact (List.prefix_append _ _).isInfix
  | ends line e t he ih =>
    rw [splitLinesFrom_end he] at h
    rcases List.mem_cons.mp h with rfl | h
    · exact (List.prefix_append _ _).isInfix
    · refine (ih h).trans ⟨line.reverse ++ e, [], ?_⟩
      simp
  | goes line d t hd ih =>
    rw [splitLinesFrom_cons hd] at h
    simpa using ih h

/-- A line is a stretch of the text. -/
theorem infix_of_mem_splitLines (h : l ∈ splitLines t) : l <:+: t := infix_splitLinesFrom h

/-- The first line goes on from what was read so far. -/
theorem prefix_splitLinesFrom (h : l ∈ (splitLinesFrom line t).head?) :
    line.reverse <+: l ∧ l <+: line.reverse ++ t := by
  induction line, t using splitLinesFrom_induction with
  | last line =>
    rw [splitLinesFrom_nil] at h
    split at h
    · cases h
    · obtain rfl := Option.some.inj h
      exact ⟨List.prefix_refl _, List.prefix_append _ _⟩
  | ends line e t he ih =>
    rw [splitLinesFrom_end he] at h
    obtain rfl := Option.some.inj h
    exact ⟨List.prefix_refl _, List.prefix_append _ _⟩
  | goes line d t hd ih =>
    rw [splitLinesFrom_cons hd] at h
    obtain ⟨hline, hl⟩ := ih h
    refine ⟨?_, by simpa using hl⟩
    exact List.IsPrefix.trans ⟨[d], by simp⟩ hline

/-- A text that begins with a character that breaks no line has a first line, which begins the
text. -/
theorem splitLines_cons (h : isBreak c = false) (t : Text) :
    ∃ w ls, splitLines (c :: t) = (c :: w) :: ls ∧ w <+: t := by
  have hfrom := splitLinesFrom_append (r := []) (t := t) (l := [c]) (by simpa using h)
  cases hls : splitLinesFrom [c] t with
  | nil =>
    obtain ⟨r, hr⟩ := head?_splitLinesFrom (t := t) (List.cons_ne_nil c [])
    rw [hls] at hr
    cases hr
  | cons l ls =>
    have hhead : l ∈ (splitLinesFrom [c] t).head? := by rw [hls]; rfl
    obtain ⟨⟨w, rfl⟩, hl⟩ := prefix_splitLinesFrom hhead
    refine ⟨w, ls, hfrom.trans hls, ?_⟩
    simpa using hl

/-- A line has no line break in it. -/
theorem mem_splitLines (h : l ∈ splitLines t) (hc : c ∈ l) : isBreak c = false ∧ c ∈ t := by
  obtain ⟨hb, hmem | hmem⟩ := mem_splitLinesFrom h hc (by simp)
  · cases hmem
  · exact ⟨hb, hmem⟩

end PyText

open PyText

namespace Regex

variable {γ : Type} {r q b : Regex γ} {m : Match γ} {s s' t' : Pos γ} {g : γ} {p : Char → Bool}
  {x y l t v w rest : Text} {c : Char} {n : Nat}

/-- Patterns that look behind only for the start of a line. -/
def Lined : Regex γ → Prop
  | eps | cls _ | textEnd | lineEnd | lineStart => True
  | seq a b | alt a b => a.Lined ∧ b.Lined
  | star r | lazy r | group _ r | ahead r | notAhead r => r.Lined
  | _ => False

/-- What `lineStart` asks of the text already read, nearest character first. -/
def atLineStart (before : Text) : Bool := before.head?.all (· == '\n')

/-- The same text ahead, and a line starts here for both or for neither. -/
structure Pos.Sees (s s' : Pos γ) : Prop where
  after : s.after = s'.after
  caps : s.caps = s'.caps
  line : atLineStart s.before = atLineStart s'.before

theorem iter_sees {f : Pos γ → List (Pos γ)}
    (hf : ∀ {s s'}, s.Sees s' → List.Forall₂ Pos.Sees (f s) (f s')) (greedy : Bool) (n : Nat)
    (h : s.Sees s') : List.Forall₂ Pos.Sees (iter f greedy n s) (iter f greedy n s') := by
  induction n generalizing s s' with
  | zero => exact .cons h .nil
  | succ n ih =>
    have hfilter : List.Forall₂ Pos.Sees
        ((f s).filter fun t => t.after.length < s.after.length)
        ((f s').filter fun t => t.after.length < s'.after.length) := by
      rw [← h.after]
      exact List.rel_filter (fun u u' hu => by simp [hu.after]) (hf h)
    have hmore := List.rel_flatMap hfilter fun u u' hu => ih hu
    cases greedy with
    | true => exact List.rel_append hmore (.cons h .nil)
    | false => exact .cons h hmore

theorem isEmpty_sees {l l' : List (Pos γ)} (h : List.Forall₂ Pos.Sees l l') :
    l.isEmpty = l'.isEmpty := by
  cases h <;> rfl

theorem head?_sees {l l' : List (Pos γ)} (h : List.Forall₂ Pos.Sees l l') :
    l.head?.map (fun u => (u.after, u.caps)) = l'.head?.map fun u => (u.after, u.caps) := by
  cases h with
  | nil => rfl
  | cons hu _ => simp [hu.after, hu.caps]

theorem run_sees (hr : r.Lined) (h : s.Sees s') : List.Forall₂ Pos.Sees (r.run s) (r.run s') := by
  induction r generalizing s s' with
  | seq a b iha ihb => exact List.rel_flatMap (iha hr.1 h) fun u u' hu => ihb hr.2 hu
  | alt a b iha ihb => exact List.rel_append (iha hr.1 h) (ihb hr.2 h)
  | star r ih =>
    simp only [run, h.after]
    exact iter_sees (ih hr) true _ h
  | lazy r ih =>
    simp only [run, h.after]
    exact iter_sees (ih hr) false _ h
  | group g r ih =>
    refine List.rel_map (fun u u' hu => ⟨hu.after, ?_, hu.line⟩) (ih hr h)
    simp only [Pos.capture, Pos.since, h.after, hu.after, hu.caps]
  | ahead r ih | notAhead r ih =>
    have hempty : (r.run s).isEmpty = (r.run s').isEmpty := isEmpty_sees (ih hr h)
    simp only [run, hempty]
    split
    · first | exact .nil | exact .cons h .nil
    · first | exact .nil | exact .cons h .nil
  | cls p =>
    obtain ⟨before, after, caps⟩ := s
    obtain ⟨before', after', caps'⟩ := s'
    obtain ⟨rfl, rfl, -⟩ := h
    cases after with
    | nil => exact .nil
    | cons c after =>
      simp only [run]
      split
      · exact .cons ⟨rfl, rfl, rfl⟩ .nil
      · exact .nil
  | eps => exact .cons h .nil
  | lineStart =>
    have hline := h.line
    unfold atLineStart at hline
    simp only [run, hline]
    split
    · exact .cons h .nil
    · exact .nil
  | textEnd | lineEnd =>
    simp only [run, h.after]
    split
    · exact .cons h .nil
    · exact .nil
  | _ => exact hr.elim

theorem first_sees (hr : r.Lined) (h : atLineStart x = atLineStart y) (t : Text) :
    r.first x t = r.first y t := by
  have hrun := run_sees hr (show Pos.Sees ⟨x, t, []⟩ ⟨y, t, []⟩ from ⟨rfl, rfl, h⟩)
  have hfirst : ∀ z, r.first z t = ((r.run ⟨z, t, []⟩).head?.map fun u => (u.after, u.caps)).map
      fun u => (⟨t.take (t.length - u.1.length), u.2⟩, u.1) := by
    intro z
    rw [Option.map_map]
    rfl
  rw [hfirst x, hfirst y, head?_sees hrun]

theorem scan_sees (hr : r.Lined) (h : atLineStart x = atLineStart y) (n : Nat) (t : Text) :
    scan r n x t = scan r n y t := by
  induction n generalizing x y t with
  | zero => rfl
  | succ n ih =>
    cases t with
    | nil => rfl
    | cons c t =>
      rw [scan, scan, first_sees hr h, ih (x := c :: x) (y := c :: y) rfl]
      split
      · rfl
      · split
        · rfl
        · rename_i m _ _ hne
          obtain ⟨d, u, hu⟩ := List.exists_cons_of_ne_nil (List.reverse_ne_nil_iff.mpr hne)
          rw [hu, ih (x := d :: u ++ x) (y := d :: u ++ y) rfl]

/-- The cut of a text of which some has been read. -/
def piecesFrom (r : Regex γ) (before t : Text) : List (Piece γ) := scan r t.length before t

theorem piecesFrom_plain (h : r.first x (c :: t) = none) :
    r.piecesFrom x (c :: t) = .plain c :: r.piecesFrom (c :: x) t := by
  unfold piecesFrom
  simp only [List.length_cons, scan, h]

theorem piecesFrom_hit (hm : m.text ≠ []) (h : r.first x t = some (m, rest)) :
    r.piecesFrom x t = .hit m :: r.piecesFrom (m.text.reverse ++ x) rest := by
  have ht := first_reads h
  obtain ⟨c, u, hu⟩ := List.exists_cons_of_ne_nil hm
  subst ht
  unfold piecesFrom
  rw [hu] at h ⊢
  simp only [List.cons_append, List.length_cons, scan] at h ⊢
  simp only [h, hu, reduceCtorEq, if_false]
  rw [scan_fuel (by simp) le_rfl]

/-- `sub` on a text of which some has been read. -/
def subFrom (r : Regex γ) (f : Match γ → Text) (before t : Text) : Text :=
  (r.piecesFrom before t).flatMap (Piece.rewrite f)

theorem subFrom_plain {f : Match γ → Text} (h : r.first x (c :: t) = none) :
    r.subFrom f x (c :: t) = c :: r.subFrom f (c :: x) t := by
  rw [subFrom, piecesFrom_plain h]
  rfl

theorem subFrom_hit {f : Match γ → Text} (hm : m.text ≠ []) (h : r.first x t = some (m, rest)) :
    r.subFrom f x t = f m ++ r.subFrom f (m.text.reverse ++ x) rest := by
  rw [subFrom, piecesFrom_hit hm h]
  rfl

theorem piecesFrom_line (hr : r.Lined) (h : atLineStart x) (t : Text) :
    r.piecesFrom x t = r.pieces t := scan_sees hr (y := []) (by simpa [atLineStart] using h) _ t

/-- A pattern that starts with `lineStart` matches nowhere else. -/
theorem first_midLine (h : atLineStart x = false) : (seq lineStart q).first x t = none := by
  have hx : x.head?.all (· == '\n') = false := h
  simp [first, run, hx]

theorem piecesFrom_midLine (hl : '\n' ∉ l) (hx : atLineStart x = false) :
    (seq lineStart q).piecesFrom x (l ++ t) =
      l.map .plain ++ (seq lineStart q).piecesFrom (l.reverse ++ x) t := by
  induction l generalizing x with
  | nil => rfl
  | cons c l ih =>
    obtain ⟨hc, hl⟩ : '\n' ≠ c ∧ '\n' ∉ l := by simpa using hl
    have hc : atLineStart (c :: x) = false := by simp [atLineStart, Ne.symm hc]
    rw [List.cons_append, piecesFrom_plain (first_midLine hx), ih hl hc]
    simp

/-- The rest of a line behind its first character, and the line break. -/
theorem piecesFrom_restLine (hq : q.Lined) (hl : '\n' ∉ l) (hx : atLineStart x = false) :
    (seq lineStart q).piecesFrom x (l ++ '\n' :: t) =
      l.map .plain ++ .plain '\n' :: (seq lineStart q).pieces t := by
  have hend : atLineStart (l.reverse ++ x) = false := by
    cases hl' : l.reverse with
    | nil => exact hx
    | cons d u =>
      have hd : d ≠ '\n' := fun he => hl (by rw [← List.mem_reverse, hl', he]; simp)
      simp [atLineStart, hd]
  rw [piecesFrom_midLine hl hx, piecesFrom_plain (first_midLine hend),
    piecesFrom_line (show (seq lineStart q).Lined from ⟨trivial, hq⟩) (by simp [atLineStart])]

/-- A line at whose start the pattern does not match passes through. -/
theorem pieces_line (hq : q.Lined) (hl : '\n' ∉ l)
    (h : (seq lineStart q).first [] (l ++ '\n' :: t) = none) :
    (seq lineStart q).pieces (l ++ '\n' :: t) =
      l.map .plain ++ .plain '\n' :: (seq lineStart q).pieces t := by
  cases l with
  | nil =>
    refine (piecesFrom_plain h).trans ?_
    rw [piecesFrom_line (show (seq lineStart q).Lined from ⟨trivial, hq⟩) (by simp [atLineStart])]
    rfl
  | cons c l =>
    obtain ⟨hc, hl⟩ : '\n' ≠ c ∧ '\n' ∉ l := by simpa using hl
    have hrest := piecesFrom_restLine (t := t) hq hl
      (show atLineStart (c :: []) = false by simp [atLineStart, Ne.symm hc])
    exact (piecesFrom_plain h).trans (congrArg _ hrest)

theorem pieces_lastLine (hl : '\n' ∉ l) (h : (seq lineStart q).first [] l = none) :
    (seq lineStart q).pieces l = l.map .plain := by
  cases l with
  | nil => rfl
  | cons c l =>
    obtain ⟨hc, hl⟩ : '\n' ≠ c ∧ '\n' ∉ l := by simpa using hl
    have hmid := piecesFrom_midLine (q := q) (t := []) hl
      (show atLineStart (c :: []) = false by simp [atLineStart, Ne.symm hc])
    refine (piecesFrom_plain h).trans ?_
    rw [List.append_nil] at hmid
    rw [hmid]
    simp [piecesFrom, scan]

/-- A match that ends with its line. -/
theorem pieces_lineHit (hq : q.Lined) (hm : m.text ≠ [])
    (hlast : m.text.getLast? ≠ some '\n')
    (h : (seq lineStart q).first [] t = some (m, '\n' :: rest)) :
    (seq lineStart q).pieces t = .hit m :: .plain '\n' :: (seq lineStart q).pieces rest := by
  have hend : atLineStart (m.text.reverse ++ []) = false := by
    have hne := List.reverse_ne_nil_iff.mpr hm
    obtain ⟨d, u, hu⟩ := List.exists_cons_of_ne_nil hne
    have hd : m.text.getLast? = some d := by rw [← List.head?_reverse, hu]; rfl
    have hd : d ≠ '\n' := fun he => hlast (he ▸ hd)
    simp [hu, atLineStart, hd]
  refine (piecesFrom_hit hm h).trans ?_
  have hrest := piecesFrom_restLine (t := rest) hq (List.not_mem_nil (a := '\n')) hend
  rw [List.nil_append] at hrest
  rw [hrest]
  rfl

theorem pieces_lastHit (hm : m.text ≠ []) (h : r.first [] t = some (m, [])) :
    r.pieces t = [.hit m] :=
  piecesFrom_hit hm h

theorem run_lit (h : s.after = w ++ v) : (lit w).run s = [s.skip w] := by
  induction w generalizing s with
  | nil => rfl
  | cons c w ih =>
    obtain ⟨before, after, caps⟩ := s
    obtain rfl : after = c :: (w ++ v) := h
    have htail := @ih ⟨c :: before, w ++ v, caps⟩ rfl
    simp [lit, chr, run, htail, Pos.skip]

theorem mem_run_seq_lineStart :
    t' ∈ (seq lineStart b).run s ↔ atLineStart s.before ∧ t' ∈ b.run s := by
  unfold atLineStart
  by_cases h : s.before.head?.all (· == '\n') <;> simp [run, h]

theorem mem_run_lineEnd : t' ∈ (lineEnd : Regex γ).run s ↔ Broken s.after ∧ t' = s := by
  have hiff : s.after.head?.all (· == '\n') ↔ Broken s.after := by
    cases h : s.after.head? <;> simp [Broken, h]
  by_cases h : s.after.head?.all (· == '\n')
  · simp [run, h, hiff.mp h]
  · simp [run, h, mt hiff.mpr h]

/-- A lazy repetition, some of it read, stops where the pattern behind it first matches. -/
theorem head?_iter_lazy {x y : Text} (hp : ∀ c ∈ w, p c) (hs : s.after = w ++ v)
    (hno : ∀ x' y', w = x' ++ y' → x <+: x' → y' ≠ [] →
      b.run { s.skip x' with caps := (g, x') :: s.caps } = [])
    (hb : (b.run { s.skip w with caps := (g, w) :: s.caps }).head? = some u) (n : Nat)
    (hw : w = x ++ y) (hy : y.length ≤ n) :
    (((iter (cls p).run false n (s.skip x)).map (Pos.capture g s)).flatMap b.run).head? =
      some u := by
  have hcap : ∀ x z, s.after = x ++ z →
      Pos.capture g s (s.skip x) = { s.skip x with caps := (g, x) :: s.caps } := by
    intro x z hx
    simp [Pos.capture, since_skip (hx.trans (congrArg _ (skip_after hx).symm))]
  induction n generalizing x y with
  | zero =>
    obtain rfl := List.eq_nil_of_length_eq_zero (Nat.le_zero.mp hy)
    obtain rfl : w = x := by simpa using hw
    simp [iter, hcap w v hs, hb]
  | succ n ih =>
    have hx : s.after = x ++ (y ++ v) := by rw [hs, hw, List.append_assoc]
    cases y with
    | nil =>
      obtain rfl : w = x := by simpa using hw
      simp [iter, hcap w v hs, hb]
    | cons c y =>
      have hafter : (s.skip x).after = c :: (y ++ v) := skip_after hx
      have hc : p c := hp c (by simp [hw])
      have hstep : (cls p).run (s.skip x) = [s.skip (x ++ [c])] := by
        rw [← skip_skip]
        rcases h : s.skip x with ⟨bf, af, cs⟩
        rw [h] at hafter
        obtain rfl : af = _ := hafter
        simp [run, hc, Pos.skip]
      have hlt : (s.skip (x ++ [c])).after.length < (s.skip x).after.length := by
        rw [skip_after (v := y ++ v) (by simpa using hx), hafter]
        simp
      have hlonger : ∀ x' y', w = x' ++ y' → x ++ [c] <+: x' → y' ≠ [] →
          b.run { s.skip x' with caps := (g, x') :: s.caps } = [] :=
        fun x' y' hw' hprefix => hno x' y' hw' ((List.prefix_append x [c]).trans hprefix)
      have hmore := ih hlonger (by simpa using hw) (by simpa using hy)
      simp only [iter, hstep, List.filter_cons, hlt, decide_true, if_true, List.filter_nil,
        List.flatMap_cons, List.flatMap_nil, List.append_nil, Bool.false_eq_true, if_false,
        List.map_cons, hcap x _ hx, hno x _ hw (List.prefix_refl x) (by simp), List.nil_append]
      exact hmore

/-- A lazy repetition stops where the pattern behind it first matches. -/
theorem head?_run_seq_lazy (hp : ∀ c ∈ w, p c) (hs : s.after = w ++ v)
    (hno : ∀ x y, w = x ++ y → y ≠ [] → b.run { s.skip x with caps := (g, x) :: s.caps } = [])
    (hb : (b.run { s.skip w with caps := (g, w) :: s.caps }).head? = some u) :
    ((seq (group g (lazy (cls p))) b).run s).head? = some u := by
  have hlen : w.length ≤ s.after.length := by simp [hs]
  have hiter := head?_iter_lazy (x := []) hp hs (fun x y hw _ => hno x y hw) hb s.after.length rfl
    hlen
  simpa [run] using hiter

/-- The same for a repetition of at least one round. -/
theorem head?_run_seq_plusLazy (hp : ∀ c ∈ w, p c) (hs : s.after = w ++ v) (hw : w ≠ [])
    (hno : ∀ x y, w = x ++ y → x ≠ [] → y ≠ [] →
      b.run { s.skip x with caps := (g, x) :: s.caps } = [])
    (hb : (b.run { s.skip w with caps := (g, w) :: s.caps }).head? = some u) :
    ((seq (group g (seq (cls p) (lazy (cls p)))) b).run s).head? = some u := by
  obtain ⟨c, y, rfl⟩ := List.exists_cons_of_ne_nil hw
  have hstep : (cls p).run s = [s.skip [c]] := by
    obtain ⟨bf, af, cs⟩ := s
    obtain rfl : af = c :: (y ++ v) := hs
    simp [run, hp c (.head _), Pos.skip]
  have hlen : y.length ≤ (s.skip [c]).after.length := by
    rw [skip_after (v := y ++ v) (by simpa using hs)]
    simp
  have hiter := head?_iter_lazy (x := [c]) hp hs
    (fun x' y' hw' hprefix => hno x' y' hw' (by rintro rfl; simp at hprefix)) hb
    (s.skip [c]).after.length rfl hlen
  have hrun : (group g (seq (cls p) (lazy (cls p)))).run s =
      (iter (cls p).run false (s.skip [c]).after.length (s.skip [c])).map (Pos.capture g s) := by
    simp only [run.eq_7, run.eq_3, hstep, List.flatMap_singleton, run.eq_6]
  rw [run, hrun]
  exact hiter

end Regex

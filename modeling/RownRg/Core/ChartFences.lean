import RownRg.Core.Charts
import RownRg.Lib.Lines

/-! A body as its chart fences and the lines between them. -/

open PyText Regex

namespace RownRg.Charts

variable {l t x v hd cl rest : Text} {ls body : List Text} {q : Pos FenceGroup} {c : Char}

/-- `[ \t]` -/
def isBlank (c : Char) : Bool := " \t".toList.contains c

/-- A word with nothing but blanks behind it. -/
def isFenceLine (word l : Text) : Bool :=
  word.isPrefixOf l && (l.drop word.length).all isBlank

def isHeader : Text → Bool := isFenceLine "```chart".toList

def isClosing : Text → Bool := isFenceLine "```".toList

theorem isFenceLine_iff {word : Text} :
    isFenceLine word l ↔ ∃ w, (∀ c ∈ w, isBlank c) ∧ l = word ++ w := by
  unfold isFenceLine
  rw [Bool.and_eq_true, List.isPrefixOf_iff_prefix, List.all_eq_true]
  constructor
  · rintro ⟨⟨w, rfl⟩, hw⟩
    exact ⟨w, by simpa using hw, rfl⟩
  · rintro ⟨w, hw, rfl⟩
    exact ⟨⟨w, rfl⟩, by simpa using hw⟩

theorem not_isBlank_newline : isBlank '\n' = false := by decide

theorem accepts_blanks {γ : Type} {w : Text} :
    (blanks : Regex γ).Accepts w ↔ ∀ c ∈ w, isBlank c := accepts_star_cls

theorem notMem_fenceLine {word : Text} (hw : '\n' ∉ word) (h : isFenceLine word l) : '\n' ∉ l := by
  obtain ⟨w, hblank, rfl⟩ := isFenceLine_iff.1 h
  rw [List.mem_append, not_or]
  exact ⟨hw, fun hn => absurd (hblank _ hn) (by decide)⟩

/-! The closing line. -/

/-- The end of `chartFenceRe`. -/
def closingRe : Regex FenceGroup := cat [lineStart, lit "```".toList, blanks, lineEnd]

theorem mem_closingRe {bf af : Text} {cs : List (FenceGroup × Text)}
    (h : q ∈ closingRe.run ⟨bf, af, cs⟩) :
    atLineStart bf ∧ ∃ cl rest, isClosing cl ∧ Broken rest ∧ af = cl ++ rest := by
  simp only [closingRe, cat] at h
  rw [mem_run_seq_lineStart, mem_run_seq_plain (plain_lit _)] at h
  obtain ⟨hstart, w, v, hw, rfl, h⟩ := h
  obtain rfl := accepts_lit.1 hw
  rw [mem_run_seq_plain (by trivial)] at h
  obtain ⟨w, rest, hw, rfl, h⟩ := h
  obtain ⟨hrest, -⟩ := mem_run_lineEnd.1 h
  refine ⟨hstart, _, rest, isFenceLine_iff.2 ⟨w, accepts_blanks.1 hw, rfl⟩, hrest, ?_⟩
  rw [List.append_assoc]

theorem takeWhile_blank {w : Text} (hw : ∀ c ∈ w, isBlank c) (hrest : Broken rest) :
    (w ++ rest).takeWhile isBlank = w := by
  rw [List.takeWhile_append_of_pos hw]
  cases rest with
  | nil => simp
  | cons c rest =>
    obtain rfl := hrest c rfl
    simp [not_isBlank_newline]

theorem head?_closingRe {bf : Text} {cs : List (FenceGroup × Text)} (hbf : atLineStart bf)
    (hcl : isClosing cl) (hrest : Broken rest) :
    (closingRe.run ⟨bf, cl ++ rest, cs⟩).head? = some ⟨cl.reverse ++ bf, rest, cs⟩ := by
  obtain ⟨w, hw, rfl⟩ := isFenceLine_iff.1 hcl
  have hstart : (lineStart : Regex FenceGroup).run ⟨bf, "```".toList ++ w ++ rest, cs⟩ =
      [⟨bf, "```".toList ++ w ++ rest, cs⟩] := by
    unfold atLineStart at hbf
    simp [run, hbf]
  have hlit := run_lit (γ := FenceGroup) (s := ⟨bf, "```".toList ++ w ++ rest, cs⟩)
    (List.append_assoc ..)
  obtain ⟨l, hl⟩ := run_star_cls (γ := FenceGroup) isBlank
    (Pos.skip ⟨bf, "```".toList ++ w ++ rest, cs⟩ "```".toList)
  rw [skip_after (List.append_assoc ..), takeWhile_blank hw hrest, skip_skip] at hl
  have hend : (lineEnd : Regex FenceGroup).run
      (Pos.skip ⟨bf, "```".toList ++ w ++ rest, cs⟩ ("```".toList ++ w)) =
        [⟨("```".toList ++ w).reverse ++ bf, rest, cs⟩] := by
    rw [skip_eq rfl]
    cases rest with
    | nil => rfl
    | cons c rest =>
      obtain rfl := hrest c rfl
      rfl
  exact head?_run_seq hstart (head?_run_seq hlit (head?_run_seq hl (congrArg List.head? hend)))

/-! One fence. -/

def fenceMatch (hd : Text) (body : List Text) (cl : Text) : Match FenceGroup :=
  ⟨hd ++ '\n' :: (closed body ++ cl), [(.body, closed body)]⟩

theorem notMem_header (h : isHeader hd) : '\n' ∉ hd := notMem_fenceLine (by decide) h

theorem notMem_closing (h : isClosing cl) : '\n' ∉ cl := notMem_fenceLine (by decide) h

theorem first_fence (hhd : isHeader hd) (hbody : ∀ l ∈ body, '\n' ∉ l ∧ isClosing l = false)
    (hcl : isClosing cl) (hrest : Broken rest) :
    chartFenceRe.first [] (hd ++ '\n' :: (closed body ++ (cl ++ rest))) =
      some (fenceMatch hd body cl, rest) := by
  obtain ⟨w, hw, rfl⟩ := isFenceLine_iff.1 hhd
  generalize ht : "```chart".toList ++ w ++ '\n' :: (closed body ++ (cl ++ rest)) = t
  have hstart : (lineStart : Regex FenceGroup).run ⟨[], t, []⟩ = [⟨[], t, []⟩] := rfl
  have hlit := run_lit (γ := FenceGroup) (s := ⟨[], t, []⟩) (w := "```chart".toList)
    (v := w ++ '\n' :: (closed body ++ (cl ++ rest))) (by simp [← ht])
  obtain ⟨l, hl⟩ := run_star_cls (γ := FenceGroup) isBlank
    (Pos.skip ⟨[], t, []⟩ "```chart".toList)
  rw [skip_after (v := w ++ '\n' :: (closed body ++ (cl ++ rest))) (by simp [← ht]),
    takeWhile_blank hw (by simp [Broken]), skip_skip] at hl
  have hskip : (Pos.skip ⟨[], t, []⟩ ("```chart".toList ++ w) : Pos FenceGroup) =
      ⟨("```chart".toList ++ w).reverse, '\n' :: (closed body ++ (cl ++ rest)), []⟩ := by
    rw [skip_eq ht.symm, List.append_nil]
  rw [hskip] at hl
  have hbreak : (chr '\n' : Regex FenceGroup).run
      ⟨("```chart".toList ++ w).reverse, '\n' :: (closed body ++ (cl ++ rest)), []⟩ =
        [⟨'\n' :: ("```chart".toList ++ w).reverse, closed body ++ (cl ++ rest), []⟩] := rfl
  have hbodyRun := head?_run_seq_lazy (γ := FenceGroup) (g := .body) (p := fun _ => true)
    (b := closingRe) (w := closed body) (v := cl ++ rest)
    (s := ⟨'\n' :: ("```chart".toList ++ w).reverse, closed body ++ (cl ++ rest), []⟩)
    (u := ⟨cl.reverse ++ ((closed body).reverse ++ '\n' :: ("```chart".toList ++ w).reverse),
      rest, [(.body, closed body)]⟩) (by simp) rfl ?_ ?_
  · have hhead := head?_run_seq hstart
      (head?_run_seq hlit (head?_run_seq hl (head?_run_seq hbreak hbodyRun)))
    show Option.map _ (chartFenceRe.run ⟨[], t, []⟩).head? = _
    rw [show (chartFenceRe.run ⟨[], t, []⟩).head? = _ from hhead]
    have hsince : (⟨[], t, []⟩ : Pos FenceGroup).since
        ⟨cl.reverse ++ ((closed body).reverse ++ '\n' :: ("```chart".toList ++ w).reverse),
          rest, [(.body, closed body)]⟩ =
            "```chart".toList ++ w ++ '\n' :: (closed body ++ cl) := since_skip (by simp [← ht])
    rw [Option.map_some, hsince]
    rfl
  · -- an earlier end would be a closing line of the body
    intro x y hxy hy
    refine List.eq_nil_iff_forall_not_mem.mpr fun q hq => ?_
    rw [Pos.skip] at hq
    obtain ⟨hx, cl', rest', hcl', hrest', haf⟩ := mem_closingRe hq
    have hxlast : ∀ c ∈ x.getLast?, c = '\n' := by
      intro c hc
      rw [← List.head?_reverse] at hc
      obtain ⟨u, hu⟩ := List.head?_eq_some_iff.mp hc
      simpa [atLineStart, hu] using hx
    obtain ⟨ls₁, ls₂, rfl, rfl, rfl⟩ := closed_prefix (fun l hl => (hbody l hl).1) hxy hxlast
    cases ls₂ with
    | nil => simp at hy
    | cons l ls₂ =>
      obtain ⟨hl, hopen⟩ := hbody l (by simp)
      have haf : l ++ '\n' :: (closed ls₂ ++ (cl ++ rest)) = cl' ++ rest' := by
        simpa [hxy] using haf
      obtain ⟨rfl, -⟩ := line_unique hl (notMem_closing hcl') (by simp [Broken]) hrest' haf
      simp [hopen] at hcl'
  · rw [skip_eq rfl]
    refine head?_closingRe ?_ hcl hrest
    rcases List.eq_nil_or_concat body with rfl | ⟨ls, l, rfl⟩
    · rfl
    · simp [closed, atLineStart]

/-- A line of a text that opens and ends like one of its own. -/
theorem mem_below (hls : ∀ l ∈ ls, '\n' ∉ l) (hcl : '\n' ∉ cl) (hrest : Broken rest)
    (h : below ls = x ++ '\n' :: (cl ++ rest)) : cl ∈ ls := by
  induction ls generalizing x with
  | nil => simp at h
  | cons l ls ih =>
    obtain ⟨hl, htl⟩ := List.forall_mem_cons.mp hls
    rw [below_cons] at h
    cases x with
    | nil =>
      obtain ⟨rfl, -⟩ := line_unique hl hcl (broken_below ls) hrest (List.cons.inj h).2
      simp
    | cons c x =>
      have htail : l ++ below ls = x ++ '\n' :: (cl ++ rest) := (List.cons.inj h).2
      rcases List.append_eq_append_iff.mp htail with ⟨z, rfl, hz⟩ | ⟨z, rfl, hz⟩
      · exact List.mem_cons_of_mem _ (ih htl hz)
      · cases z with
        | nil =>
          exact List.mem_cons_of_mem _ (ih (x := []) htl (by simpa using hz.symm))
        | cons d z =>
          obtain rfl : '\n' = d := (List.cons.inj hz).1
          simp at hl

/-- A line that starts no fence: it is no header, or no closing line follows. -/
theorem first_noFence (hl : '\n' ∉ l) (hls : ∀ x ∈ ls, '\n' ∉ x)
    (h : isHeader l → ∀ x ∈ ls, isClosing x = false) :
    chartFenceRe.first [] (l ++ below ls) = none := by
  simp only [first, Option.map_eq_none_iff, List.head?_eq_none_iff]
  refine List.eq_nil_iff_forall_not_mem.mpr fun q hq => ?_
  simp only [chartFenceRe, cat] at hq
  rw [mem_run_seq_lineStart, mem_run_seq_plain (plain_lit _)] at hq
  obtain ⟨-, word, v, hword, htext, hq⟩ := hq
  obtain rfl := accepts_lit.1 hword
  rw [mem_run_seq_plain (by trivial)] at hq
  obtain ⟨w, v', hw, rfl, hq⟩ := hq
  rw [mem_run_seq_plain (by trivial)] at hq
  obtain ⟨b, v, hb, rfl, hq⟩ := hq
  obtain rfl := accepts_chr.1 hb
  rw [mem_run_seq_group (by trivial)] at hq
  obtain ⟨body, v', -, rfl, hq⟩ := hq
  obtain ⟨hstart, cl, rest, hcl, hrest, rfl⟩ := mem_closingRe hq
  have hhd : isHeader ("```chart".toList ++ w) :=
    isFenceLine_iff.2 ⟨w, accepts_blanks.1 hw, rfl⟩
  obtain ⟨rfl, hbelow⟩ := line_unique (x := "```chart".toList ++ w)
    (y := '\n' :: (body ++ (cl ++ rest))) hl (notMem_header hhd) (broken_below ls)
    (by simp [Broken]) (by simpa using htext)
  obtain ⟨x, hx⟩ : ∃ x, '\n' :: body = x ++ ['\n'] := by
    rcases List.eq_nil_or_concat body with rfl | ⟨body, c, rfl⟩
    · exact ⟨[], rfl⟩
    · obtain rfl : c = '\n' := by simpa [atLineStart] using hstart
      exact ⟨'\n' :: body, by simp⟩
  have hmem := mem_below (x := x) hls (notMem_closing hcl) hrest (by
    rw [hbelow, ← List.cons_append, hx]
    simp)
  simp [h hhd cl hmem] at hcl

end RownRg.Charts

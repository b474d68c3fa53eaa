import Mathlib.Algebra.GroupWithZero.Nat
import RownRg.Lib.Scan

/-! Placeholders for tables, and where a text may be cut without changing them. -/

open PyText Regex

namespace RownRg.Indexing

variable {t u v w x y d e rest : Text} {m : Match Unit} {n : Nat}

/-- `<<<TABLE_` -/
def opening : Text := '<' :: '<' :: '<' :: "TABLE_".toList

/-- `>>>` -/
def closing : Text := ['>', '>', '>']

/-- `_PLACEHOLDER_TEMPLATE.format(n)` -/
def placeholder (n : Nat) : Text := opening ++ (ofNat n ++ closing)

def placeholderRe : Regex Unit := cat [lit opening, group () (plus digit), lit closing]

/-- A text that looks like a placeholder. -/
def IsPlaceholder (w : Text) : Prop :=
  ∃ d, d ≠ [] ∧ (∀ c ∈ d, isDigit c) ∧ w = opening ++ (d ++ closing)

theorem isPlaceholder_placeholder (n : Nat) : IsPlaceholder (placeholder n) :=
  ⟨ofNat n, ofNat_ne_nil, fun _ => isDigit_of_mem_ofNat, rfl⟩

theorem blind_lit (t : Text) : (lit t : Regex Unit).Blind := by
  induction t with
  | nil => trivial
  | cons c t ih => exact ⟨trivial, ih⟩

theorem blind_placeholderRe : placeholderRe.Blind :=
  ⟨blind_lit opening, ⟨trivial, trivial⟩, blind_lit closing⟩

theorem mem_run_placeholderRe {q : Pos Unit} :
    q ∈ placeholderRe.run ⟨[], t, []⟩ ↔ ∃ d rest, d ≠ [] ∧ (∀ c ∈ d, isDigit c) ∧
      t = opening ++ (d ++ closing) ++ rest ∧
      q = ⟨(opening ++ (d ++ closing)).reverse, rest, [((), d)]⟩ := by
  have hdigits : (plus digit : Regex Unit).Plain := ⟨trivial, trivial⟩
  simp only [placeholderRe, cat]
  rw [mem_run_seq_plain (plain_lit _)]
  constructor
  · rintro ⟨_, _, ho, rfl, hq⟩
    obtain rfl := accepts_lit.1 ho
    rw [mem_run_seq_group hdigits] at hq
    obtain ⟨d, _, hd, rfl, hq⟩ := hq
    obtain ⟨hne, hall⟩ := accepts_plus_cls.1 hd
    rw [mem_run_plain_iff (plain_lit _)] at hq
    obtain ⟨_, rest, hc, rfl, rfl⟩ := hq
    obtain rfl := accepts_lit.1 hc
    exact ⟨d, rest, hne, hall, by simp, by simp⟩
  · rintro ⟨d, rest, hne, hall, rfl, rfl⟩
    refine ⟨opening, d ++ (closing ++ rest), accepts_lit.2 rfl, by simp, ?_⟩
    rw [mem_run_seq_group hdigits]
    refine ⟨d, closing ++ rest, accepts_plus_cls.2 ⟨hne, hall⟩, rfl, ?_⟩
    rw [mem_run_plain_iff (plain_lit _)]
    exact ⟨closing, rest, accepts_lit.2 rfl, rfl, by simp⟩

theorem digits_unique {d' rest' : Text} (hd : ∀ c ∈ d, isDigit c) (hd' : ∀ c ∈ d', isDigit c)
    (h : opening ++ (d ++ closing) ++ rest = opening ++ (d' ++ closing) ++ rest') :
    d = d' ∧ rest = rest' := by
  have hclose : ∀ rest : Text, (closing ++ rest).takeWhile isDigit = [] := fun _ => rfl
  rw [List.append_assoc, List.append_assoc, List.append_assoc, List.append_assoc] at h
  have hrest := List.append_cancel_left h
  have htake := congrArg (List.takeWhile isDigit) hrest
  rw [List.takeWhile_append_of_pos hd, List.takeWhile_append_of_pos hd', hclose, hclose,
    List.append_nil, List.append_nil] at htake
  subst htake
  exact ⟨rfl, List.append_cancel_left (List.append_cancel_left hrest)⟩

/-- What the pattern finds at the front of a text. -/
theorem first_placeholder : placeholderRe.first [] t = some (m, rest) ↔
    ∃ d, d ≠ [] ∧ (∀ c ∈ d, isDigit c) ∧ t = opening ++ (d ++ closing) ++ rest ∧
      m = ⟨opening ++ (d ++ closing), [((), d)]⟩ := by
  unfold first
  simp only [Option.map_eq_some_iff]
  constructor
  · rintro ⟨q, hq, heq⟩
    obtain ⟨d, rest', hne, hall, rfl, rfl⟩ := mem_run_placeholderRe.1 (List.mem_of_head? hq)
    obtain ⟨rfl, rfl⟩ := Prod.mk.inj heq
    refine ⟨d, hne, hall, rfl, ?_⟩
    rw [since_skip rfl]
  · rintro ⟨d, hne, hall, rfl, rfl⟩
    have hmem := mem_run_placeholderRe.2 ⟨d, rest, hne, hall, rfl, rfl⟩
    obtain ⟨q, hq⟩ := Option.ne_none_iff_exists'.mp
      (mt List.head?_eq_none_iff.mp (List.ne_nil_of_mem hmem))
    refine ⟨q, hq, ?_⟩
    obtain ⟨d', rest', hne', hall', heq, rfl⟩ :=
      mem_run_placeholderRe.1 (List.mem_of_head? hq)
    obtain ⟨rfl, rfl⟩ := digits_unique hall hall' heq
    rw [since_skip rfl]

theorem first_isPlaceholder (hw : IsPlaceholder w) :
    ∃ m : Match Unit, m.text = w ∧ placeholderRe.first [] (w ++ t) = some (m, t) := by
  obtain ⟨d, hne, hall, rfl⟩ := hw
  exact ⟨⟨_, [((), d)]⟩, rfl, first_placeholder.2 ⟨d, hne, hall, rfl, rfl⟩⟩

theorem isPlaceholder_of_first (h : placeholderRe.first [] t = some (m, rest)) :
    IsPlaceholder m.text := by
  obtain ⟨d, hne, hall, -, rfl⟩ := first_placeholder.1 h
  exact ⟨d, hne, hall, rfl⟩

theorem IsPlaceholder.ne_nil (h : IsPlaceholder w) : w ≠ [] := by
  obtain ⟨d, -, -, rfl⟩ := h
  exact List.cons_ne_nil _ _

/-! Cuts. -/

/-- The cut between the two texts goes through no placeholder. -/
def CutsBetween (d e : Text) : Prop :=
  ∀ x y, x <:+ d → y <+: e → IsPlaceholder (x ++ y) → x = [] ∨ y = []

theorem CutsBetween.tail (h : CutsBetween (w ++ d) e) : CutsBetween d e :=
  fun x y hx hy => h x y (hx.trans (List.suffix_append w d)) hy

theorem first_append (h : placeholderRe.first [] d = some (m, rest)) (e : Text) :
    placeholderRe.first [] (d ++ e) = some (m, rest ++ e) := by
  obtain ⟨a, hne, hall, rfl, rfl⟩ := first_placeholder.1 h
  exact first_placeholder.2 ⟨a, hne, hall, List.append_assoc _ rest e, rfl⟩

/-- Such a cut changes nothing of what is found. -/
theorem pieces_cut (h : CutsBetween d e) :
    placeholderRe.pieces (d ++ e) = placeholderRe.pieces d ++ placeholderRe.pieces e := by
  induction hn : d.length using Nat.strongRecOn generalizing d with
  | _ n ih =>
    cases d with
    | nil => rfl
    | cons c d =>
      subst hn
      cases hfirst : placeholderRe.first [] (c :: d ++ e) with
      | none =>
        have hnone : placeholderRe.first [] (c :: d) = none := by
          cases hd : placeholderRe.first [] (c :: d) with
          | none => rfl
          | some p =>
            rw [first_append hd e] at hfirst
            cases hfirst
        have hrest := ih d.length (by simp) (CutsBetween.tail (w := [c]) h) rfl
        rw [List.cons_append] at hfirst ⊢
        rw [pieces_plain blind_placeholderRe hfirst, pieces_plain blind_placeholderRe hnone, hrest,
          List.cons_append]
      | some p =>
        obtain ⟨m, rest⟩ := p
        have hplace := isPlaceholder_of_first hfirst
        have hread := first_reads hfirst
        obtain ⟨z, hd, rfl⟩ : ∃ z, c :: d = m.text ++ z ∧ rest = z ++ e := by
          rcases List.append_eq_append_iff.mp hread with ⟨z, hm, hrest⟩ | ⟨z, hd, he⟩
          · rw [hm] at hplace
            rcases h (c :: d) z (List.suffix_refl _) ⟨rest, hrest.symm⟩ hplace with hnil | rfl
            · cases hnil
            · exact ⟨[], by rw [hm, List.append_nil, List.append_nil], by simpa using hrest.symm⟩
          · exact ⟨z, hd, he⟩
        have hshort : z.length < (c :: d).length := by
          have hpos := List.length_pos_of_ne_nil hplace.ne_nil
          rw [hd, List.length_append]
          omega
        rw [hd] at h
        obtain ⟨m', hm', hfirst'⟩ := first_isPlaceholder (t := z) hplace
        have hsame : m' = m := by
          have hlong := first_append hfirst' e
          rw [← hd, hfirst] at hlong
          exact (Prod.mk.inj (Option.some.inj hlong)).1.symm
        rw [hsame] at hfirst'
        rw [pieces_hit blind_placeholderRe hplace.ne_nil hfirst, hd,
          pieces_hit blind_placeholderRe hplace.ne_nil hfirst', ih z.length hshort h.tail rfl,
          List.cons_append]

/-- No placeholder reaches into the beginning of another one. -/
theorem cutsBetween_opening (d e : Text) : CutsBetween d (opening ++ e) := by
  rintro x y - ⟨z, hz⟩ ⟨a, -, hall, hxy⟩
  by_contra hne
  rw [not_or] at hne
  obtain ⟨hx, hy⟩ := hne
  obtain ⟨f, y, rfl⟩ := List.exists_cons_of_ne_nil hy
  obtain rfl : f = '<' := (List.cons.inj hz).1
  have hangle : '<' ∉ "TABLE_".toList ++ (a ++ closing) := by
    simp only [List.mem_append, not_or]
    refine ⟨by decide, fun hmem => ?_, by decide⟩
    have hdigit := hall _ hmem
    revert hdigit
    decide
  -- The second part would start one, two or more characters behind the first of the placeholder.
  match x, hx with
  | [c], _ =>
    have hrest : y = '<' :: ("TABLE_".toList ++ (a ++ closing)) := (List.cons.inj (List.cons.inj hxy).2).2
    rw [hrest] at hz
    exact absurd (List.cons.inj (List.cons.inj (List.cons.inj hz).2).2).1 (by decide)
  | [c, c'], _ =>
    have hrest : y = "TABLE_".toList ++ (a ++ closing) :=
      (List.cons.inj (List.cons.inj (List.cons.inj hxy).2).2).2
    rw [hrest] at hz
    exact absurd (List.cons.inj (List.cons.inj hz).2).1 (by decide)
  | c :: c' :: c'' :: x, _ =>
    have hrest : x ++ '<' :: y = "TABLE_".toList ++ (a ++ closing) :=
      (List.cons.inj (List.cons.inj (List.cons.inj hxy).2).2).2
    exact hangle (hrest ▸ List.mem_append_right x List.mem_cons_self)

/-- Placeholders stay whole, whatever stands around them. -/
theorem pieces_placeholder (hw : IsPlaceholder w) (d e : Text) :
    ∃ m : Match Unit, m.text = w ∧ placeholderRe.pieces (d ++ (w ++ e)) =
      placeholderRe.pieces d ++ .hit m :: placeholderRe.pieces e := by
  obtain ⟨m, hm, hfirst⟩ := first_isPlaceholder (t := e) hw
  refine ⟨m, hm, ?_⟩
  have hcut : CutsBetween d (w ++ e) := by
    obtain ⟨a, -, -, rfl⟩ := hw
    rw [List.append_assoc]
    exact cutsBetween_opening d _
  rw [pieces_cut hcut, pieces_hit blind_placeholderRe (hm ▸ hw.ne_nil) hfirst]

theorem infix_of_hit (h : m ∈ hits (placeholderRe.pieces t)) : m.text <:+: t := by
  obtain ⟨p, hp, hm⟩ := List.mem_filterMap.mp h
  cases p with
  | plain c => cases hm
  | hit m' =>
    obtain rfl := Option.some.inj hm
    obtain ⟨ps, qs, hpieces⟩ := List.append_of_mem hp
    rw [← render_pieces placeholderRe t, hpieces, render_append, render_hit]
    exact ⟨render ps, render qs, List.append_assoc _ _ _⟩

/-- Nothing is found exactly where no placeholder stands. -/
theorem hits_eq_nil : hits (placeholderRe.pieces t) = [] ↔ ∀ w, w <:+: t → ¬ IsPlaceholder w := by
  constructor
  · rintro h w ⟨d, e, rfl⟩ hw
    obtain ⟨m, -, hpieces⟩ := pieces_placeholder hw d e
    rw [List.append_assoc, hpieces, hits_append] at h
    exact absurd (List.append_eq_nil_iff.mp h).2 (List.cons_ne_nil _ _)
  · intro h
    by_contra hne
    obtain ⟨m, hm⟩ := List.exists_mem_of_ne_nil _ hne
    obtain ⟨-, u, rest, hfirst⟩ := exists_first blind_placeholderRe hm
    exact h m.text (infix_of_hit hm) (isPlaceholder_of_first hfirst)

end RownRg.Indexing

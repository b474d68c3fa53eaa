import RownRg.Lib.Lexing

/-! The first match of a text, by where it stands. -/

open PyText

namespace Regex

variable {γ : Type} {r : Regex γ} {m : Match γ} {t before after b : Text}

theorem first_ne_nil (hr : ¬ r.Words []) (h : r.first b t = some (m, after)) : m.text ≠ [] :=
  fun hnil => hr (hnil ▸ words_of_first h)

theorem head_spotsIn_iff (hblind : r.Blind) (hr : ¬ r.Words []) :
    (spotsIn b (r.pieces t)).head? = some (before, m, after) ↔
      ∃ x, before = x.reverse ++ b ∧ t = x ++ (m.text ++ after) ∧
        r.first [] (m.text ++ after) = some (m, after) ∧
        ∀ y, y ≠ [] → y <:+ x → r.first [] (y ++ (m.text ++ after)) = none := by
  induction t generalizing b with
  | nil =>
    refine iff_of_false (by simp [spotsIn]) ?_
    rintro ⟨x, -, hx, hfirst, -⟩
    obtain ⟨-, hm⟩ := List.append_eq_nil_iff.mp hx.symm
    exact first_ne_nil hr hfirst (List.append_eq_nil_iff.mp hm).1
  | cons c t ih =>
    cases hfirst : r.first [] (c :: t) with
    | none =>
      rw [pieces_plain hblind hfirst, spotsIn, ih]
      constructor
      · rintro ⟨x, rfl, rfl, hm, hnone⟩
        refine ⟨c :: x, by simp, rfl, hm, fun y hy hsuffix => ?_⟩
        rcases List.suffix_cons_iff.mp hsuffix with rfl | hsuffix
        · exact hfirst
        · exact hnone y hy hsuffix
      · rintro ⟨x, rfl, hx, hm, hnone⟩
        cases x with
        | nil =>
          rw [hx, List.nil_append, hm] at hfirst
          cases hfirst
        | cons d x =>
          obtain ⟨rfl, rfl⟩ := List.cons.inj hx
          exact ⟨x, by simp, rfl, hm, fun y hy h => hnone y hy (h.trans (List.suffix_cons _ _))⟩
    | some found =>
      obtain ⟨m', rest⟩ := found
      rw [pieces_hit hblind (first_ne_nil hr hfirst) hfirst, spotsIn, List.head?_cons, render_pieces]
      constructor
      · intro h
        cases h
        have ht := first_reads hfirst
        refine ⟨[], rfl, ht, ht ▸ hfirst, fun y hy h => absurd (List.suffix_nil.mp h) hy⟩
      · rintro ⟨x, rfl, hx, hm, hnone⟩
        cases x with
        | nil =>
          rw [hx, List.nil_append, hm] at hfirst
          cases hfirst
          rfl
        | cons d x =>
          have h := hnone (d :: x) (List.cons_ne_nil _ _) (List.suffix_refl _)
          rw [← hx, hfirst] at h
          cases h

theorem map_spotsIn (b : Text) (ps : List (Piece γ)) :
    (spotsIn b ps).map (fun spot => spot.2.1) = hits ps := by
  induction ps generalizing b with
  | nil => rfl
  | cons p ps ih =>
    cases p with
    | plain c => exact ih _
    | hit m => exact congrArg (m :: ·) (ih _)

/-- The matches with the text around them are the matches. -/
theorem map_spots (r : Regex γ) (t : Text) :
    (r.spots t).map (fun spot => spot.2.1) = r.finditer t := map_spotsIn [] _

/-- The first match and what stands around it: no match begins before it. -/
theorem head_spots_iff (hblind : r.Blind) (hr : ¬ r.Words []) :
    (r.spots t).head? = some (before, m, after) ↔
      t = before.reverse ++ (m.text ++ after) ∧ r.first [] (m.text ++ after) = some (m, after) ∧
        ∀ y, y ≠ [] → y <:+ before.reverse → r.first [] (y ++ (m.text ++ after)) = none := by
  rw [spots, head_spotsIn_iff hblind hr]
  constructor
  · rintro ⟨x, rfl, h⟩
    simpa using h
  · intro h
    exact ⟨before.reverse, by simp, h⟩

end Regex

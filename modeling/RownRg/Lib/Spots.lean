import RownRg.Lib.Lines

/-! Matches with the text around them, and where a text is cut. -/

open PyText

namespace Regex

variable {γ : Type} {r : Regex γ} {m : Match γ} {f : Match γ → Text} {x t rest w cur : Text}
  {n pos : Nat} {ps : List (Piece γ)} {blocked : Nat → Bool}

/-- The matches, each between the text before it (nearest character first) and the text behind. -/
def spotsIn (before : Text) : List (Piece γ) → List (Text × Match γ × Text)
  | [] => []
  | .plain c :: ps => spotsIn (c :: before) ps
  | .hit m :: ps => (before, m, render ps) :: spotsIn (m.text.reverse ++ before) ps

def spots (r : Regex γ) (t : Text) : List (Text × Match γ × Text) := spotsIn [] (r.pieces t)

/-- Cuts at each match that does not begin behind a blocked place; `pos` counts what was read. -/
def cutFrom (blocked : Nat → Bool) (pos : Nat) (cur : Text) : List (Piece γ) → List Text
  | [] => [cur]
  | .plain c :: ps => cutFrom blocked (pos + 1) (cur ++ [c]) ps
  | .hit m :: ps =>
    if blocked (pos - 1) then cutFrom blocked (pos + m.text.length) (cur ++ m.text) ps
    else cur :: cutFrom blocked (pos + m.text.length) [] ps

theorem infix_of_cutFrom (h : w ∈ cutFrom blocked pos cur ps) : w <:+: cur ++ render ps := by
  induction ps generalizing pos cur with
  | nil =>
    obtain rfl := List.mem_singleton.mp h
    simp
  | cons p ps ih =>
    cases p with
    | plain c => simpa using ih h
    | hit m =>
      rw [cutFrom] at h
      split at h
      · simpa using ih h
      · obtain rfl | h := List.mem_cons.mp h
        · exact (List.prefix_append _ _).isInfix
        · obtain ⟨a, b, hab⟩ := ih h
          rw [List.nil_append] at hab
          exact ⟨cur ++ (m.text ++ a), b, by simp [← hab]⟩

/-- A pattern that matches at the start of a text only. -/
def Anchored (r : Regex γ) : Prop := ∀ x t, x ≠ [] → r.first x t = none

theorem scan_anchored (hr : r.Anchored) (hx : x ≠ []) : scan r n x t = t.map .plain := by
  induction n generalizing x t with
  | zero => rfl
  | succ n ih =>
    cases t with
    | nil => rfl
    | cons c t =>
      rw [scan, hr x (c :: t) hx]
      simp [ih (List.cons_ne_nil c x)]

theorem rewrite_map_plain (f : Match γ → Text) (t : Text) :
    (t.map .plain : List (Piece γ)).flatMap (Piece.rewrite f) = t := by
  induction t with
  | nil => rfl
  | cons c t ih =>
    rw [List.map_cons, List.flatMap_cons, ih]
    rfl

/-- Such a pattern only takes the front of a text away. -/
theorem sub_anchored (hr : r.Anchored) (t : Text) : r.sub (fun _ => []) t <:+ t := by
  unfold sub pieces
  cases t with
  | nil => exact List.suffix_refl _
  | cons c t =>
    have hnone : (Piece.plain c :: scan r t.length [c] t).flatMap (Piece.rewrite fun _ => []) =
        c :: t := by
      rw [scan_anchored hr (List.cons_ne_nil c []), List.flatMap_cons, rewrite_map_plain]
      rfl
    rw [List.length_cons, scan]
    cases hfirst : r.first [] (c :: t) with
    | none =>
      dsimp only
      exact ⟨[], hnone⟩
    | some found =>
      obtain ⟨m, rest⟩ := found
      dsimp only
      split
      · exact ⟨[], hnone⟩
      · rename_i hm
        have hbefore : m.text.reverse ++ [] ≠ [] := by simpa using hm
        rw [scan_anchored hr hbefore, List.flatMap_cons, rewrite_map_plain]
        exact ⟨m.text, (first_reads hfirst).symm⟩

end Regex

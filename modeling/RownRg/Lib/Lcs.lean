import Mathlib.Order.Bounds.Defs
import Mathlib.Data.List.Basic

/-! Longest common subsequences, and the edits that lead from one list to another. -/

namespace Lcs

/-- One step of an edit script. -/
inductive Edit (α : Type) where
  | same (a : α)
  | del (a : α)
  | add (a : α)
  deriving DecidableEq

variable {α : Type} {x y : α} {xs ys zs : List α} {e : Edit α} {es es' : List (Edit α)}

/-- What the edits find. -/
def before : List (Edit α) → List α
  | [] => []
  | .same a :: es | .del a :: es => a :: before es
  | .add _ :: es => before es

/-- What the edits leave. -/
def after : List (Edit α) → List α
  | [] => []
  | .same a :: es | .add a :: es => a :: after es
  | .del _ :: es => after es

def kept : List (Edit α) → List α
  | [] => []
  | .same a :: es => a :: kept es
  | .del _ :: es | .add _ :: es => kept es

@[simp] theorem before_append : before (es ++ es') = before es ++ before es' := by
  induction es with
  | nil => rfl
  | cons e es ih => cases e <;> simp [before, ih]

@[simp] theorem after_append : after (es ++ es') = after es ++ after es' := by
  induction es with
  | nil => rfl
  | cons e es ih => cases e <;> simp [after, ih]

@[simp] theorem kept_append : kept (es ++ es') = kept es ++ kept es' := by
  induction es with
  | nil => rfl
  | cons e es ih => cases e <;> simp [kept, ih]

@[simp] theorem before_map_del : before (xs.map .del) = xs := by
  induction xs with
  | nil => rfl
  | cons x xs ih => simp [before, ih]

@[simp] theorem after_map_del : after (xs.map .del) = [] := by
  induction xs with
  | nil => rfl
  | cons x xs ih => simp [after, ih]

@[simp] theorem kept_map_del : kept (xs.map .del) = [] := by
  induction xs with
  | nil => rfl
  | cons x xs ih => simp [kept, ih]

@[simp] theorem before_map_add : before (xs.map .add) = [] := by
  induction xs with
  | nil => rfl
  | cons x xs ih => simp [before, ih]

@[simp] theorem after_map_add : after (xs.map .add) = xs := by
  induction xs with
  | nil => rfl
  | cons x xs ih => simp [after, ih]

@[simp] theorem kept_map_add : kept (xs.map .add) = [] := by
  induction xs with
  | nil => rfl
  | cons x xs ih => simp [kept, ih]

theorem kept_sublist_before (es : List (Edit α)) : (kept es).Sublist (before es) := by
  induction es with
  | nil => exact .slnil
  | cons e es ih =>
    cases e with
    | same a => exact ih.cons_cons a
    | del a => exact ih.cons a
    | add a => exact ih

theorem kept_sublist_after (es : List (Edit α)) : (kept es).Sublist (after es) := by
  induction es with
  | nil => exact .slnil
  | cons e es ih =>
    cases e with
    | same a => exact ih.cons_cons a
    | del a => exact ih
    | add a => exact ih.cons a

/-- The lengths of the common subsequences. -/
def commonLengths (xs ys : List α) : Set Nat :=
  {n | ∃ zs : List α, zs.Sublist xs ∧ zs.Sublist ys ∧ zs.length = n}

section

variable [DecidableEq α]

/-- The length of a longest common subsequence. -/
def lcs : List α → List α → Nat
  | [], _ => 0
  | _ :: _, [] => 0
  | x :: xs, y :: ys => if x = y then lcs xs ys + 1 else max (lcs xs (y :: ys)) (lcs (x :: xs) ys)
termination_by xs ys => xs.length + ys.length

@[simp] theorem lcs_nil_left (ys : List α) : lcs [] ys = 0 := by simp [lcs]

@[simp] theorem lcs_nil_right (xs : List α) : lcs xs [] = 0 := by
  cases xs <;> simp [lcs]

theorem lcs_cons (x y : α) (xs ys : List α) : lcs (x :: xs) (y :: ys) =
    if x = y then lcs xs ys + 1 else max (lcs xs (y :: ys)) (lcs (x :: xs) ys) := by
  rw [lcs]

theorem lcs_self (xs : List α) : lcs xs xs = xs.length := by
  induction xs with
  | nil => simp
  | cons x xs ih => simp [lcs_cons, ih]

/-- No common subsequence is longer. -/
theorem length_le_lcs (hxs : zs.Sublist xs) (hys : zs.Sublist ys) : zs.length ≤ lcs xs ys := by
  induction xs, ys using lcs.induct generalizing zs with
  | case1 ys => simp [List.sublist_nil.mp hxs]
  | case2 x xs => simp [List.sublist_nil.mp hys]
  | case3 x xs ys ih =>
    have htail := ih hxs.tail hys.tail
    rw [lcs_cons, if_pos rfl]
    simp only [List.length_tail] at htail
    omega
  | case4 x xs y ys hne ihx ihy =>
    rw [lcs_cons, if_neg hne]
    rcases List.sublist_cons_iff.mp hxs with hxs' | ⟨zs', rfl, hxs'⟩
    · exact Nat.le_trans (ihx hxs' hys) (Nat.le_max_left _ _)
    · rcases List.sublist_cons_iff.mp hys with hys' | ⟨zs'', heq, -⟩
      · exact Nat.le_trans (ihy hxs hys') (Nat.le_max_right _ _)
      · exact absurd (List.cons.inj heq).1 hne

/-- Edits that keep as many items as `lcs` says show that there is no longer common subsequence. -/
theorem isGreatest_kept (hbefore : before es = xs) (hafter : after es = ys)
    (hlen : (kept es).length = lcs xs ys) : IsGreatest (commonLengths xs ys) (kept es).length := by
  refine ⟨⟨kept es, ?_, ?_, rfl⟩, ?_⟩
  · exact hbefore ▸ kept_sublist_before es
  · exact hafter ▸ kept_sublist_after es
  · rintro n ⟨zs, hxs, hys, rfl⟩
    rw [hlen]
    exact length_le_lcs hxs hys

end

end Lcs

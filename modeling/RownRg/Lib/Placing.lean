import Mathlib.Order.Bounds.Basic

/-! Items placed in order, each behind the one before: the leftmost placement. -/

namespace Placing

variable {ι : Type} {At : ι → Nat → Prop} {i : ι} {run : List ι} {p q cursor : Nat}

/-- The items of a run, the last one first, stand in order; the last one stands at the place. -/
inductive Placed (At : ι → Nat → Prop) : List ι → Nat → Prop
  | one {i : ι} {p : Nat} (h : At i p) : Placed At [i] p
  | more {i : ι} {run : List ι} {p q : Nat} (hrun : Placed At run p) (hlt : p < q) (h : At i q) :
      Placed At (i :: run) q

/-- The run with the next item. An item that no placement of the run takes in begins a new run. -/
noncomputable def extend (At : ι → Nat → Prop) (run : List ι) (i : ι) : List ι :=
  open Classical in if ∃ p, Placed At (i :: run) p then i :: run else [i]

/-- The cursor is right behind the leftmost placement of the run. -/
def Behind (At : ι → Nat → Prop) (run : List ι) (cursor : Nat) : Prop :=
  (run = [] ∧ cursor = 0) ∨ ∃ p, IsLeast {p | Placed At run p} p ∧ cursor = p + 1

theorem behind_nil : Behind At [] 0 := .inl ⟨rfl, rfl⟩

theorem placed_one : Placed At [i] p ↔ At i p := by
  constructor
  · intro h
    cases h with
    | one h => exact h
    | more hrun => cases hrun
  · exact .one

theorem isLeast_one (h : IsLeast {q | At i q} q) : IsLeast {q | Placed At [i] q} q := by
  refine ⟨.one h.1, fun p hp => ?_⟩
  have hi : At i p := placed_one.1 hp
  exact h.2 hi

/-- A placement of a longer run has its last item at the cursor or behind it. -/
theorem behind_le (h : Behind At run cursor) (hp : Placed At (i :: run) p) : cursor ≤ p ∧ At i p := by
  rcases h with ⟨rfl, rfl⟩ | ⟨q, hq, rfl⟩
  · exact ⟨Nat.zero_le p, placed_one.1 hp⟩
  · cases hp with
    | one h => cases hq.1
    | more hrun hlt h => exact ⟨Nat.succ_le_of_lt (Nat.lt_of_le_of_lt (hq.2 hrun) hlt), h⟩

theorem placed_behind (h : Behind At run cursor) (hle : cursor ≤ q) (hi : At i q) :
    Placed At (i :: run) q := by
  rcases h with ⟨rfl, rfl⟩ | ⟨p, hp, rfl⟩
  · exact .one hi
  · exact .more hp.1 hle hi

/-- The first place at the cursor or behind it continues the leftmost placement. -/
theorem extend_of_first (h : Behind At run cursor) (hq : IsLeast {q | cursor ≤ q ∧ At i q} q) :
    IsLeast {q | Placed At (extend At run i) q} q := by
  have hplaced := placed_behind h hq.1.1 hq.1.2
  rw [extend, if_pos ⟨q, hplaced⟩]
  exact ⟨hplaced, fun p hp => hq.2 (behind_le h hp)⟩

/-- Where the item has no place behind the cursor, its first place begins a new run. -/
theorem extend_of_none (h : Behind At run cursor) (hnone : ∀ q, cursor ≤ q → ¬ At i q)
    (hq : IsLeast {q | At i q} q) : IsLeast {q | Placed At (extend At run i) q} q := by
  have hno : ¬ ∃ p, Placed At (i :: run) p := by
    rintro ⟨p, hp⟩
    obtain ⟨hle, hi⟩ := behind_le h hp
    exact hnone p hle hi
  rw [extend, if_neg hno]
  exact isLeast_one hq

theorem behind_of_isLeast (h : IsLeast {q | Placed At run q} q) : Behind At run (q + 1) :=
  .inr ⟨q, h, rfl⟩

end Placing

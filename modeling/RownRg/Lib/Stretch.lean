import Mathlib.Order.Bounds.Basic
import RownRg.Lib.Text

/-! Stretches of a text: whether one occurs, and how often. -/

namespace PyText

variable {α : Type} {c : α} {l u v : List α} {old t w x y : Text}

/-- A stretch without a certain element lies on one side of that element. -/
theorem infix_part (hc : c ∉ l) (h : l <:+: u ++ c :: v) : l <:+: u ∨ l <:+: v := by
  obtain ⟨a, b, hab⟩ := h
  rw [List.append_assoc] at hab
  rcases List.append_eq_append_iff.mp hab with ⟨z, hu, hrest⟩ | ⟨z, ha, hrest⟩
  · rcases List.append_eq_append_iff.mp hrest with ⟨z', hz, hrest'⟩ | ⟨z', hl, hrest'⟩
    · exact .inl ⟨a, z', by rw [hu, hz, List.append_assoc]⟩
    · cases z' with
      | nil =>
        rw [List.append_nil] at hl
        exact .inl ⟨a, [], by rw [hu, hl, List.append_nil]⟩
      | cons d z' =>
        obtain ⟨rfl, -⟩ := List.cons.inj hrest'
        exact absurd (hl ▸ List.mem_append_right _ List.mem_cons_self) hc
  · cases z with
    | nil =>
      cases l with
      | nil => exact .inl (List.nil_infix)
      | cons d l =>
        obtain ⟨rfl, -⟩ := List.cons.inj hrest
        exact absurd List.mem_cons_self hc
    | cons d z =>
      obtain ⟨-, hv⟩ := List.cons.inj hrest
      have hv : v = z ++ (l ++ b) := hv
      exact .inr ⟨z, b, by rw [hv, List.append_assoc]⟩

/-- Stripping leaves every stretch without blanks. -/
theorem infix_strip (hw : ∀ c ∈ w, isSpace c = false) (h : w <:+: t) : w <:+: strip t := by
  obtain ⟨x, y, hx, hy, ht⟩ := exists_strip t
  have hnot : ∀ {a : Text}, (∀ c ∈ a, isSpace c) → ∀ c ∈ a, c ∉ w := by
    intro a ha c hc hmem
    have hspace := ha c hc
    rw [hw c hmem] at hspace
    cases hspace
  have hleft : ∀ a u : Text, (∀ c ∈ a, c ∉ w) → w <:+: a ++ u → w <:+: u := by
    intro a
    induction a with
    | nil => exact fun _ _ h => h
    | cons c a ih =>
      intro u ha h
      obtain ⟨hc, ha⟩ := List.forall_mem_cons.mp ha
      rcases infix_part (u := []) hc h with h | h
      · exact List.infix_nil.mp h ▸ List.nil_infix
      · exact ih u ha h
  rw [ht] at h
  have hrest := hleft x _ (hnot hx) h
  cases y with
  | nil => simpa using hrest
  | cons c y =>
    rcases infix_part (hnot hy c List.mem_cons_self) hrest with h | h
    · exact h
    · have hblank := hleft y [] (fun d hd => hnot hy d (List.mem_cons_of_mem c hd)) (by simpa using h)
      exact List.infix_nil.mp hblank ▸ List.nil_infix

theorem cutAt_isSome : (cutAt old t).isSome ↔ old <:+: t := by
  constructor
  · intro h
    obtain ⟨⟨u, v⟩, huv⟩ := Option.isSome_iff_exists.mp h
    exact ⟨u, v, by rw [cutAt_eq huv, List.append_assoc]⟩
  · intro h
    induction t with
    | nil =>
      obtain rfl := List.infix_nil.mp h
      rfl
    | cons c t ih =>
      rw [cutAt]
      by_cases hfront : old.isPrefixOf (c :: t)
      · rw [if_pos hfront]
        rfl
      · rw [if_neg hfront, Option.isSome_map]
        refine ih ((List.infix_cons_iff.mp h).resolve_left fun hp => hfront ?_)
        exact List.isPrefixOf_iff_prefix.mpr hp

/-- The first occurrence is cut out: none begins before it. -/
theorem cutAt_least (h : cutAt old t = some (x, y)) {n : Nat} (hn : n < x.length) :
    ¬ old <+: t.drop n := by
  induction t generalizing x y n with
  | nil =>
    simp only [cutAt, Option.ite_none_right_eq_some] at h
    obtain ⟨rfl, -⟩ := Prod.mk.inj (Option.some.inj h.2)
    exact absurd hn (Nat.not_lt_zero n)
  | cons c t ih =>
    rw [cutAt] at h
    split at h
    · obtain ⟨rfl, -⟩ := Prod.mk.inj (Option.some.inj h)
      exact absurd hn (Nat.not_lt_zero n)
    · rename_i hfront
      obtain ⟨⟨u, v⟩, huv, heq⟩ := Option.map_eq_some_iff.mp h
      obtain ⟨rfl, -⟩ := Prod.mk.inj heq
      cases n with
      | zero => exact fun hp => hfront (List.isPrefixOf_iff_prefix.mpr hp)
      | succ n => exact ih huv (Nat.lt_of_succ_lt_succ hn)

/-- `text.find(old, cursor)` for a non-empty `old`; `none` where it returns -1. -/
def findFrom (old t : Text) (cursor : Nat) : Option Nat :=
  (cutAt old (t.drop cursor)).map fun p => cursor + p.1.length

theorem findFrom_some {cursor n : Nat} (h : findFrom old t cursor = some n) :
    IsLeast {n | cursor ≤ n ∧ old <+: t.drop n} n := by
  obtain ⟨⟨x, y⟩, hcut, rfl⟩ := Option.map_eq_some_iff.mp h
  refine ⟨⟨Nat.le_add_right _ _, y, ?_⟩, fun m ⟨hle, hm⟩ => ?_⟩
  · have ht := congrArg (List.drop x.length) (cutAt_eq hcut)
    rw [List.drop_drop, List.drop_left] at ht
    exact ht.symm
  · obtain ⟨k, rfl⟩ := Nat.exists_eq_add_of_le hle
    refine Nat.add_le_add_left (Nat.le_of_not_lt fun hlt => cutAt_least hcut hlt ?_) _
    rw [List.drop_drop]
    exact hm

theorem findFrom_none {cursor n : Nat} (h : findFrom old t cursor = none) (hle : cursor ≤ n) :
    ¬ old <+: t.drop n := by
  intro hn
  obtain ⟨k, rfl⟩ := Nat.exists_eq_add_of_le hle
  have hinfix : old <:+: t.drop cursor := by
    rw [← List.drop_drop] at hn
    exact hn.isInfix.trans (List.drop_suffix k _).isInfix
  have hsome := cutAt_isSome.2 hinfix
  rw [Option.map_eq_none_iff.mp h] at hsome
  cases hsome

/-- `text.count(old)` for a non-empty `old`. -/
def count (old t : Text) : Nat := (splitText old t).length - 1

theorem count_eq_zero (hold : old ≠ []) : count old t = 0 ↔ ¬ old <:+: t := by
  have hpos : ∀ n t, 0 < (splitFrom old n t).length := by
    intro n t
    cases n with
    | zero => exact Nat.one_pos
    | succ n =>
      rw [splitFrom]
      cases cutAt old t with
      | none => exact Nat.one_pos
      | some p => exact Nat.succ_pos _
  cases t with
  | nil =>
    refine iff_of_true rfl fun h => hold (List.infix_nil.mp h)
  | cons c t =>
    rw [← cutAt_isSome, count, splitText, List.length_cons, splitFrom]
    cases cutAt old (c :: t) with
    | none => simp
    | some p =>
      have := hpos t.length p.2
      simp only [List.length_cons, Option.isSome_some, not_true_eq_false, iff_false]
      omega

theorem contains_iff : contains old t ↔ old <:+: t := cutAt_isSome

end PyText

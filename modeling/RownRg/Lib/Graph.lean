import Mathlib.Data.List.Nodup
import Mathlib.Data.Fintype.Card
import Mathlib.Data.Set.Finite.Basic
import Mathlib.Logic.Relation
import Mathlib.Order.Bounds.Basic
import Mathlib.Order.WellFounded

/-! Directed graphs: circles, ranks, longest chains. -/
namespace RankedGraph

open Relation

variable {α : Type} {E F : α → α → Prop} {rank : α → Nat} {a b : α}

/-- A path either descends or goes through an unranked edge that does not. -/
theorem descends_or_climbs (hE : ∀ x y, E x y → F x y ∨ rank y < rank x) (h : TransGen E a b) :
    rank b < rank a ∨
      ∃ x y, F x y ∧ rank x ≤ rank y ∧ ReflTransGen E a x ∧ ReflTransGen E y b := by
  have hedge : ∀ {x y}, E x y → rank y < rank x ∨ F x y ∧ rank x ≤ rank y := by
    intro x y hxy
    rcases Nat.lt_or_ge (rank y) (rank x) with hlt | hle
    · exact .inl hlt
    · exact .inr ⟨(hE x y hxy).resolve_right (by omega), hle⟩
  induction h with
  | single hab =>
    rcases hedge hab with hlt | ⟨hF, hle⟩
    · exact .inl hlt
    · exact .inr ⟨_, _, hF, hle, .refl, .refl⟩
  | tail hpath hxy ih =>
    rcases ih with hlt | ⟨x, y, hF, hle, hax, hyb⟩
    · rcases hedge hxy with hlt' | ⟨hF, hle⟩
      · exact .inl (Nat.lt_trans hlt' hlt)
      · exact .inr ⟨_, _, hF, hle, hpath.to_reflTransGen, .refl⟩
    · exact .inr ⟨x, y, hF, hle, hax, hyb.tail hxy⟩

/-- Only an edge that does not descend can close a circle. -/
theorem acyclic_iff (rank : α → Nat) (hF : ∀ x y, F x y → E x y)
    (hE : ∀ x y, E x y → F x y ∨ rank y < rank x) :
    (∀ a, ¬ TransGen E a a) ↔ ∀ x y, F x y → rank x ≤ rank y → ¬ ReflTransGen E y x := by
  constructor
  · intro h x y hxy _ hback
    exact h x (.head' (hF x y hxy) hback)
  · intro h a ha
    rcases descends_or_climbs hE ha with hlt | ⟨x, y, hxy, hle, hax, hya⟩
    · exact Nat.lt_irrefl _ hlt
    · exact h x y hxy hle (hya.trans hax)

end RankedGraph

namespace Circles

open Relation

variable {α : Type} {E F : α → α → Prop} {a b : α} {n : Nat}

def OnCircle (E : α → α → Prop) (a : α) : Prop := TransGen E a a

/-- No circle can be reached. -/
def Clear (E : α → α → Prop) (a : α) : Prop := ∀ b, ReflTransGen E a b → ¬ OnCircle E b

theorem Clear.next (h : Clear E a) (hab : E a b) : Clear E b := fun c hc => h c (.head hab hc)

theorem Clear.not_onCircle (h : Clear E a) : ¬ OnCircle E a := h a .refl

theorem clear_of_next (h : ∀ b, E a b → Clear E b) : Clear E a := by
  have hself : ¬ OnCircle E a := by
    intro ha
    obtain ⟨b, hab, hba⟩ := TransGen.head'_iff.mp ha
    exact (h b hab).not_onCircle (.tail' hba hab)
  intro c hac
  rcases ReflTransGen.cases_head hac with rfl | ⟨b, hab, hbc⟩
  · exact hself
  · exact h b hab c hbc

/-- Where each of finitely many elements leads to another of them, all lead to a circle. -/
theorem not_clear_of_next {l : List α} (h : ∀ a ∈ l, ∃ b ∈ l, E a b) : ∀ a ∈ l, ¬ Clear E a := by
  let r (x y : {a // a ∈ l ∧ Clear E a}) : Prop := TransGen E y.1 x.1
  have hfinite : {a | a ∈ l ∧ Clear E a}.Finite := l.finite_toSet.subset fun _ ha => ha.1
  have : Finite {a // a ∈ l ∧ Clear E a} := hfinite.to_subtype
  have : IsTrans _ r := ⟨fun _ _ _ hxy hyz => TransGen.trans hyz hxy⟩
  have : Std.Irrefl r := ⟨fun x hx => x.2.2.not_onCircle hx⟩
  intro a ha hclear
  obtain ⟨x, -, hmin⟩ := (Finite.wellFounded_of_trans_of_irrefl r).has_min Set.univ
    ⟨⟨a, ha, hclear⟩, trivial⟩
  obtain ⟨b, hb, hxb⟩ := h x.1 x.2.1
  exact hmin ⟨b, hb, x.2.2.next hxb⟩ trivial (.single hxb)

/-- A path of a given number of edges. -/
inductive Chain (E : α → α → Prop) : α → Nat → Prop
  | start (a : α) : Chain E a 0
  | step {a b : α} {n : Nat} (hab : E a b) (hb : Chain E b n) : Chain E a (n + 1)

/-- The edges of the longest path from here; on the way to a circle there is none. -/
def Longest (E : α → α → Prop) (a : α) (n : Nat) : Prop := IsGreatest {n | Chain E a n} n

theorem Longest.unique {m : Nat} (h : Longest E a m) (h' : Longest E a n) : m = n :=
  IsGreatest.unique h h'

theorem Longest.lt {m : Nat} (h : Longest E a n) (hab : E a b) (hb : Longest E b m) : m < n :=
  h.2 (Chain.step hab hb.1)

/-- The longest path goes on along the longest path of a successor. -/
theorem longest_of_max (hle : ∀ b, E a b → ∃ m, Longest E b m ∧ m + 1 ≤ n)
    (hat : n = 0 ∨ ∃ b, E a b ∧ ∃ m, Longest E b m ∧ n = m + 1) : Longest E a n := by
  constructor
  · rcases hat with rfl | ⟨b, hab, m, hm, rfl⟩
    · exact Chain.start a
    · exact Chain.step hab hm.1
  · intro k hk
    cases hk with
    | start => exact Nat.zero_le n
    | step hab hb =>
      obtain ⟨m, hm, hmn⟩ := hle _ hab
      exact (Nat.succ_le_succ (hm.2 hb)).trans hmn

/-- A chain that cannot come back to where it was ends. -/
theorem Longest.clear (h : Longest E a n) : Clear E a := by
  intro b hab hb
  have hlong : ∀ m, ∃ k, m ≤ k ∧ Chain E b k := by
    intro m
    induction m with
    | zero => exact ⟨0, le_rfl, .start b⟩
    | succ m ih =>
      obtain ⟨k, hmk, hk⟩ := ih
      have hback : ∀ {c}, TransGen E c b → ∃ j, k < j ∧ Chain E c j := by
        intro c hc
        induction hc using TransGen.head_induction_on with
        | single hcb => exact ⟨k + 1, Nat.lt_succ_self k, .step hcb hk⟩
        | head hcd _ ih =>
          obtain ⟨j, hkj, hj⟩ := ih
          exact ⟨j + 1, Nat.lt_succ_of_lt hkj, .step hcd hj⟩
      obtain ⟨j, hkj, hj⟩ := hback hb
      exact ⟨j, Nat.lt_of_le_of_lt hmk hkj, hj⟩
  have hfrom : ∀ {c}, ReflTransGen E c b → ∀ m, ∃ k, m ≤ k ∧ Chain E c k := by
    intro c hc
    induction hc using ReflTransGen.head_induction_on with
    | refl => exact hlong
    | head hcd _ ih =>
      intro m
      obtain ⟨k, hmk, hk⟩ := ih m
      exact ⟨k + 1, Nat.le_succ_of_le hmk, .step hcd hk⟩
  obtain ⟨k, hk, hchain⟩ := hfrom hab (n + 1)
  exact absurd (h.2 hchain) (by omega)

/-- When each element with a property has another behind it, no element has it. -/
theorem none_of_behind {P : α → Prop} {l : List α} (hl : l.Nodup)
    (h : ∀ c ∈ l, P c → ∃ d, P d ∧ List.Sublist [c, d] l) : ∀ c ∈ l, ¬ P c := by
  induction l with
  | nil => simp
  | cons x l ih =>
    obtain ⟨hx, hl⟩ := List.nodup_cons.mp hl
    have hrest : ∀ c ∈ l, ¬ P c := by
      refine ih hl fun c hc hPc => ?_
      obtain ⟨d, hd, hsub⟩ := h c (List.mem_cons_of_mem x hc) hPc
      refine ⟨d, hd, ?_⟩
      cases hsub with
      | cons _ hsub => exact hsub
      | cons_cons _ _ => exact absurd hc hx
    intro c hc hPc
    rcases List.mem_cons.mp hc with rfl | hc
    · obtain ⟨d, hd, hsub⟩ := h c (by simp) hPc
      have hdl : d ∈ l := by
        cases hsub with
        | cons _ hsub => exact hsub.subset (by simp)
        | cons_cons _ hsub => exact hsub.subset (by simp)
      exact hrest d hdl hd
    · exact hrest c hc hPc

end Circles

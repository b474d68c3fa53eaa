import Mathlib.Algebra.BigOperators.Group.Finset.Basic
import Mathlib.Algebra.Order.BigOperators.Group.Finset

/-! Items handed out to bins of one capacity, along a list of offers. -/
namespace Greedy

variable {ι κ : Type} [DecidableEq κ]

/-- What a bin holds. -/
def load (taken : List (ι × κ)) (k : κ) : Nat := (taken.map Prod.snd).count k

/-- An item goes to the bin of its first offer that has room. -/
def assign [DecidableEq ι] (cap : Nat) : List (ι × κ) → List (ι × κ) → List (ι × κ)
  | taken, [] => taken
  | taken, x :: offers =>
    if x.1 ∈ taken.map Prod.fst ∨ cap ≤ load taken x.2 then assign cap taken offers
    else assign cap (taken ++ [x]) offers

/-- What holds after the offers seen so far. -/
structure Sound (cap : Nat) (seen taken : List (ι × κ)) : Prop where
  once : (taken.map Prod.fst).Nodup
  offered : ∀ x ∈ taken, x ∈ seen
  within : ∀ k, load taken k ≤ cap
  /-- An offer is turned down only as its item has a bin or its bin is full. -/
  settled : ∀ x ∈ seen, x.1 ∈ taken.map Prod.fst ∨ cap ≤ load taken x.2

variable {cap : Nat} {seen taken offers : List (ι × κ)} {x : ι × κ} {i : ι} {k : κ}
  {items : Finset ι} {bins : Finset κ}

theorem load_append : load (taken ++ [x]) k = load taken k + if x.2 = k then 1 else 0 := by
  simp [load, List.count_append, List.count_singleton]

theorem sound_nil : Sound cap ([] : List (ι × κ)) [] :=
  ⟨List.nodup_nil, fun _ hx => hx, fun _ => Nat.zero_le _, fun _ hx => absurd hx List.not_mem_nil⟩

theorem sound_skip (h : Sound cap seen taken)
    (hskip : x.1 ∈ taken.map Prod.fst ∨ cap ≤ load taken x.2) : Sound cap (seen ++ [x]) taken := by
  refine ⟨h.once, fun y hy => List.mem_append_left _ (h.offered y hy), h.within, fun y hy => ?_⟩
  obtain hy | hy := List.mem_append.mp hy
  · exact h.settled y hy
  · obtain rfl := List.mem_singleton.mp hy
    exact hskip

theorem sound_take (h : Sound cap seen taken) (hnew : x.1 ∉ taken.map Prod.fst)
    (hroom : load taken x.2 < cap) : Sound cap (seen ++ [x]) (taken ++ [x]) := by
  refine ⟨?_, fun y hy => ?_, fun k => ?_, fun y hy => ?_⟩
  · rw [List.map_append, List.nodup_append]
    refine ⟨h.once, by simp, fun a ha b hb => ?_⟩
    obtain rfl := List.mem_singleton.mp hb
    intro he
    exact hnew (he ▸ ha)
  · obtain hy | hy := List.mem_append.mp hy
    · exact List.mem_append_left _ (h.offered y hy)
    · exact List.mem_append_right _ hy
  · rw [load_append]
    have hk := h.within k
    split
    · rename_i he
      subst he
      omega
    · omega
  · obtain hy | hy := List.mem_append.mp hy
    · obtain hy | hy := h.settled y hy
      · left
        rw [List.map_append]
        exact List.mem_append_left _ hy
      · right
        rw [load_append]
        omega
    · obtain rfl := List.mem_singleton.mp hy
      left
      rw [List.map_append]
      exact List.mem_append_right _ (List.mem_singleton.mpr rfl)

theorem sound_assign [DecidableEq ι] (h : Sound cap seen taken) :
    Sound cap (seen ++ offers) (assign cap taken offers) := by
  induction offers generalizing seen taken with
  | nil => simpa [assign] using h
  | cons x offers ih =>
    unfold assign
    rw [List.append_cons]
    by_cases hskip : x.1 ∈ taken.map Prod.fst ∨ cap ≤ load taken x.2
    · rw [if_pos hskip]
      exact ih (sound_skip h hskip)
    · rw [if_neg hskip]
      obtain ⟨hnew, hroom⟩ := not_or.mp hskip
      exact ih (sound_take h hnew (Nat.lt_of_not_le hroom))

theorem sound_run [DecidableEq ι] (cap : Nat) (offers : List (ι × κ)) :
    Sound cap offers (assign cap [] offers) :=
  sound_assign sound_nil

theorem sum_load (h : ∀ x ∈ taken, x.2 ∈ bins) : ∑ k ∈ bins, load taken k = taken.length := by
  have hcount := Multiset.sum_count_eq_card (s := bins) (m := (taken.map Prod.snd : List κ))
    (by
      intro k hk
      obtain ⟨x, hx, rfl⟩ := List.mem_map.mp (Multiset.mem_coe.mp hk)
      exact h x hx)
  simpa [load] using hcount

/-- With room enough in all, and every item offered to every bin, nobody is left over. -/
theorem all_assigned [DecidableEq ι] (h : Sound cap offers taken)
    (hoffers : ∀ i k, (i, k) ∈ offers ↔ i ∈ items ∧ k ∈ bins)
    (hroom : items.card ≤ cap * bins.card) (hi : i ∈ items) : i ∈ taken.map Prod.fst := by
  by_contra hleft
  have hfull : ∀ k ∈ bins, cap ≤ load taken k := by
    intro k hk
    obtain hit | hfull := h.settled (i, k) ((hoffers i k).mpr ⟨hi, hk⟩)
    · exact absurd hit hleft
    · exact hfull
  have hbins : ∀ x ∈ taken, x.2 ∈ bins := fun x hx => ((hoffers x.1 x.2).mp (h.offered x hx)).2
  have hheld : bins.card * cap ≤ taken.length := by
    rw [← sum_load hbins]
    exact Finset.card_nsmul_le_sum bins (load taken) cap hfull
  have hothers : (taken.map Prod.fst).toFinset ⊆ items.erase i := by
    intro j hj
    obtain ⟨x, hx, rfl⟩ := List.mem_map.mp (List.mem_toFinset.mp hj)
    refine Finset.mem_erase.mpr ⟨?_, ((hoffers x.1 x.2).mp (h.offered x hx)).1⟩
    intro he
    exact hleft (he ▸ List.mem_map_of_mem hx)
  have hfewer := Finset.card_le_card hothers
  rw [List.toFinset_card_of_nodup h.once, List.length_map, Finset.card_erase_of_mem hi] at hfewer
  have hsome := Finset.card_pos.mpr ⟨i, hi⟩
  have hswap := Nat.mul_comm cap bins.card
  omega

end Greedy

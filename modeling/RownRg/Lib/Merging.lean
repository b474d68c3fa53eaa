import Mathlib.Data.List.Forall2

/-! Folds that add each item to the last result or start a new one: every result is made of a
stretch of the items. -/

namespace Merging

variable {α β : Type} {R : β → List α → Prop} {f : List β → α → List β} {as : List α} {a : α}
  {bs : List β} {b : β} {groups : List (List α)}

theorem exists_of_concat (h : List.Forall₂ R (bs ++ [b]) groups) :
    ∃ gs g, groups = gs ++ [g] ∧ List.Forall₂ R bs gs ∧ R b g := by
  induction bs generalizing groups with
  | nil =>
    cases h with
    | cons hab hnil =>
      cases hnil
      exact ⟨[], _, rfl, .nil, hab⟩
  | cons b' bs ih =>
    cases h with
    | cons hhead htail =>
      obtain ⟨gs, g, rfl, hinit, hlast⟩ := ih htail
      exact ⟨_ :: gs, g, rfl, .cons hhead hinit, hlast⟩

theorem exists_of_mem (h : List.Forall₂ R bs groups) (hb : b ∈ bs) : ∃ g ∈ groups, R b g := by
  induction h with
  | nil => cases hb
  | cons hab htail ih =>
    rcases List.mem_cons.mp hb with rfl | hb
    · exact ⟨_, List.mem_cons_self, hab⟩
    · obtain ⟨g, hg, hab⟩ := ih hb
      exact ⟨g, List.mem_cons_of_mem _ hg, hab⟩

/-- A step that starts a result with its item, or adds its item to the last one. -/
def Extends (R : β → List α → Prop) (f : List β → α → List β) : Prop :=
  ∀ bs a, (∃ b, f bs a = bs ++ [b] ∧ R b [a]) ∨
    ∃ init last b, bs = init ++ [last] ∧ f bs a = init ++ [b] ∧ ∀ g, R last g → R b (g ++ [a])

/-- The results of such a fold, and the stretches that they are made of. -/
theorem exists_groups (hf : Extends R f) (as : List α) :
    ∃ groups : List (List α), groups.flatten = as ∧ List.Forall₂ R (as.foldl f []) groups := by
  have hall : ∀ (as : List α) (gs : List (List α)) (bs : List β), List.Forall₂ R bs gs →
      ∃ groups, groups.flatten = gs.flatten ++ as ∧ List.Forall₂ R (as.foldl f bs) groups := by
    intro as
    induction as with
    | nil => exact fun gs bs h => ⟨gs, (List.append_nil _).symm, h⟩
    | cons a as ih =>
      intro gs bs h
      rcases hf bs a with ⟨b, heq, hb⟩ | ⟨init, last, b, rfl, heq, hb⟩
      · obtain ⟨groups, hflat, hgroups⟩ := ih (gs ++ [[a]]) (bs ++ [b])
          (List.rel_append h (.cons hb .nil))
        exact ⟨groups, by simpa using hflat, by rwa [List.foldl_cons, heq]⟩
      · obtain ⟨gs, g, rfl, hinit, hlast⟩ := exists_of_concat h
        obtain ⟨groups, hflat, hgroups⟩ := ih (gs ++ [g ++ [a]]) (init ++ [b])
          (List.rel_append hinit (.cons (hb g hlast) .nil))
        exact ⟨groups, by simpa using hflat, by rwa [List.foldl_cons, heq]⟩
  simpa using hall as [] [] .nil

end Merging

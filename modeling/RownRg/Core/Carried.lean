import RownRg.Core.RenumberLaws

/-! The marks of a text as lists of numbers, and what renumbering makes of them. -/

open PyText Regex

namespace RownRg.Citations

variable {t : Text} {f F F₁ F₂ : Nat → Option Nat} {n g : Nat} {ns : List Nat} {m : Match MarkGroup}
  {ps : List (Piece MarkGroup)} {ls : List (List Nat)}

/-- The numbers of every mark, in the order of the marks. -/
def markLists (t : Text) : List (List Nat) :=
  (markRe.finditer t).map fun m => (markNumbers m).eraseDups

/-- The numbers of a mark under a map; a mark without any goes. -/
def carried (f : Nat → Option Nat) (ns : List Nat) : Option (List Nat) :=
  let mapped := (ns.filterMap f).eraseDups
  if mapped.isEmpty then none else some mapped

theorem mem_markLists : n ∈ numbersInOrder t ↔ ∃ ns ∈ markLists t, n ∈ ns := by
  simp [numbersInOrder, markLists, List.mem_eraseDups, List.mem_flatMap]

theorem nodup_of_mem_markLists (h : ns ∈ markLists t) : ns.Nodup := by
  obtain ⟨m, -, rfl⟩ := List.mem_map.mp h
  exact FirstSeen.nodup _

theorem ne_nil_of_mem_markLists (h : ns ∈ markLists t) : ns ≠ [] := by
  obtain ⟨m, -, rfl⟩ := List.mem_map.mp h
  exact mt FirstSeen.eq_nil (markNumbers_ne_nil m)

theorem markLists_eq (t : Text) :
    markLists t = (hits (marks t)).map fun m => (markNumbers m).eraseDups := rfl

/-- The numbers of one mark after renumbering. -/
theorem markNumbers_renumberMatch (sp : Text) (k : Core) :
    (renumberMatch f (mark sp k)).map (fun m => (markNumbers m).eraseDups) =
      carried f (markNumbers (mark sp k)).eraseDups := by
  have hsame := FirstSeen.filterMap_eraseDups f (markNumbers (mark sp k))
  unfold FirstSeen.Same at hsame
  simp only [carried, hsame]
  cases h : ((markNumbers (mark sp k)).filterMap f).eraseDups with
  | nil => simp [renumberMatch, h]
  | cons g gs =>
    have hnodup : (g :: gs).eraseDups = g :: gs := by
      rw [← h]
      exact FirstSeen.idem _
    rw [renumberMatch_some h]
    cases hq : k.isQuote with
    | false => simp [numbers_written_source, hnodup]
    | true =>
      obtain ⟨a, ha⟩ := markNumbers_quote sp hq
      have hgs : gs = [] := by
        rw [ha] at h
        cases hf : f a <;> simp_all [List.eraseDups_cons]
      subst hgs
      simp [numbers_written_quote, hnodup]

/-- At safe seams renumbering carries every mark over by its map. -/
theorem markLists_renumber (h : SeamSafe f t) :
    markLists (renumber t f) = (markLists t).filterMap (carried f) := by
  have hall : ∀ {ps : List (Piece MarkGroup)}, Proper ps →
      (hits (ps.filterMap (renumberPiece f))).map (fun m => (markNumbers m).eraseDups) =
        ((hits ps).map fun m => (markNumbers m).eraseDups).filterMap (carried f) := by
    intro ps hps
    induction ps with
    | nil => rfl
    | cons p ps ih =>
      have ih := ih (proper_tail hps)
      cases p with
      | plain c => exact ih
      | hit m =>
        obtain ⟨sp, k, -, -, rfl⟩ := hps m (by simp)
        have hmark := markNumbers_renumberMatch (f := f) sp k
        cases hm : renumberMatch f (mark sp k) with
        | none =>
          rw [hm] at hmark
          simpa [renumberPiece, hits, Piece.match?, hm, ← hmark] using ih
        | some m' =>
          rw [hm] at hmark
          simpa [renumberPiece, hits, Piece.match?, hm, ← hmark] using ih
  rw [markLists_eq, marks_renumber h, hall (proper_tokens (tokens_marks t)), ← markLists_eq]

theorem mem_carried {ns' : List Nat} (h : carried f ns = some ns') :
    g ∈ ns' ↔ ∃ n ∈ ns, f n = some g := by
  unfold carried at h
  simp only at h
  split at h
  · simp at h
  · obtain rfl := Option.some.inj h
    rw [List.mem_eraseDups, List.mem_filterMap]

theorem carried_isSome (hn : n ∈ ns) (h : f n = some g) : ∃ ns', carried f ns = some ns' := by
  have hg : g ∈ (ns.filterMap f).eraseDups :=
    List.mem_eraseDups.mpr (List.mem_filterMap.mpr ⟨n, hn, h⟩)
  have hne : (ns.filterMap f).eraseDups ≠ [] := List.ne_nil_of_mem hg
  exact ⟨(ns.filterMap f).eraseDups, by simp [carried, hne]⟩

/-- Carrying over twice is carrying over by the composed map. -/
theorem carried_comp : ((carried F₁ ns).bind (carried F₂)) =
    carried (fun n => (F₁ n).bind F₂) ns := by
  have hsame := FirstSeen.filterMap_eraseDups F₂ (ns.filterMap F₁)
  unfold FirstSeen.Same at hsame
  rw [List.filterMap_filterMap] at hsame
  unfold carried
  by_cases hempty : (ns.filterMap F₁).eraseDups = []
  · rw [hempty] at hsame ⊢
    simp only [List.filterMap_nil, List.eraseDups_nil] at hsame
    simp [← hsame]
  · simp [hempty, hsame]

theorem carried_id (hnodup : ns.Nodup) (hne : ns ≠ []) (h : ∀ n ∈ ns, f n = some n) :
    carried f ns = some ns := by
  have hmap : ns.filterMap f = ns := by
    rw [List.filterMap_congr h, List.filterMap_some]
  simp [carried, hmap, FirstSeen.of_nodup hnodup, hne]

/-- A map that keeps every number keeps the marks. -/
theorem markLists_id (h : ∀ n ∈ numbersInOrder t, f n = some n) :
    (markLists t).filterMap (carried f) = markLists t := by
  have hself : ∀ ns ∈ markLists t, carried f ns = some ns := fun ns hns =>
    carried_id (nodup_of_mem_markLists hns) (ne_nil_of_mem_markLists hns) fun n hn =>
      h n (mem_markLists.2 ⟨ns, hns, hn⟩)
  rw [List.filterMap_congr hself, List.filterMap_some]

theorem some_of_filterMap_eq {α : Type} {p : α → Option α} {l : List α} (h : l.filterMap p = l) :
    ∀ x ∈ l, p x = some x := by
  induction l with
  | nil => simp
  | cons x l ih =>
    cases hx : p x with
    | none =>
      rw [List.filterMap_cons_none hx] at h
      have hle := List.length_filterMap_le p l
      rw [h, List.length_cons] at hle
      omega
    | some y =>
      rw [List.filterMap_cons_some hx] at h
      obtain ⟨rfl, htail⟩ := List.cons.inj h
      exact List.forall_mem_cons.mpr ⟨hx, ih htail⟩

/-- A map that keeps the marks keeps every number. -/
theorem id_of_markLists (h : (markLists t).filterMap (carried f) = markLists t) :
    ∀ n ∈ numbersInOrder t, f n = some n := by
  intro n hn
  obtain ⟨ns, hns, hn⟩ := mem_markLists.1 hn
  have hcarried := some_of_filterMap_eq h ns hns
  have hdedup : (ns.filterMap f).eraseDups = ns := by
    unfold carried at hcarried
    simp only at hcarried
    split at hcarried
    · simp at hcarried
    · exact Option.some.inj hcarried
  have hsub := FirstSeen.sublist (ns.filterMap f)
  rw [hdedup] at hsub
  have heq := hsub.eq_of_length_le (List.length_filterMap_le f ns)
  exact some_of_filterMap_eq heq.symm n hn

end RownRg.Citations

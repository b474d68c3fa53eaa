import Mathlib.Data.List.Induction
import Mathlib.Order.Lattice

/-! Entries with levels, read one after another: which of them stand around the next one. -/
namespace Enclosing

variable {ι α δ : Type} [LinearOrder ι] {es pre post : List (ι × α)} {a e : ι × α}

/-- One more entry closes those of its own level and of deeper ones. -/
def push (opened : List (ι × α)) (e : ι × α) : List (ι × α) := opened.filter (·.1 < e.1) ++ [e]

/-- The entries that are open behind a list of entries. -/
def opened (es : List (ι × α)) : List (ι × α) := es.foldl push []

theorem mem_push : a ∈ push es e ↔ (a ∈ es ∧ a.1 < e.1) ∨ a = e := by
  simp [push]

theorem opened_concat (es : List (ι × α)) (e : ι × α) : opened (es ++ [e]) = push (opened es) e := by
  simp [opened]

/-- An entry stays open while only deeper ones follow. -/
theorem mem_opened_iff : a ∈ opened es ↔ ∃ pre post, es = pre ++ a :: post ∧ ∀ b ∈ post, a.1 < b.1 := by
  induction es using List.reverseRecOn with
  | nil => simp [opened]
  | append_singleton es e ih =>
    rw [opened_concat, mem_push, ih]
    constructor
    · rintro (⟨⟨pre, post, rfl, hpost⟩, hlow⟩ | rfl)
      · refine ⟨pre, post ++ [e], by simp, fun b hb => ?_⟩
        rcases List.mem_append.mp hb with hb | hb
        · exact hpost b hb
        · exact List.mem_singleton.mp hb ▸ hlow
      · exact ⟨es, [], rfl, by simp⟩
    · rintro ⟨pre, post, hes, hpost⟩
      rcases List.eq_nil_or_concat post with rfl | ⟨post', b, rfl⟩
      · obtain ⟨-, he⟩ := List.append_inj' hes rfl
        exact .inr (List.singleton_inj.mp he).symm
      · rw [List.concat_eq_append, ← List.cons_append, ← List.append_assoc] at hes
        obtain ⟨rfl, hb⟩ := List.append_inj' hes rfl
        obtain rfl := List.singleton_inj.mp hb
        refine .inl ⟨⟨pre, post', rfl, fun c hc => hpost c (by simp [hc])⟩, hpost e (by simp)⟩

/-- Whatever the entry names, an open entry of a lower level names too. -/
def Covered (es : List (ι × List δ)) (e : ι × List δ) : Prop :=
  ∀ d ∈ e.2, ∃ a ∈ opened es, a.1 < e.1 ∧ d ∈ a.2

/-- What a list of entries ends in stands no higher than an entry that only deeper ones follow. -/
theorem le_last {pre' post' : List (ι × α)} (h : pre ++ [e] = pre' ++ a :: post')
    (hpost : ∀ b ∈ post', a.1 < b.1) : a.1 ≤ e.1 := by
  rcases List.eq_nil_or_concat post' with rfl | ⟨post'', b, rfl⟩
  · obtain ⟨-, he⟩ := List.append_inj' h rfl
    obtain rfl := List.singleton_inj.mp he
    exact le_rfl
  · rw [List.concat_eq_append, ← List.cons_append, ← List.append_assoc] at h
    obtain ⟨-, he⟩ := List.append_inj' h rfl
    obtain rfl := List.singleton_inj.mp he
    exact (hpost e (by simp)).le

/-- What an entry names, it or one around it names that is not covered itself. -/
theorem exists_uncovered (es : List (ι × List δ)) {e : ι × List δ} {d : δ} (hd : d ∈ e.2) :
    ∃ pre a post, es ++ [e] = pre ++ a :: post ∧ d ∈ a.2 ∧ ¬ Covered pre a ∧
      ∀ b ∈ post, a.1 < b.1 := by
  induction hn : es.length using Nat.strongRecOn generalizing es e with
  | ind n ih =>
    by_cases hcovered : Covered es e
    · obtain ⟨a, ha, hlow, hda⟩ := hcovered d hd
      obtain ⟨pre, post, rfl, hpost⟩ := mem_opened_iff.1 ha
      obtain ⟨pre', a', post', hsplit, hda', hnot, hpost'⟩ :=
        ih pre.length (by simp [← hn]) pre hda rfl
      have hle : a'.1 ≤ a.1 := le_last hsplit hpost'
      refine ⟨pre', a', post' ++ (post ++ [e]), ?_, hda', hnot, fun b hb => ?_⟩
      · calc pre ++ a :: post ++ [e] = (pre ++ [a]) ++ (post ++ [e]) := by simp
          _ = pre' ++ a' :: (post' ++ (post ++ [e])) := by rw [hsplit]; simp
      · rcases List.mem_append.mp hb with hb | hb
        · exact hpost' b hb
        · rcases List.mem_append.mp hb with hb | hb
          · exact hle.trans_lt (hpost b hb)
          · exact hle.trans_lt (List.mem_singleton.mp hb ▸ hlow)
    · exact ⟨es, e, [], rfl, hd, hcovered, by simp⟩

end Enclosing

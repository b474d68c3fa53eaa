import Mathlib.Data.List.Basic

/-! Runs of a machine whose events it may refuse. -/
namespace Runs

variable {σ ε : Type} (step : σ → ε → Option σ)

/-- `P` holds of every state a run visits; a refused event ends the run. -/
def Always (P : σ → Prop) : σ → List ε → Prop
  | s, [] => P s
  | s, e :: es => P s ∧ ∀ t, step s e = some t → Always P t es

/-- Every step of the run meets the condition. -/
def Along (ok : σ → ε → σ → Prop) : σ → List ε → Prop
  | _, [] => True
  | s, e :: es => ∀ t, step s e = some t → ok s e t ∧ Along ok t es

/-- The state a run ends in; `none` when an event was refused. -/
def run : σ → List ε → Option σ
  | s, [] => some s
  | s, e :: es => (step s e).bind fun t => run t es

variable {step} {P Q : σ → Prop} {ok ok' : σ → ε → σ → Prop} {s t : σ} {e : ε} {es : List ε}

theorem along_cons_iff :
    Along step ok s (e :: es) ↔ ∀ t, step s e = some t → ok s e t ∧ Along step ok t es := .rfl

instance decidableAlong [∀ s e t, Decidable (ok s e t)] :
    (s : σ) → (es : List ε) → Decidable (Along step ok s es)
  | _, [] => isTrue trivial
  | s, e :: es =>
    match h : step s e with
    | none => isTrue fun t ht => by simp [h] at ht
    | some t =>
      have := decidableAlong t es
      decidable_of_iff (ok s e t ∧ Along step ok t es) (by simp [along_cons_iff, h])

theorem Always.head (h : Always step P s es) : P s := by
  cases es with
  | nil => exact h
  | cons e es => exact h.1

theorem Always.mono (hi : ∀ s, P s → Q s) (h : Always step P s es) : Always step Q s es := by
  induction es generalizing s with
  | nil => exact hi s h
  | cons e es ih => exact ⟨hi s h.1, fun t ht => ih (h.2 t ht)⟩

/-- What holds always holds where a run ends. -/
theorem Always.last (h : Always step P s es) (hr : run step s es = some t) : P t := by
  induction es generalizing s with
  | nil =>
    cases hr
    exact h
  | cons e es ih =>
    obtain ⟨u, hu, hr⟩ := Option.bind_eq_some_iff.mp hr
    exact ih (h.2 u hu) hr

/-- What holds at the start and is kept by every good step holds all along a good run. -/
theorem always_of_step (keep : ∀ s e t, step s e = some t → ok s e t → P s → P t)
    (hs : P s) (h : Along step ok s es) : Always step P s es := by
  induction es generalizing s with
  | nil => exact hs
  | cons e es ih => exact ⟨hs, fun t ht => ih (keep s e t ht (h t ht).1 hs) (h t ht).2⟩

/-- A property that a step keeps exactly when the step is good holds all along exactly the good
runs. -/
theorem always_iff_along {I : σ → Prop} (keep : ∀ s e t, step s e = some t → I s → I t)
    (good : ∀ s e t, step s e = some t → I s → P s → (P t ↔ ok s e t)) (hi : I s) (hs : P s) :
    Always step P s es ↔ Along step ok s es := by
  induction es generalizing s with
  | nil => exact iff_of_true hs trivial
  | cons e es ih =>
    constructor
    · intro h t ht
      have hgood := good s e t ht hi hs
      have hp : P t := (h.2 t ht).head
      exact ⟨hgood.mp hp, (ih (keep s e t ht hi) hp).mp (h.2 t ht)⟩
    · intro h
      refine ⟨hs, fun t ht => ?_⟩
      have hp : P t := (good s e t ht hi hs).mpr (h t ht).1
      exact (ih (keep s e t ht hi) hp).mpr (h t ht).2

theorem run_split {es' : List ε} (h : run step s (es ++ e :: es') = some t) :
    ∃ u v, run step s es = some u ∧ step u e = some v ∧ run step v es' = some t := by
  induction es generalizing s with
  | nil =>
    obtain ⟨v, hv, h⟩ := Option.bind_eq_some_iff.mp h
    exact ⟨s, v, rfl, hv, h⟩
  | cons e₁ es ih =>
    obtain ⟨w, hw, h⟩ := Option.bind_eq_some_iff.mp h
    obtain ⟨u, v, hu, hv, hlast⟩ := ih h
    exact ⟨u, v, by rw [run, hw, Option.bind_some, hu], hv, hlast⟩

/-- What holds at the start and is kept by every step holds where a run ends. -/
theorem invariant_run (keep : ∀ s e t, step s e = some t → P s → P t) (hs : P s)
    (h : run step s es = some t) : P t := by
  induction es generalizing s with
  | nil =>
    cases h
    exact hs
  | cons e es ih =>
    obtain ⟨u, hu, h⟩ := Option.bind_eq_some_iff.mp h
    exact ih (keep s e u hu hs) h

/-- Where every step keeps an invariant, it is enough that two conditions agree under it. -/
theorem along_congr (keep : ∀ s e t, step s e = some t → P s → P t)
    (agree : ∀ s e t, step s e = some t → P s → (ok s e t ↔ ok' s e t)) (hs : P s) :
    Along step ok s es ↔ Along step ok' s es := by
  induction es generalizing s with
  | nil => exact Iff.rfl
  | cons e es ih =>
    constructor
    · intro h t ht
      obtain ⟨hok, h⟩ := h t ht
      exact ⟨(agree s e t ht hs).mp hok, (ih (keep s e t ht hs)).mp h⟩
    · intro h t ht
      obtain ⟨hok, h⟩ := h t ht
      exact ⟨(agree s e t ht hs).mpr hok, (ih (keep s e t ht hs)).mpr h⟩

theorem Along.and (h : Along step ok s es) (h' : Along step ok' s es) :
    Along step (fun s e t => ok s e t ∧ ok' s e t) s es := by
  induction es generalizing s with
  | nil => trivial
  | cons e es ih => exact fun t ht => ⟨⟨(h t ht).1, (h' t ht).1⟩, ih (h t ht).2 (h' t ht).2⟩

/-- What each step shows of itself from an invariant and from what holds after it holds of
every step. -/
theorem along_of_always
    (show' : ∀ s e t, step s e = some t → ok s e t → P s → Q t → ok' s e t)
    (keep : ∀ s e t, step s e = some t → ok s e t ∧ ok' s e t → P s → P t)
    (hs : P s) (h : Along step ok s es) (hq : Always step Q s es) : Along step ok' s es := by
  induction es generalizing s with
  | nil => trivial
  | cons e es ih =>
    intro t ht
    have ho := show' s e t ht (h t ht).1 hs (hq.2 t ht).head
    exact ⟨ho, ih (keep s e t ht ⟨(h t ht).1, ho⟩ hs) (h t ht).2 (hq.2 t ht)⟩

/-- Good events of one kind leave no trace: every other event goes on as without them. -/
theorem run_without {R : σ → σ → Prop} (silent : ε → Bool)
    (unseen : ∀ s e t s', step s e = some t → silent e → ok s e t → R s s' → R t s')
    (seen : ∀ s e t s', step s e = some t → silent e = false → R s s' →
      ∃ t', step s' e = some t' ∧ R t t')
    {s' : σ} (hs : R s s') (h : Along step ok s es) (hr : run step s es = some t) :
    ∃ t', run step s' (es.filter fun e => !silent e) = some t' ∧ R t t' := by
  induction es generalizing s s' with
  | nil =>
    cases hr
    exact ⟨s', rfl, hs⟩
  | cons e es ih =>
    obtain ⟨u, hu, hr⟩ := Option.bind_eq_some_iff.mp hr
    obtain ⟨hok, h⟩ := h u hu
    by_cases he : silent e
    · rw [List.filter_cons_of_neg (by simpa using he)]
      exact ih (unseen s e u s' hu he hok hs) h hr
    · rw [Bool.not_eq_true] at he
      rw [List.filter_cons_of_pos (by simpa using he)]
      obtain ⟨u', hu', hR⟩ := seen s e u s' hu he hs
      obtain ⟨t', ht', hRt⟩ := ih hR h hr
      exact ⟨t', by rw [run, hu', Option.bind_some, ht'], hRt⟩

end Runs

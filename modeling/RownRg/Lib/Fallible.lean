import Mathlib.Data.Bool.Basic

/-! Checks that raise, chained. -/
namespace Fallible

variable {ε α β : Type} {x : Except ε α} {f : α → Except ε β} {b : β} {p : Bool} {e : ε}

/-- Raises unless the condition holds. -/
def require (p : Bool) (e : ε) : Except ε Unit := if p then .ok () else .error e

@[simp] theorem bind_eq_ok : (x >>= f) = .ok b ↔ ∃ a, x = .ok a ∧ f a = .ok b := by
  cases x with
  | error e => simp [bind, Except.bind]
  | ok a => simp [bind, Except.bind]

@[simp] theorem require_eq_ok {u : Unit} : require p e = .ok u ↔ p := by
  cases p <;> simp [require]

theorem mapM_eq_some {f : α → Option β} {as : List α} {bs : List β} :
    as.mapM f = some bs ↔ as.map f = bs.map some := by
  induction as generalizing bs with
  | nil => cases bs <;> simp
  | cons a as ih =>
    rw [List.mapM_cons, List.map_cons]
    cases hf : f a with
    | none => cases bs <;> simp
    | some b' =>
      cases has : as.mapM f with
      | none =>
        have hne : ∀ bs : List β, as.map f ≠ bs.map some := fun bs h => by simp [ih.mpr h] at has
        cases bs <;> simp [hne]
      | some bs' =>
        have hrest : as.map f = bs'.map some := ih.mp has
        have hinj : ∀ cs : List β, bs'.map some = cs.map some ↔ bs' = cs := fun cs =>
          List.map_inj_right fun _ _ h => Option.some.inj h
        cases bs <;> simp [hrest, hinj]

theorem mapM_of_isSome {f : α → Option β} {as : List α} (h : ∀ a ∈ as, (f a).isSome) :
    as.mapM f = some (as.filterMap f) := by
  rw [mapM_eq_some]
  induction as with
  | nil => rfl
  | cons a as ih =>
    obtain ⟨b, hb⟩ := Option.isSome_iff_exists.mp (h a List.mem_cons_self)
    rw [List.map_cons, List.filterMap_cons_some hb, List.map_cons, hb,
      ih fun x hx => h x (List.mem_cons_of_mem _ hx)]

theorem mapM_eq_ok {as : List α} {bs : List β} :
    as.mapM f = .ok bs ↔ as.map f = bs.map .ok := by
  induction as generalizing bs with
  | nil => cases bs <;> simp [pure, Except.pure]
  | cons a as ih =>
    rw [List.mapM_cons, List.map_cons, bind_eq_ok]
    constructor
    · rintro ⟨b, hb, h⟩
      obtain ⟨bs', hbs, h⟩ := bind_eq_ok.1 h
      obtain rfl := Except.ok.inj h
      rw [List.map_cons, hb, ih.mp hbs]
    · intro h
      cases bs with
      | nil => simp at h
      | cons b bs =>
        obtain ⟨hb, hbs⟩ := List.cons.inj h
        exact ⟨b, hb, bind_eq_ok.2 ⟨bs, ih.mpr hbs, rfl⟩⟩

theorem of_guard {q : Prop} [Decidable q] {y : Except ε β} (h : (if q then .error e else y) = .ok b) :
    ¬ q ∧ y = .ok b := by
  split at h
  · cases h
  · exact ⟨‹_›, h⟩

/-- What every step that succeeds keeps, a run that succeeds keeps. -/
theorem foldlM_keeps {P : β → Prop} {f : β → α → Except ε β} {as : List α} {b b' : β}
    (hstep : ∀ b a b', P b → f b a = .ok b' → P b') (hb : P b) (h : as.foldlM f b = .ok b') : P b' := by
  induction as generalizing b with
  | nil =>
    obtain rfl := Except.ok.inj h
    exact hb
  | cons a as ih =>
    rw [List.foldlM_cons] at h
    obtain ⟨mid, hmid, h⟩ := bind_eq_ok.1 h
    exact ih (hstep b a mid hb hmid) h

end Fallible

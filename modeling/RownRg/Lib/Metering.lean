import Mathlib.Algebra.Order.Group.Defs
import Mathlib.Algebra.Order.Monoid.Unbundled.Pow
import Mathlib.Tactic.Abel
import RownRg.Lib.Runs

/-! A meter that is read before each purchase and charged after it, by any number of buyers at
once: what it shows at most. -/
namespace Metering

variable {α : Type} [AddCommGroup α] [LinearOrder α]

/-- What the meter shows, and how many purchases were let through and not charged yet. -/
structure Meter (α : Type) where
  recorded : α
  pending : ℕ

/-- What can happen to a meter that lets through below the limit `L`, with prices of at most `C`. -/
inductive Change (L C : α) (m : Meter α) : Meter α → Prop
  | letIn (h : m.recorded ≤ L) : Change L C m ⟨m.recorded, m.pending + 1⟩
  | settle {c : α} {n : ℕ} (hc : c ≤ C) (hn : m.pending = n + 1) :
      Change L C m ⟨m.recorded + c, n⟩
  | lower {r : α} {n : ℕ} (hr : r ≤ m.recorded) (hn : n ≤ m.pending) : Change L C m ⟨r, n⟩

/-- What is recorded and what is under way stay below what `K` purchases add to the limit. -/
def Within (L C : α) (K : ℕ) (m : Meter α) : Prop := m.recorded + m.pending • C ≤ L + K • C

variable {L C : α} {K : ℕ} {m m' : Meter α}

theorem Change.refl : Change L C m m := .lower le_rfl le_rfl

/-- A purchase that goes on: it is let through now only below the limit. -/
theorem Change.of_toNat {a b : Bool} {n : ℕ} (hcount : n + a.toNat = m.pending + b.toNat)
    (hlow : b → a ∨ m.recorded ≤ L) : Change L C m ⟨m.recorded, n⟩ := by
  by_cases hn : n ≤ m.pending
  · exact .lower le_rfl hn
  · obtain ⟨rfl, rfl⟩ : a = false ∧ b = true := by
      cases a <;> cases b <;> simp at hcount ⊢ <;> omega
    obtain rfl : n = m.pending + 1 := by simpa using hcount
    exact .letIn ((hlow rfl).resolve_left (by simp))

variable [IsOrderedAddMonoid α]

/-- A purchase that ends: what was not let through costs nothing more. -/
theorem Change.charge {a : Bool} {n : ℕ} {c : α} (hcount : n + a.toNat = m.pending)
    (hc : c ≤ if a then C else 0) : Change L C m ⟨m.recorded + c, n⟩ := by
  cases a with
  | false =>
    have hle : m.recorded + c ≤ m.recorded + 0 := by gcongr; simpa using hc
    exact .lower (by simpa using hle) (by simp_all)
  | true => exact .settle (by simpa using hc) (by simpa using hcount.symm)

theorem Within.recorded_le (hC : 0 ≤ C) (h : Within L C K m) : m.recorded ≤ L + K • C :=
  (le_add_of_nonneg_right (nsmul_nonneg hC _)).trans h

/-- A change that leaves at most `K` purchases under way stays within the bound. -/
theorem Change.within (hC : 0 ≤ C) (h : Change L C m m') (hK : m'.pending ≤ K)
    (hm : Within L C K m) : Within L C K m' := by
  cases h with
  | letIn hL => exact add_le_add hL (nsmul_le_nsmul_left hC hK)
  | @settle c n hc hn =>
    have hm' : m.recorded + (n + 1) • C ≤ L + K • C := hn ▸ hm
    calc m.recorded + c + n • C ≤ m.recorded + C + n • C := by gcongr
      _ = m.recorded + (n + 1) • C := by rw [succ_nsmul]; abel
      _ ≤ L + K • C := hm'
  | lower hr hn => exact (add_le_add hr (nsmul_le_nsmul_left hC hn)).trans hm

/-- A machine whose good steps change the meter so never shows more than what `K` purchases add
to the limit. -/
theorem always_recorded_le {σ ε : Type} {step : σ → ε → Option σ} (meter : σ → Meter α)
    {I : σ → Prop} {ok : σ → ε → σ → Prop} {s : σ} {es : List ε} (hC : 0 ≤ C)
    (keep : ∀ s e t, step s e = some t → ok s e t → I s →
      I t ∧ Change L C (meter s) (meter t) ∧ (meter t).pending ≤ K)
    (hI : I s) (hs : Within L C K (meter s)) (h : Runs.Along step ok s es) :
    Runs.Always step (fun s => (meter s).recorded ≤ L + K • C) s es := by
  have hboth : Runs.Always step (fun s => I s ∧ Within L C K (meter s)) s es := by
    refine Runs.always_of_step (fun s e t ht hok hs => ?_) ⟨hI, hs⟩ h
    obtain ⟨hIt, hchange, hK⟩ := keep s e t ht hok hs.1
    exact ⟨hIt, hchange.within hC hK hs.2⟩
  exact hboth.mono fun s hs => hs.2.recorded_le hC

end Metering

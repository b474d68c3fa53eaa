import RownRg.Core.Outline

/-! The ids that an outline is given. -/

open PyText

namespace RownRg.Outlines

variable {fresh : Nat → Uuid} {renew : Bool} {st : ClaimState} {raw : Option Text}
  {raws raws' : List (Option Text)} {o : Outline} {secs : List OutlineSection} {x y : Text} {N i : Nat}
  {us : List Uuid}

/-- The ids of an outline as they were entered, in the order in which they are claimed. -/
def rawIds (o : Outline) : List (Option Text) :=
  o.flatMap fun ch => ch.id :: ch.sections.map (·.id)

/-- The ids of a list of items, and the state after them. -/
def claimAll (fresh : Nat → Uuid) (renew : Bool) :
    ClaimState → List (Option Text) → List Text × ClaimState
  | st, [] => ([], st)
  | st, raw :: raws =>
    let x := claim fresh renew st raw
    let rest := claimAll fresh renew x.2 raws
    (x.1 :: rest.1, rest.2)

theorem claimAll_nil : claimAll fresh renew st [] = ([], st) := rfl

theorem claimAll_cons : claimAll fresh renew st (raw :: raws) =
    ((claim fresh renew st raw).1 :: (claimAll fresh renew (claim fresh renew st raw).2 raws).1,
      (claimAll fresh renew (claim fresh renew st raw).2 raws).2) := rfl

theorem claimAll_append : claimAll fresh renew st (raws ++ raws') =
    ((claimAll fresh renew st raws).1 ++
        (claimAll fresh renew (claimAll fresh renew st raws).2 raws').1,
      (claimAll fresh renew (claimAll fresh renew st raws).2 raws').2) := by
  induction raws generalizing st with
  | nil => rfl
  | cons raw raws ih => simp [claimAll_cons, ih]

theorem claimSections_eq : (claimSections fresh renew st secs).1.map (·.id) =
    (claimAll fresh renew st (secs.map (·.id))).1.map some ∧
    (claimSections fresh renew st secs).2 = (claimAll fresh renew st (secs.map (·.id))).2 := by
  induction secs generalizing st with
  | nil => exact ⟨rfl, rfl⟩
  | cons sec secs ih => simp [claimSections, claimAll_cons, ih]

theorem claimChapters_eq : rawIds (claimChapters fresh renew st o).1 =
    (claimAll fresh renew st (rawIds o)).1.map some ∧
    (claimChapters fresh renew st o).2 = (claimAll fresh renew st (rawIds o)).2 := by
  induction o generalizing st with
  | nil => exact ⟨rfl, rfl⟩
  | cons ch chs ih =>
    have hsplit : rawIds (ch :: chs) = (ch.id :: ch.sections.map (·.id)) ++ rawIds chs := rfl
    obtain ⟨hids, hst⟩ := @claimSections_eq fresh renew (claim fresh renew st ch.id).2 ch.sections
    rw [hsplit, claimAll_append]
    simp only [claimChapters, claimAll_cons]
    rw [← hst]
    obtain ⟨ihids, ihst⟩ := @ih (claimSections fresh renew (claim fresh renew st ch.id).2 ch.sections).2
    refine ⟨?_, ihst⟩
    simp only [rawIds, List.flatMap_cons] at ihids ⊢
    rw [ihids, hids]
    simp

/-- The drawn ids are new: `uuid4` repeats neither itself nor an id of the outline. -/
structure FreshFor (fresh : Nat → Uuid) (raws : List (Option Text)) (n : Nat) : Prop where
  apart : ∀ i < n, ∀ j < i, fresh j ≠ fresh i
  new : ∀ i < n, ∀ raw ∈ raws, validId raw ≠ some (fresh i).str

/-- Thirty-three ids that could be drawn one after the other. -/
def drawn (n : Nat) : Uuid where
  hex := List.replicate (min n 32) 'b' ++ List.replicate (32 - min n 32) 'a'
  length := by
    simp only [List.length_append, List.length_replicate]
    omega
  lower := by
    refine List.all_eq_true.mpr fun c hc => ?_
    rcases List.mem_append.mp hc with hc | hc <;> rw [List.eq_of_mem_replicate hc] <;> decide

theorem FreshFor.mono (h : FreshFor fresh raws' N) (hsub : raws ⊆ raws') : FreshFor fresh raws N :=
  ⟨h.apart, fun i hi raw hraw => h.new i hi raw (hsub hraw)⟩

/-- What claiming one id does: a valid id that is not taken is kept, any other is replaced. -/
theorem claim_cases : (∃ id, validId raw = some id ∧ renew = false ∧ id ∉ st.seen ∧
      claim fresh renew st raw = (id, { st with seen := id :: st.seen })) ∨
    (claim fresh renew st raw).1 = (fresh st.used).str ∧
      (claim fresh renew st raw).2.seen = (fresh st.used).str :: st.seen ∧
      (claim fresh renew st raw).2.used = st.used + 1 ∧
      (claim fresh renew st raw).2.remap = (validId raw).elim st.remap fun old =>
        if (st.remap.lookup old).isSome then st.remap
        else (old, (fresh st.used).str) :: st.remap := by
  unfold claim
  cases hid : validId raw with
  | none => simp
  | some old =>
    by_cases hold : renew || old ∈ st.seen
    · simp [hold]
    · refine .inl ⟨old, rfl, ?_⟩
      simp_all

/-- No id drawn later is taken already. -/
def Ahead (fresh : Nat → Uuid) (N : Nat) (st : ClaimState) : Prop :=
  ∀ x ∈ st.seen, ∀ i, st.used ≤ i → i < N → x ≠ (fresh i).str

theorem ahead_claim (hfresh : FreshFor fresh [raw] N) (h : Ahead fresh N st)
    (hused : st.used < N) : Ahead fresh N (claim fresh renew st raw).2 ∧
      (claim fresh renew st raw).1 ∉ st.seen ∧
      (claim fresh renew st raw).2.seen = (claim fresh renew st raw).1 :: st.seen ∧
      (claim fresh renew st raw).2.used ≤ st.used + 1 := by
  rcases @claim_cases fresh renew st raw with ⟨id, hid, -, hseen, heq⟩ | ⟨hx, hseen, hnext, -⟩
  · rw [heq]
    refine ⟨fun x hx i hi hN => ?_, hseen, rfl, Nat.le_succ _⟩
    rcases List.mem_cons.mp hx with rfl | hx
    · rintro rfl
      exact hfresh.new i hN raw (by simp) hid
    · exact h x hx i hi hN
  · rw [hx, hseen, hnext]
    refine ⟨fun x hx i hi hN => ?_, fun hx => h _ hx st.used le_rfl hused rfl, rfl, le_rfl⟩
    rw [hseen] at hx
    rw [hnext] at hi
    rcases List.mem_cons.mp hx with rfl | hx
    · intro heq
      exact hfresh.apart i hN st.used (by omega) (Uuid.str_injective heq)
    · exact h x hx i (by omega) hN

/-- The ids given out are pairwise distinct, and none was taken before. -/
theorem claimAll_nodup (hfresh : FreshFor fresh raws N) (h : Ahead fresh N st)
    (hused : st.used + raws.length ≤ N) : (claimAll fresh renew st raws).1.Nodup ∧
      ∀ x ∈ (claimAll fresh renew st raws).1, x ∉ st.seen := by
  induction raws generalizing st with
  | nil => simp [claimAll_nil]
  | cons raw raws ih =>
    simp only [List.length_cons] at hused
    obtain ⟨hahead, hnew, hseen, hnext⟩ := @ahead_claim fresh renew st raw N
      (hfresh.mono (List.cons_subset_cons raw (List.nil_subset raws))) h (by omega)
    obtain ⟨hnodup, hrest⟩ := ih (hfresh.mono (List.subset_cons_self raw raws)) hahead (by omega)
    rw [hseen] at hrest
    simp only [claimAll_cons, List.nodup_cons, List.mem_cons]
    refine ⟨⟨fun hx => hrest _ hx (by simp), hnodup⟩, ?_⟩
    rintro x (rfl | hx) hold
    · exact hnew hold
    · exact hrest x hx (by simp [hold])

theorem validId_str (u : Uuid) : validId (some u.str) = some u.str := by
  simp [validId, Uuid.parse_str]

theorem exists_of_validId (h : validId raw = some x) : ∃ u : Uuid, x = u.str := by
  obtain ⟨u, -, rfl⟩ := Option.map_eq_some_iff.mp h
  exact ⟨u, rfl⟩

/-- Valid ids that are pairwise distinct stay. -/
theorem claimAll_fixed (hnodup : us.Nodup) (hst : ∀ u ∈ us, u.str ∉ st.seen) :
    (claimAll fresh false st (us.map fun u => some u.str)).1 = us.map Uuid.str ∧
      (claimAll fresh false st (us.map fun u => some u.str)).2.remap = st.remap := by
  induction us generalizing st with
  | nil => exact ⟨rfl, rfl⟩
  | cons u us ih =>
    obtain ⟨hu, hnodup⟩ := List.nodup_cons.mp hnodup
    have hclaim : claim fresh false st (some u.str) =
        (u.str, { st with seen := u.str :: st.seen }) := by
      simp [claim, validId_str, hst u]
    obtain ⟨hids, hremap⟩ := @ih { st with seen := u.str :: st.seen } hnodup (by
      intro v hv hmem
      rcases List.mem_cons.mp hmem with heq | hmem
      · exact hu (Uuid.str_injective heq ▸ hv)
      · exact hst v (by simp [hv]) hmem)
    simp only [List.map_cons, claimAll_cons, hclaim]
    exact ⟨by rw [hids], hremap⟩

/-- What is taken after some claims. -/
theorem seen_claimAll (hused : st.used + raws.length ≤ N) (h : x ∈ (claimAll fresh renew st raws).2.seen) :
    x ∈ st.seen ∨ some x ∈ raws.map validId ∨ ∃ i < N, x = (fresh i).str := by
  induction raws generalizing st with
  | nil => exact .inl h
  | cons raw raws ih =>
    simp only [List.length_cons] at hused
    rcases @claim_cases fresh renew st raw with ⟨id, hid, -, -, heq⟩ | ⟨-, hseen, hnext, -⟩
    · rw [claimAll_cons, heq] at h
      rcases ih (by simp only; omega) h with hx | hx | hx
      · rcases List.mem_cons.mp hx with rfl | hx
        · exact .inr (.inl (by simp [hid]))
        · exact .inl hx
      · exact .inr (.inl (by simp [hx]))
      · exact .inr (.inr hx)
    · rcases ih (by omega) h with hx | hx | hx
      · rw [hseen] at hx
        rcases List.mem_cons.mp hx with rfl | hx
        · exact .inr (.inr ⟨st.used, by omega, rfl⟩)
        · exact .inl hx
      · exact .inr (.inl (by simp [hx]))
      · exact .inr (.inr hx)

theorem used_claimAll : (claimAll fresh renew st raws).2.used ≤ st.used + raws.length := by
  induction raws generalizing st with
  | nil => exact le_rfl
  | cons raw raws ih =>
    have hstep : (claim fresh renew st raw).2.used ≤ st.used + 1 := by
      rcases @claim_cases fresh renew st raw with ⟨id, -, -, -, heq⟩ | ⟨-, -, hnext, -⟩
      · rw [heq]
        exact Nat.le_succ _
      · rw [hnext]
    have hrest := @ih (claim fresh renew st raw).2
    simp only [claimAll_cons, List.length_cons]
    omega

theorem length_claimAll : (claimAll fresh renew st raws).1.length = raws.length := by
  induction raws generalizing st with
  | nil => rfl
  | cons raw raws ih => simp [claimAll_cons, ih]

/-- The first holder of an id keeps it. -/
theorem claimAll_first (hfresh : FreshFor fresh (raws ++ raw :: raws') N)
    (hN : (raws ++ raw :: raws').length ≤ N) (hraw : validId raw = some x)
    (hfirst : some x ∉ raws.map validId) :
    (claimAll fresh false ⟨[], [], 0⟩ (raws ++ raw :: raws')).1[raws.length]? = some x := by
  have hnot : x ∉ (claimAll fresh false ⟨[], [], 0⟩ raws).2.seen := by
    intro hx
    rcases seen_claimAll (N := N) (by simp at hN ⊢; omega) hx with hx | hx | ⟨i, hi, rfl⟩
    · simp at hx
    · exact hfirst hx
    · exact hfresh.new i hi raw (by simp) hraw
  have hclaim : (claim fresh false (claimAll fresh false ⟨[], [], 0⟩ raws).2 raw).1 = x := by
    simp [claim, hraw, hnot]
  rw [claimAll_append]
  simp [length_claimAll, claimAll_cons, hclaim]

/-- Everything that was replaced is replaced by an id that was drawn. -/
theorem remap_claimAll (hused : st.used + raws.length ≤ N)
    (hst : ∀ y ∈ st.remap.lookup x, ∃ i < N, y = (fresh i).str)
    (h : (claimAll fresh renew st raws).2.remap.lookup x = some y) :
    ∃ i < N, y = (fresh i).str := by
  induction raws generalizing st with
  | nil => exact hst y h
  | cons raw raws ih =>
    simp only [List.length_cons] at hused
    rcases @claim_cases fresh renew st raw with ⟨id, -, -, -, heq⟩ | ⟨-, -, hnext, hremap⟩
    · rw [claimAll_cons, heq] at h
      exact @ih { st with seen := id :: st.seen } (by simp only; omega) hst h
    · refine ih (by omega) (fun z hz => ?_) h
      rw [hremap] at hz
      cases hid : validId raw with
      | none =>
        rw [hid] at hz
        exact hst z hz
      | some old =>
        simp only [hid, Option.elim_some] at hz
        split at hz
        · exact hst z hz
        · by_cases hx : x = old
          · subst hx
            obtain rfl : (fresh st.used).str = z := by simpa [List.lookup_cons] using hz
            exact ⟨st.used, by omega, rfl⟩
          · rw [List.lookup_cons, beq_false_of_ne hx] at hz
            exact hst z hz

/-- What is replaced stays replaced. -/
theorem remap_mono (h : (st.remap.lookup x).isSome) :
    ((claim fresh renew st raw).2.remap.lookup x).isSome := by
  rcases @claim_cases fresh renew st raw with ⟨id, -, -, -, heq⟩ | ⟨-, -, -, hremap⟩
  · rwa [heq]
  · rw [hremap]
    cases validId raw with
    | none => exact h
    | some old =>
      simp only [Option.elim_some]
      split
      · exact h
      · by_cases hx : x = old
        · simp [hx]
        · rwa [List.lookup_cons, beq_false_of_ne hx]

theorem seen_mono (h : x ∈ st.seen) : x ∈ (claim fresh renew st raw).2.seen := by
  rcases @claim_cases fresh renew st raw with ⟨id, -, -, -, heq⟩ | ⟨-, hseen, -, -⟩
  · simp [heq, h]
  · simp [hseen, h]

theorem remap_of_seen (hseen : x ∈ st.seen ∨ (st.remap.lookup x).isSome)
    (h : some x ∈ raws.map validId ∨ (st.remap.lookup x).isSome) :
    ((claimAll fresh renew st raws).2.remap.lookup x).isSome := by
  induction raws generalizing st with
  | nil => exact h.resolve_left (by simp)
  | cons raw raws ih =>
    have hseen' : x ∈ (claim fresh renew st raw).2.seen ∨
        ((claim fresh renew st raw).2.remap.lookup x).isSome := hseen.imp seen_mono remap_mono
    rcases h with h | h
    · rcases List.mem_cons.mp h with hraw | htail
      · refine ih hseen' (.inr ?_)
        rcases hseen with hx | hx
        · rcases @claim_cases fresh renew st raw with ⟨id, hid, -, hnot, -⟩ | ⟨-, -, -, hremap⟩
          · exact absurd hx (Option.some.inj (hid.symm.trans hraw.symm) ▸ hnot)
          · rw [hremap, ← hraw]
            simp only [Option.elim_some]
            split
            · assumption
            · simp
        · exact remap_mono hx
      · exact ih hseen' (.inl htail)
    · exact ih hseen' (.inr (remap_mono h))

/-- An id that two items hold is replaced. -/
theorem remap_of_repeated (h : 2 ≤ (raws.map validId).count (some x)) :
    ((claimAll fresh renew st raws).2.remap.lookup x).isSome := by
  induction raws generalizing st with
  | nil => simp at h
  | cons raw raws ih =>
    by_cases hraw : validId raw = some x
    · have htail : some x ∈ raws.map validId := by
        rw [List.map_cons, hraw, List.count_cons_self] at h
        exact List.count_pos_iff.mp (by omega)
      show ((claimAll fresh renew (claim fresh renew st raw).2 raws).2.remap.lookup x).isSome
      refine remap_of_seen ?_ (.inl htail)
      rcases @claim_cases fresh renew st raw with ⟨id, hid, -, -, heq⟩ | ⟨-, -, -, hremap⟩
      · obtain rfl := Option.some.inj (hid.symm.trans hraw)
        simp [heq]
      · right
        rw [hremap, hraw]
        simp only [Option.elim_some]
        split
        · assumption
        · simp
    · refine ih ?_
      rwa [List.map_cons, List.count_cons_of_ne hraw] at h

end RownRg.Outlines

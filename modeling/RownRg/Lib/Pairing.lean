import RownRg.Lib.Dedup

/-! Two lists paired position by position, read as a table. -/
namespace Pairing

variable {α β γ : Type} [DecidableEq α] {a : α} {b : β} {xs ys zs : List α} {bs cs : List β}
  {f : α → Option β} {h : β → Option γ}

theorem lookup_cons (x : α) (b : β) (l : List (α × β)) (a : α) :
    ((x, b) :: l).lookup a = if a = x then some b else l.lookup a := by
  by_cases ha : a = x
  · simp [ha]
  · rw [List.lookup_cons, beq_false_of_ne ha, if_neg ha]

/-- A table with distinct keys has one value for a key. -/
theorem lookup_eq_some {l : List (α × β)} (hkeys : (l.map Prod.fst).Nodup) :
    l.lookup a = some b ↔ (a, b) ∈ l := by
  induction l with
  | nil => simp
  | cons x l ih =>
    obtain ⟨hx, hkeys⟩ := List.nodup_cons.mp hkeys
    rw [lookup_cons, List.mem_cons]
    by_cases ha : a = x.1
    · subst ha
      have hnot : (x.1, b) ∉ l := fun hmem => hx (List.mem_map.mpr ⟨_, hmem, rfl⟩)
      simp only [if_true, hnot, or_false, Option.some.injEq]
      constructor
      · rintro rfl
        rfl
      · intro h
        rw [← h]
    · have hne : (a, b) ≠ x := fun h => ha (congrArg Prod.fst h)
      rw [if_neg ha, ih hkeys, or_iff_right hne]

theorem lookup_isSome {l : List (α × β)} : (l.lookup a).isSome ↔ a ∈ l.map Prod.fst := by
  induction l with
  | nil => simp
  | cons x l ih =>
    rw [lookup_cons]
    by_cases ha : a = x.1
    · simp [ha]
    · rw [if_neg ha, ih, List.map_cons, List.mem_cons, or_iff_right ha]

theorem lookup_zip_notMem (ha : a ∉ xs) : (xs.zip bs).lookup a = none := by
  rw [List.lookup_eq_none_iff]
  rintro ⟨x, b⟩ hx
  have hne : a ≠ x := fun he => ha (he ▸ (List.of_mem_zip hx).1)
  simpa using hne

theorem lookup_zip_cons (x : α) (b : β) (a : α) :
    ((x :: xs).zip (b :: bs)).lookup a = if a = x then some b else (xs.zip bs).lookup a := by
  rw [List.zip_cons_cons, lookup_cons]

/-- A table is right for all its keys if and only if the values it should have come first, in the
order of the keys. -/
theorem zip_prefix_iff (bs : List β) (hxs : xs.Nodup) (hf : ∀ a ∈ xs, (f a).isSome) :
    (∀ a ∈ xs, (xs.zip bs).lookup a = f a) ↔ xs.filterMap f <+: bs := by
  induction xs generalizing bs with
  | nil => simp
  | cons x xs ih =>
    obtain ⟨hx, hxs⟩ := List.nodup_cons.mp hxs
    obtain ⟨hfx, hf⟩ := List.forall_mem_cons.mp hf
    obtain ⟨b, hb⟩ := Option.isSome_iff_exists.mp hfx
    rw [List.filterMap_cons_some hb, List.forall_mem_cons, hb]
    cases bs with
    | nil => simp
    | cons c bs =>
      rw [List.cons_prefix_cons, lookup_zip_cons, if_pos rfl, ← ih bs hxs hf]
      simp only [Option.some.injEq, eq_comm (a := c)]
      refine and_congr_right fun _ => forall₂_congr fun a ha => ?_
      have hne : a ≠ x := fun he => hx (he ▸ ha)
      rw [lookup_zip_cons, if_neg hne]

theorem mem_of_lookup_zip (ha : (xs.zip bs).lookup a = some b) : (a, b) ∈ xs.zip bs := by
  obtain ⟨l₁, l₂, hl, -⟩ := List.lookup_eq_some_iff.mp ha
  simp [hl]

/-- A table without repeated values has one key for each. -/
theorem lookup_zip_injective (hbs : bs.Nodup) {a' : α} (ha : (xs.zip bs).lookup a = some b)
    (ha' : (xs.zip bs).lookup a' = some b) : a = a' := by
  obtain ⟨i, hi, hab⟩ := List.getElem_of_mem (mem_of_lookup_zip ha)
  obtain ⟨j, hj, hab'⟩ := List.getElem_of_mem (mem_of_lookup_zip ha')
  simp only [List.getElem_zip, Prod.mk.injEq] at hab hab'
  have hij : i = j := (hbs.getElem_inj_iff).mp (hab.2.trans hab'.2.symm)
  subst hij
  exact hab.1.symm.trans hab'.1

omit [DecidableEq α] in
theorem filterMap_prefix_iff {ys : List α} (hxs : ∀ a ∈ xs, (f a).isSome)
    (hys : ∀ a ∈ ys, (f a).isSome) (hinj : ∀ a ∈ xs, ∀ a' ∈ ys, f a = f a' → a = a') :
    xs.filterMap f <+: ys.filterMap f ↔ xs <+: ys := by
  induction xs generalizing ys with
  | nil => simp
  | cons x xs ih =>
    obtain ⟨hx, hxs⟩ := List.forall_mem_cons.mp hxs
    obtain ⟨b, hb⟩ := Option.isSome_iff_exists.mp hx
    rw [List.filterMap_cons_some hb]
    cases ys with
    | nil => simp
    | cons y ys =>
      obtain ⟨hy, hys⟩ := List.forall_mem_cons.mp hys
      obtain ⟨c, hc⟩ := Option.isSome_iff_exists.mp hy
      rw [List.filterMap_cons_some hc, List.cons_prefix_cons, List.cons_prefix_cons]
      have hxy : b = c ↔ x = y := by
        constructor
        · rintro rfl
          exact hinj x (by simp) y (by simp) (hb.trans hc.symm)
        · rintro rfl
          exact Option.some.inj (hb.symm.trans hc)
      rw [hxy, ih hxs hys fun a ha a' ha' => hinj a (by simp [ha]) a' (by simp [ha'])]

/-- Mapping the second components of a table with distinct keys, where defined. -/
theorem lookup_filterMap_zip (bs : List β) (hxs : xs.Nodup) :
    ((xs.zip bs).filterMap fun x => (h x.2).map fun c => (x.1, c)).lookup a =
      ((xs.zip bs).lookup a).bind h := by
  induction xs generalizing bs with
  | nil => rfl
  | cons x xs ih =>
    obtain ⟨hx, hxs⟩ := List.nodup_cons.mp hxs
    cases bs with
    | nil => rfl
    | cons b bs =>
      have ih := ih bs hxs
      rw [lookup_zip_cons, List.zip_cons_cons, List.filterMap_cons]
      by_cases ha : a = x
      · subst ha
        rw [lookup_zip_notMem hx] at ih
        cases hb : h b <;> simp [hb, ih]
      · cases hb : h b <;> simp [lookup_cons, ha, ih]

/-- Pairing the keys with the values that `f` has for some of them is right for every key if and
only if the keys with a value come first. -/
theorem zip_filterMap_iff (hxs : xs.Nodup) :
    (∀ a ∈ xs, (xs.zip (xs.filterMap f)).lookup a = f a) ↔
      xs.Pairwise fun a b => (f b).isSome → (f a).isSome := by
  induction xs with
  | nil => simp
  | cons x xs ih =>
    obtain ⟨hx, hxs⟩ := List.nodup_cons.mp hxs
    have ih := ih hxs
    rw [List.pairwise_cons, ← ih]
    cases hfx : f x with
    | some b =>
      have htail : ∀ a ∈ xs, (((x :: xs).zip ((x :: xs).filterMap f)).lookup a) =
          (xs.zip (xs.filterMap f)).lookup a := by
        intro a ha
        have hne : a ≠ x := fun he => hx (he ▸ ha)
        rw [List.filterMap_cons_some hfx, lookup_zip_cons, if_neg hne]
      rw [List.forall_mem_cons, List.filterMap_cons_some hfx, lookup_zip_cons]
      rw [List.filterMap_cons_some hfx] at htail
      simp only [if_true, hfx, true_and, Option.isSome_some, implies_true]
      exact forall₂_congr fun a ha => by rw [htail a ha]
    | none =>
      rw [List.filterMap_cons_none hfx]
      cases hcs : xs.filterMap f with
      | nil =>
        have hnone : ∀ a ∈ xs, f a = none := List.filterMap_eq_nil_iff.mp hcs
        simp only [List.zip_nil_right, List.lookup_nil, List.forall_mem_cons, hfx, true_and]
        constructor
        · exact fun _ => ⟨fun a ha => by simp [hnone a ha], fun a ha => (hnone a ha).symm⟩
        · exact fun h => h.2
      | cons c cs =>
        obtain ⟨a, ha, hc⟩ := List.mem_filterMap.mp (hcs ▸ List.mem_cons_self : c ∈ xs.filterMap f)
        rw [List.forall_mem_cons, lookup_zip_cons]
        simp only [if_true, hfx, reduceCtorEq, false_and, Option.isSome_none, Bool.false_eq_true,
          imp_false, false_iff, not_and]
        intro h
        simpa [hc] using h a ha

/-! Two lists related position by position. -/

section Related

variable {α β : Type} {R : α → β → Prop} {xs : List α} {ys : List β} {a : α} {b : β} {i : Nat}

theorem related_set (h : List.Forall₂ R xs ys) (hab : R a b) :
    List.Forall₂ R (xs.set i a) (ys.set i b) := by
  induction h generalizing i with
  | nil => exact .nil
  | cons hr h ih =>
    cases i with
    | zero => exact .cons hab h
    | succ i => exact .cons hr ih

theorem related_set_left (h : List.Forall₂ R xs ys) (ha : ∀ b, ys[i]? = some b → R a b) :
    List.Forall₂ R (xs.set i a) ys := by
  induction h generalizing i with
  | nil => exact .nil
  | cons hr h ih =>
    cases i with
    | zero => exact .cons (ha _ rfl) h
    | succ i => exact .cons hr (ih ha)

theorem related_eraseIdx (h : List.Forall₂ R xs ys) :
    List.Forall₂ R (xs.eraseIdx i) (ys.eraseIdx i) := by
  induction h generalizing i with
  | nil => exact .nil
  | cons hr h ih =>
    cases i with
    | zero => exact h
    | succ i => exact .cons hr ih

theorem related_getElem? (h : List.Forall₂ R xs ys) (ha : xs[i]? = some a) :
    ∃ b, ys[i]? = some b ∧ R a b := by
  induction h generalizing i with
  | nil => cases ha
  | cons hr h ih =>
    cases i with
    | zero =>
      cases ha
      exact ⟨_, rfl, hr⟩
    | succ i => exact ih ha

theorem related_left (h : List.Forall₂ R xs ys) (ha : a ∈ xs) : ∃ b ∈ ys, R a b := by
  induction h with
  | nil => cases ha
  | cons hab _ ih =>
    rcases List.mem_cons.mp ha with rfl | ha
    · exact ⟨_, by simp, hab⟩
    · obtain ⟨b, hb, hr⟩ := ih ha
      exact ⟨b, by simp [hb], hr⟩

theorem related_right (h : List.Forall₂ R xs ys) (hb : b ∈ ys) : ∃ a ∈ xs, R a b :=
  related_left h.flip hb

theorem exists_related (h : ∀ a ∈ xs, ∃ b, R a b) : ∃ ys, List.Forall₂ R xs ys := by
  induction xs with
  | nil => exact ⟨[], .nil⟩
  | cons a xs ih =>
    obtain ⟨b, hb⟩ := h a (by simp)
    obtain ⟨ys, hys⟩ := ih fun a ha => h a (by simp [ha])
    exact ⟨b :: ys, .cons hb hys⟩

theorem related_flatMap {γ : Type} {f : α → List γ} {g : β → List γ}
    (h : List.Forall₂ (fun a b => g b = f a) xs ys) : ys.flatMap g = xs.flatMap f := by
  induction h with
  | nil => rfl
  | cons hab _ ih => rw [List.flatMap_cons, List.flatMap_cons, hab, ih]

end Related

end Pairing

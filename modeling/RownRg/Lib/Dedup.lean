import Mathlib.Data.List.Nodup
import Mathlib.Data.List.Basic
import Mathlib.Data.List.Pairwise

/-! Lists with repetitions dropped, first occurrence kept. -/
namespace FirstSeen

variable {α β : Type} [DecidableEq α] [DecidableEq β] {a : α} {xs ys zs : List α} {n : Nat}

/-- Induction along `eraseDups`: the tail is the list without its head. -/
@[elab_as_elim]
theorem induction {motive : List α → Prop} (xs : List α) (nil : motive [])
    (cons : ∀ a xs, motive (xs.filter fun b => !b == a) → motive (a :: xs)) : motive xs :=
  match xs with
  | [] => nil
  | a :: xs => cons a xs (induction (xs.filter fun b => !b == a) nil cons)
termination_by xs.length
decreasing_by
  have := List.length_filter_le (fun b => !b == a) xs
  simp only [List.length_cons]
  omega

theorem nodup (xs : List α) : xs.eraseDups.Nodup := by
  induction xs using FirstSeen.induction with
  | nil => simp
  | cons a xs ih =>
    rw [List.eraseDups_cons, List.nodup_cons]
    exact ⟨by simp, ih⟩

theorem of_nodup (h : xs.Nodup) : xs.eraseDups = xs := by
  induction xs with
  | nil => rfl
  | cons a xs ih =>
    obtain ⟨ha, hxs⟩ := List.nodup_cons.mp h
    rw [List.eraseDups_cons, List.filter_eq_self.mpr, ih hxs]
    intro b hb
    have : b ≠ a := fun he => ha (he ▸ hb)
    simpa using this

theorem eq_nil (h : xs.eraseDups = []) : xs = [] := by
  cases xs with
  | nil => rfl
  | cons => simp [List.eraseDups_cons] at h

theorem idem (xs : List α) : xs.eraseDups.eraseDups = xs.eraseDups := of_nodup (nodup xs)

theorem eraseDups_filter (p : α → Bool) (xs : List α) :
    (xs.filter p).eraseDups = xs.eraseDups.filter p := by
  induction xs using FirstSeen.induction with
  | nil => rfl
  | cons a xs ih =>
    rw [List.eraseDups_cons, List.filter_cons, List.filter_cons, ← ih]
    split
    · rw [List.eraseDups_cons, List.filter_comm]
    · congr 1
      rw [List.filter_filter]
      refine List.filter_congr fun b _ => ?_
      by_cases hb : b = a
      · simp_all
      · simp [hb]

/-- The same entries in the same order of first appearance. -/
def Same (xs ys : List α) : Prop := xs.eraseDups = ys.eraseDups

theorem Same.refl (xs : List α) : Same xs xs := rfl

theorem Same.symm (h : Same xs ys) : Same ys xs := Eq.symm h

theorem Same.trans (h : Same xs ys) (k : Same ys zs) : Same xs zs := Eq.trans h k

theorem same_eraseDups (xs : List α) : Same xs.eraseDups xs := idem xs

theorem Same.mem (h : Same xs ys) : a ∈ xs ↔ a ∈ ys := by
  rw [← List.mem_eraseDups, h, List.mem_eraseDups]

theorem Same.filter (h : Same xs ys) (p : α → Bool) : Same (xs.filter p) (ys.filter p) := by
  unfold Same at *
  rw [eraseDups_filter, eraseDups_filter, h]

theorem Same.cons (h : Same xs ys) (a : α) : Same (a :: xs) (a :: ys) := by
  unfold Same
  rw [List.eraseDups_cons, List.eraseDups_cons, h.filter]

theorem Same.append {xs' ys' : List α} (h : Same xs ys) (h' : Same xs' ys') :
    Same (xs ++ xs') (ys ++ ys') := by
  have hfilter : xs'.removeAll xs = xs'.filter fun b => !ys.contains b := by
    refine List.filter_congr fun b _ => ?_
    simp [h.mem]
  unfold Same at *
  rw [List.eraseDups_append, List.eraseDups_append, h, hfilter]
  congr 1
  exact Same.filter h' _

theorem filterMap_eraseDups (f : α → Option β) (xs : List α) :
    Same (xs.eraseDups.filterMap f) (xs.filterMap f) := by
  induction xs using FirstSeen.induction with
  | nil => rfl
  | cons a xs ih =>
    rw [List.eraseDups_cons, List.filterMap_cons, List.filterMap_cons]
    cases ha : f a with
    | none =>
      have hsame : (xs.filter fun b => !b == a).filterMap f = xs.filterMap f := by
        rw [List.filterMap_filter]
        refine List.filterMap_congr fun b _ => ?_
        by_cases hb : b = a <;> simp [hb, ha]
      rwa [hsame] at ih
    | some y =>
      have hsame : ((xs.filter fun b => !b == a).filterMap f).filter (fun b => !b == y) =
          (xs.filterMap f).filter fun b => !b == y := by
        rw [List.filterMap_filter, List.filter_filterMap, List.filter_filterMap]
        refine List.filterMap_congr fun b _ => ?_
        by_cases hb : b = a <;> simp [hb, ha, Option.filter]
      unfold Same
      rw [List.eraseDups_cons, List.eraseDups_cons, ih.filter, hsame]

theorem Same.filterMap (h : Same xs ys) (f : α → Option β) :
    Same (xs.filterMap f) (ys.filterMap f) :=
  (filterMap_eraseDups f xs).symm.trans (by rw [h]; exact filterMap_eraseDups f ys)

theorem Same.map (h : Same xs ys) (f : α → β) : Same (xs.map f) (ys.map f) := by
  simpa using h.filterMap fun a => some (f a)

theorem same_flatMap {γ : Type} {f g : γ → List α} {cs : List γ} (h : ∀ c ∈ cs, Same (f c) (g c)) :
    Same (cs.flatMap f) (cs.flatMap g) := by
  induction cs with
  | nil => rfl
  | cons c cs ih =>
    rw [List.flatMap_cons, List.flatMap_cons]
    exact (h c (by simp)).append (ih fun d hd => h d (by simp [hd]))

/-- What tells the elements apart keeps the first of each. -/
theorem map_of_injOn {α β : Type} [BEq α] [LawfulBEq α] [BEq β] [LawfulBEq β] {f : α → β}
    {xs : List α} (h : ∀ a ∈ xs, ∀ b ∈ xs, f a = f b → a = b) :
    (xs.map f).eraseDups = xs.eraseDups.map f := by
  match xs with
  | [] => rfl
  | a :: xs =>
    have hfilter : (xs.map f).filter (fun b => !b == f a) =
        (xs.filter fun b => !b == a).map f := by
      rw [List.filter_map]
      refine congrArg (List.map f) (List.filter_congr fun b hb => ?_)
      have hab : f b = f a ↔ b = a :=
        ⟨h b (List.mem_cons_of_mem a hb) a List.mem_cons_self, congrArg f⟩
      simp only [Function.comp_apply, Bool.not_eq_eq_eq_not, Bool.not_not]
      rw [Bool.eq_iff_iff, beq_iff_eq, beq_iff_eq, hab]
    have hrest : ((xs.filter fun b => !b == a).map f).eraseDups =
        (xs.filter fun b => !b == a).eraseDups.map f :=
      map_of_injOn fun b hb c hc heq => h b (List.mem_cons_of_mem a (List.mem_filter.mp hb).1) c
        (List.mem_cons_of_mem a (List.mem_filter.mp hc).1) heq
    rw [List.map_cons, List.eraseDups_cons, List.eraseDups_cons, List.map_cons, hfilter, hrest]
termination_by xs.length
decreasing_by
  exact Nat.lt_succ_of_le (List.length_filter_le _ _)

/-- What was seen before adds nothing. -/
theorem append_cons_of_mem (h : a ∈ xs) (ys : List α) :
    (xs ++ a :: ys).eraseDups = (xs ++ ys).eraseDups := by
  rw [List.eraseDups_append, List.eraseDups_append]
  simp [List.removeAll, h]

theorem sublist (xs : List α) : xs.eraseDups.Sublist xs := by
  induction xs using FirstSeen.induction with
  | nil => simp
  | cons a xs ih =>
    rw [List.eraseDups_cons]
    exact (ih.trans List.filter_sublist).cons_cons a

theorem prefix_append (xs ys : List α) : xs.eraseDups <+: (xs ++ ys).eraseDups := by
  rw [List.eraseDups_append]
  exact List.prefix_append _ _

/-- More than one value is left exactly where two values differ. -/
theorem one_lt_length : 1 < xs.eraseDups.length ↔ ∃ a ∈ xs, ∃ b ∈ xs, a ≠ b := by
  constructor
  · intro h
    have hnodup := nodup xs
    have hmem : ∀ a ∈ xs.eraseDups, a ∈ xs := fun a ha => List.mem_eraseDups.mp ha
    cases heq : xs.eraseDups with
    | nil => simp [heq] at h
    | cons a ys =>
      cases ys with
      | nil => simp [heq] at h
      | cons b ys =>
        rw [heq] at hnodup hmem
        refine ⟨a, hmem a (by simp), b, hmem b (by simp), fun hab => ?_⟩
        exact (List.nodup_cons.mp hnodup).1 (hab ▸ List.mem_cons_self)
  · rintro ⟨a, ha, b, hb, hne⟩
    have ha := List.mem_eraseDups.mpr ha
    have hb := List.mem_eraseDups.mpr hb
    cases heq : xs.eraseDups with
    | nil => simp [heq] at ha
    | cons c ys =>
      cases ys with
      | nil =>
        rw [heq, List.mem_singleton] at ha hb
        exact absurd (ha.trans hb.symm) hne
      | cons d ys => simp

/-! Two elements of a list without repetitions keep their order in every part of it. -/

theorem filter_of_sublist (hsub : ys.Sublist xs) (hnodup : xs.Nodup) :
    xs.filter (· ∈ ys) = ys := by
  induction hsub with
  | slnil => rfl
  | @cons ys xs x hsub ih =>
    obtain ⟨hx, hrest⟩ := List.nodup_cons.mp hnodup
    rw [List.filter_cons_of_neg (by simpa using fun h => hx (hsub.subset h)), ih hrest]
  | @cons_cons ys xs x hsub ih =>
    obtain ⟨hx, hrest⟩ := List.nodup_cons.mp hnodup
    rw [List.filter_cons_of_pos (by simp)]
    have hsame : xs.filter (· ∈ x :: ys) = xs.filter (· ∈ ys) := by
      refine List.filter_congr fun y hy => ?_
      have hne : y ≠ x := fun h => hx (h ▸ hy)
      simp [hne]
    rw [hsame, ih hrest]

theorem pair_sublist {b : α} (hsub : ys.Sublist xs) (hnodup : xs.Nodup) (ha : a ∈ ys) (hb : b ∈ ys)
    (h : [b, a].Sublist xs) : [b, a].Sublist ys := by
  have hpair := h.filter (· ∈ ys)
  rwa [filter_of_sublist hsub hnodup, List.filter_cons_of_pos (by simpa using hb),
    List.filter_cons_of_pos (by simpa using ha)] at hpair

omit [DecidableEq α] in
theorem sublist_or_sublist {b : α} (ha : a ∈ xs) (hb : b ∈ xs) (hne : a ≠ b) :
    [a, b].Sublist xs ∨ [b, a].Sublist xs := by
  have hall : xs.Pairwise fun a b => [a, b].Sublist xs ∨ [b, a].Sublist xs :=
    List.pairwise_iff_forall_sublist.mpr fun h => .inl h
  have hsymm : Std.Symm fun a b => [a, b].Sublist xs ∨ [b, a].Sublist xs := ⟨fun _ _ => Or.symm⟩
  exact hall.forall ha hb hne

/-! Lists that grow by the elements whose key they have not got yet. -/

/-- Adds the elements whose key is new, first come first served. -/
def pushNew {ε κ : Type} [DecidableEq κ] (key : ε → κ) (items out : List ε) : List ε :=
  items.foldl (fun out e => if key e ∈ out.map key then out else out ++ [e]) out

section

variable {ε κ : Type} [DecidableEq κ] {key : ε → κ} {items items' out : List ε}

theorem pushNew_append : pushNew key (items ++ items') out =
    pushNew key items' (pushNew key items out) := List.foldl_append

theorem foldl_pushNew {γ : Type} (f : γ → List ε) (cs : List γ) :
    cs.foldl (fun out c => pushNew key (f c) out) out = pushNew key (cs.flatMap f) out := by
  induction cs generalizing out with
  | nil => rfl
  | cons c cs ih => rw [List.foldl_cons, ih, List.flatMap_cons, pushNew_append]

/-- What is added: elements with new keys, each key once, and all keys are there afterwards. -/
theorem pushNew_spec (key : ε → κ) (items out : List ε) :
    ∃ fresh, pushNew key items out = out ++ fresh ∧ fresh.Sublist items ∧ (fresh.map key).Nodup ∧
      (∀ e ∈ fresh, key e ∉ out.map key) ∧ ∀ e ∈ items, key e ∈ (out ++ fresh).map key := by
  induction items generalizing out with
  | nil => exact ⟨[], by simp [pushNew], .slnil, by simp, by simp, by simp⟩
  | cons a items ih =>
    have hstep : pushNew key (a :: items) out =
        pushNew key items (if key a ∈ out.map key then out else out ++ [a]) := rfl
    by_cases ha : key a ∈ out.map key
    · rw [if_pos ha] at hstep
      obtain ⟨fresh, heq, hsub, hnodup, hnew, hall⟩ := ih out
      refine ⟨fresh, by rw [hstep, heq], hsub.cons a, hnodup, hnew, fun e he => ?_⟩
      rcases List.mem_cons.mp he with rfl | he
      · rw [List.map_append]
        exact List.mem_append_left _ ha
      · exact hall e he
    · rw [if_neg ha] at hstep
      obtain ⟨fresh, heq, hsub, hnodup, hnew, hall⟩ := ih (out ++ [a])
      have hout : ∀ e ∈ fresh, key e ∉ out.map key ∧ key e ≠ key a := by
        intro e he
        have h := hnew e he
        rw [List.map_append, List.mem_append, not_or] at h
        exact ⟨h.1, by simpa using h.2⟩
      refine ⟨a :: fresh, by rw [hstep, heq]; simp, hsub.cons_cons a, ?_, fun e he => ?_,
        fun e he => ?_⟩
      · rw [List.map_cons, List.nodup_cons]
        refine ⟨fun hmem => ?_, hnodup⟩
        obtain ⟨e, he, hkey⟩ := List.mem_map.mp hmem
        exact (hout e he).2 hkey
      · rcases List.mem_cons.mp he with rfl | he
        · exact ha
        · exact (hout e he).1
      · rcases List.mem_cons.mp he with rfl | he
        · simp
        · simpa using hall e he

theorem nodup_pushNew (h : (out.map key).Nodup) : ((pushNew key items out).map key).Nodup := by
  obtain ⟨fresh, heq, -, hnodup, hnew, -⟩ := pushNew_spec key items out
  rw [heq, List.map_append, List.nodup_append]
  refine ⟨h, hnodup, ?_⟩
  rintro k hk k' hk' rfl
  obtain ⟨e, he, rfl⟩ := List.mem_map.mp hk'
  exact hnew e he hk

end

end FirstSeen

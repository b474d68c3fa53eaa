import RownRg.Core.Levels
import RownRg.Lib.Dedup
import RownRg.Lib.Graph
import RownRg.Lib.Pairing

/-! What the search for the levels finds: longest chains where no circle is, and circles. -/

open PyText Relation Circles

namespace RownRg.BuildsOn

variable {plan : List SectionPlan} {a b c : Text} {deps : Text → List Text} {R : List Text}
  {st st' : Levels} {fuel depth n : Nat}

/-- The edges that the search follows. -/
def Follows (deps : Text → List Text) (a b : Text) : Prop := b ∈ deps a

def Levels.found (st : Levels) : List Text := st.levels.map (·.1)

theorem lookup_isSome_iff {levels : List (Text × Nat)} :
    (levels.lookup a).isSome ↔ a ∈ levels.map (·.1) := by
  rw [beq_text]
  exact Pairing.lookup_isSome

theorem lookup_eq_some_iff {levels : List (Text × Nat)} (h : (levels.map (·.1)).Nodup) :
    levels.lookup a = some n ↔ (a, n) ∈ levels := by
  rw [beq_text]
  exact Pairing.lookup_eq_some h

/-- The labels that the search has not left yet, first entered first, and then those it has left,
last left first: every label on a circle that it reported has another one behind it. -/
structure Trail (deps : Text → List Text) (R : List Text) (st : Levels) : Prop where
  nodup : (R.reverse ++ st.found).Nodup
  circle : ∀ c ∈ st.cyclic, OnCircle (Follows deps) c
  behind : ∀ c ∈ st.cyclic, ∃ d, OnCircle (Follows deps) d ∧
    List.Sublist [c, d] (R.reverse ++ st.found)
  longest : ∀ a n, st.levels.lookup a = some n → Clear (Follows deps) a → Longest (Follows deps) a n

theorem trail_nil (deps : Text → List Text) : Trail deps [] ⟨[], []⟩ :=
  ⟨by simp [Levels.found], by simp, by simp, by simp⟩

theorem Trail.enter (h : Trail deps R st) (hR : b ∉ R) (hb : b ∉ st.found) :
    Trail deps (b :: R) st := by
  have hsub : List.Sublist (R.reverse ++ st.found) ((b :: R).reverse ++ st.found) := by
    rw [List.reverse_cons, List.append_assoc]
    exact List.Sublist.append_left (List.sublist_append_right [b] st.found) R.reverse
  refine ⟨?_, h.circle, fun c hc => ?_, h.longest⟩
  · have hperm : ((b :: R).reverse ++ st.found).Perm (b :: (R.reverse ++ st.found)) := by
      rw [List.reverse_cons, List.append_assoc]
      exact List.perm_middle
    rw [hperm.nodup_iff, List.nodup_cons]
    exact ⟨by simp [hR, hb], h.nodup⟩
  · obtain ⟨d, hd, hcd⟩ := h.behind c hc
    exact ⟨d, hd, hcd.trans hsub⟩

theorem Trail.leave (h : Trail deps (b :: R) st)
    (hdepth : Clear (Follows deps) b → Longest (Follows deps) b depth) :
    Trail deps R { st with levels := (b, depth) :: st.levels } := by
  have heq : (b :: R).reverse ++ st.found =
      R.reverse ++ Levels.found { st with levels := (b, depth) :: st.levels } := by
    simp [Levels.found]
  refine ⟨heq ▸ h.nodup, h.circle, heq ▸ h.behind, fun a n ha hclear => ?_⟩
  rw [List.lookup_cons] at ha
  by_cases hab : a = b
  · subst hab
    obtain rfl : depth = n := by simpa using ha
    exact hdepth hclear
  · have hne : (a == b) = false := by simpa using hab
    rw [hne] at ha
    exact h.longest a n ha hclear

/-- Whoever is entered twice lies on a circle, and so does the label from which that happens. -/
theorem Trail.close {t : Text} (h : Trail deps (t :: R) st) (hself : t ∉ deps t)
    (hedge : b ∈ deps t) (hstack : ∀ a ∈ R, TransGen (Follows deps) a t) (hb : b ∈ t :: R) :
    Trail deps (t :: R) { st with cyclic := b :: st.cyclic } := by
  have hbR : b ∈ R := by
    rcases List.mem_cons.mp hb with rfl | hb
    · exact absurd hedge hself
    · exact hb
  have hbt : TransGen (Follows deps) b t := hstack b hbR
  refine ⟨h.nodup, fun c hc => ?_, fun c hc => ?_, h.longest⟩
  · rcases List.mem_cons.mp hc with rfl | hc
    · exact hbt.tail hedge
    · exact h.circle c hc
  · rcases List.mem_cons.mp hc with rfl | hc
    · refine ⟨t, TransGen.head hedge hbt, ?_⟩
      rw [List.reverse_cons]
      refine List.Sublist.trans ?_ (List.sublist_append_left _ st.found)
      exact List.Sublist.append (List.singleton_sublist.mpr (List.mem_reverse.mpr hbR))
        (List.Sublist.refl [t])
    · exact h.behind c hc

theorem foldlM_induct {α β : Type} {f : α → β → Option α} {P : List β → α → Prop} {bs : List β}
    {x x' : α} (h₀ : P [] x)
    (hstep : ∀ ds d x x', d ∈ bs → P ds x → f x d = some x' → P (ds ++ [d]) x')
    (hfold : bs.foldlM f x = some x') : P bs x' := by
  have hall : ∀ (ds rest : List β) (x : α), ds ++ rest = bs → P ds x →
      rest.foldlM f x = some x' → P bs x' := by
    intro ds rest
    induction rest generalizing ds with
    | nil =>
      intro x hds hP hx
      obtain rfl : x = x' := by simpa using hx
      rw [← hds, List.append_nil]
      exact hP
    | cons d rest ih =>
      intro x hds hP hx
      rw [List.foldlM_cons] at hx
      obtain ⟨y, hy, hx⟩ := Option.bind_eq_some_iff.mp hx
      exact ih (ds ++ [d]) y (by simp [← hds]) (hstep ds d x y (by simp [← hds]) hP hy) hx
  exact hall [] bs x rfl h₀ hfold

/-- What visiting the dependencies of a label has found after some of them. -/
structure Visited (deps : Text → List Text) (R : List Text) (b : Text) (st : Levels)
    (ds : List Text) (x : Nat × Levels) : Prop where
  trail : Trail deps (b :: R) x.2
  grows : st.found ⊆ x.2.found
  atLeast : Clear (Follows deps) b → ∀ d ∈ ds, ∃ m, Longest (Follows deps) d m ∧ m + 1 ≤ x.1
  attained : Clear (Follows deps) b →
    x.1 = 0 ∨ ∃ d ∈ ds, ∃ m, Longest (Follows deps) d m ∧ x.1 = m + 1

theorem Visited.step {ds : List Text} {d : Text} {x y : Nat × Levels} (h : Visited deps R b st ds x)
    (hy : Trail deps (b :: R) y.2) (hgrows : x.2.found ⊆ y.2.found)
    (hlong : Clear (Follows deps) b → Longest (Follows deps) d y.1) :
    Visited deps R b st (ds ++ [d]) (max x.1 (y.1 + 1), y.2) := by
  refine ⟨hy, List.Subset.trans h.grows hgrows, fun hclear e he => ?_, fun hclear => ?_⟩
  · rcases List.mem_append.mp he with he | he
    · obtain ⟨m, hm, hle⟩ := h.atLeast hclear e he
      exact ⟨m, hm, by simp; omega⟩
    · obtain rfl := List.mem_singleton.mp he
      exact ⟨y.1, hlong hclear, by simp⟩
  · rcases Nat.le_total x.1 (y.1 + 1) with hle | hle
    · exact .inr ⟨d, by simp, y.1, hlong hclear, by simp [hle]⟩
    · rcases h.attained hclear with hzero | ⟨e, he, m, hm, heq⟩
      · exact .inl (by simp; omega)
      · exact .inr ⟨e, by simp [he], m, hm, by simp [heq] at hle ⊢; omega⟩

/-- One visit keeps the trail, and finds the longest chain of a label from which no circle can be
reached. -/
theorem levelOf_trail (hself : ∀ a, a ∉ deps a)
    (hstack : ∀ t R', R = t :: R' → b ∈ deps t ∧ ∀ a ∈ R', TransGen (Follows deps) a t)
    (htrail : Trail deps R st) (h : levelOf deps fuel R st b = some (depth, st')) :
    Trail deps R st' ∧ st.found ⊆ st'.found ∧ (b ∈ R ∨ b ∈ st'.found) ∧
      (Clear (Follows deps) b → Longest (Follows deps) b depth) := by
  induction fuel generalizing R b st st' depth with
  | zero => simp [levelOf] at h
  | succ fuel ih =>
    rw [levelOf] at h
    cases hlook : st.levels.lookup b with
    | some level =>
      rw [hlook] at h
      obtain ⟨rfl, rfl⟩ := Prod.mk.inj (Option.some.inj h)
      have hfound : b ∈ st.found := lookup_isSome_iff.1 (by simp [hlook])
      exact ⟨htrail, List.Subset.refl _, .inr hfound, htrail.longest b level hlook⟩
    | none =>
      rw [hlook] at h
      have hfound : b ∉ st.found := fun hb => by simpa [hlook] using lookup_isSome_iff.2 hb
      by_cases hb : b ∈ R
      · rw [if_pos hb] at h
        obtain ⟨rfl, rfl⟩ := Prod.mk.inj (Option.some.inj h)
        cases R with
        | nil => cases hb
        | cons t R =>
          obtain ⟨hedge, hpath⟩ := hstack t R rfl
          have hclose := htrail.close (hself t) hedge hpath hb
          refine ⟨hclose, List.Subset.refl _, .inl hb, fun hclear => ?_⟩
          exact absurd (hclose.circle b (by simp)) hclear.not_onCircle
      · rw [if_neg hb] at h
        obtain ⟨x, hx, hret⟩ := Option.bind_eq_some_iff.mp h
        obtain ⟨rfl, rfl⟩ := Prod.mk.inj (Option.some.inj hret)
        have hpath : ∀ a ∈ R, TransGen (Follows deps) a b := by
          intro a ha
          cases R with
          | nil => cases ha
          | cons t R =>
            obtain ⟨hedge, hpath⟩ := hstack t R rfl
            rcases List.mem_cons.mp ha with rfl | ha
            · exact .single hedge
            · exact (hpath a ha).tail hedge
        have hvisited : Visited deps R b st (deps b) x := by
          refine foldlM_induct (P := Visited deps R b st) ?_ ?_ hx
          · exact ⟨htrail.enter hb hfound, List.Subset.refl _, by simp, fun _ => .inl rfl⟩
          · intro ds d x x' hd hds hx'
            obtain ⟨y, hy, hret⟩ := Option.bind_eq_some_iff.mp hx'
            obtain rfl := Option.some.inj hret
            have hstack' : ∀ t R', b :: R = t :: R' →
                d ∈ deps t ∧ ∀ a ∈ R', TransGen (Follows deps) a t := by
              intro t R' heq
              obtain ⟨rfl, rfl⟩ := List.cons.inj heq
              exact ⟨hd, hpath⟩
            obtain ⟨htrail', hgrows, -, hlong⟩ := ih hstack' hds.trail hy
            exact hds.step htrail' hgrows fun hclear => hlong (hclear.next hd)
        have hlong : Clear (Follows deps) b → Longest (Follows deps) b x.1 := fun hclear =>
          longest_of_max (hvisited.atLeast hclear) (hvisited.attained hclear)
        refine ⟨hvisited.trail.leave hlong, fun a ha => ?_, .inr ?_, hlong⟩
        · exact List.mem_cons_of_mem b (hvisited.grows ha)
        · exact List.mem_cons_self

/-! The whole search, and what is made of it. -/

variable {labels : List Text} {levels : List (Text × Nat)}

def search (deps : Text → List Text) (labels : List Text) : Option Levels :=
  labels.foldlM (fun st label => (levelOf deps (labels.length + 1) [] st label).map (·.2)) ⟨[], []⟩

/-- The levels with every circle cut where it was found. -/
def Levels.cut (st : Levels) : List (Text × Nat) :=
  st.levels.map fun x => if x.1 ∈ st.cyclic then (x.1, 0) else x

def deepLabels (levels : List (Text × Nat)) : List Text :=
  sortedLabels ((levels.filter fun x => x.2 > maxDepth - 1).map (·.1))

def Levels.warnings (st : Levels) : List Warning :=
  (sortedLabels st.cyclic).map .cycle ++
    (deepLabels st.cut).map fun label => .tooDeep label ((st.cut.lookup label).getD 0)

/-- The assignment of levels when the sets of dependencies are gone through in the given order. -/
def assignLevelsBy (deps : Text → List Text) (plan : List SectionPlan) :
    Option (List (Text × Nat) × List Warning) := do
  let st ← search deps (labelsOf plan)
  return (st.cut.map fun x => (x.1, min x.2 (maxDepth - 1)), st.warnings)

theorem assignLevels_eq (plan : List SectionPlan) :
    assignLevels plan = assignLevelsBy (fun label => depsOf plan label (refsOf plan label)) plan :=
  rfl

/-- An order in which the sets of dependencies can be gone through. -/
def Order (plan : List SectionPlan) (deps : Text → List Text) : Prop :=
  ∀ a, (deps a).Perm (depsOf plan a (refsOf plan a))

theorem order_refl (plan : List SectionPlan) :
    Order plan fun label => depsOf plan label (refsOf plan label) := fun _ => .refl _

theorem Order.follows (h : Order plan deps) : Follows deps = DependsOn plan := by
  funext a b
  exact propext (h a).mem_iff

theorem Order.subset (h : Order plan deps) (a : Text) : deps a ⊆ labelsOf plan :=
  fun _ hb => deps_subset plan a _ ((h a).subset hb)

theorem Order.self (h : Order plan deps) (a : Text) : a ∉ deps a := by
  rw [(h a).mem_iff, depsOf, List.mem_eraseDups]
  simp [depLabels]

theorem mem_labels_of_dependsOn (h : DependsOn plan a b) : a ∈ labelsOf plan ∧ b ∈ labelsOf plan := by
  refine ⟨?_, deps_subset plan a _ h⟩
  cases hlast : lastFor a (plan.map fun s => (labelOf s, s.buildsOn)) with
  | none =>
    have hrefs : refsOf plan a = [] := by simp [refsOf, hlast]
    rw [DependsOn, hrefs] at h
    simp [depsOf, depLabels] at h
  | some refs =>
    obtain ⟨s, hs, heq⟩ := List.mem_map.mp (mem_of_lastFor hlast)
    obtain ⟨rfl, -⟩ := Prod.mk.inj heq
    exact List.mem_map_of_mem hs

theorem mem_labels_of_onCircle (h : OnCircle (DependsOn plan) a) : a ∈ labelsOf plan := by
  cases h using TransGen.head_induction_on with
  | single h => exact (mem_labels_of_dependsOn h).1
  | head h => exact (mem_labels_of_dependsOn h).1

theorem search_isSome (hdeps : ∀ a, deps a ⊆ labels) : (search deps labels).isSome := by
  refine foldlM_isSome (fun b hb st => ?_) _
  rw [Option.isSome_map]
  exact levelOf_isSome hdeps (by simp) (by simp) (by simp) hb st

theorem search_trail (hself : ∀ a, a ∉ deps a) (h : search deps labels = some st) :
    Trail deps [] st ∧ labels ⊆ st.found := by
  refine foldlM_induct (P := fun ds st => Trail deps [] st ∧ ds ⊆ st.found)
    ⟨trail_nil deps, by simp⟩ (fun ds d st st' _ hds hst => ?_) h
  obtain ⟨x, hx, rfl⟩ := Option.map_eq_some_iff.mp hst
  obtain ⟨htrail, hgrows, hfound, -⟩ := levelOf_trail hself (by simp) hds.1 hx
  refine ⟨htrail, List.append_subset.mpr ⟨List.Subset.trans hds.2 hgrows, ?_⟩⟩
  simpa using hfound

theorem lookup_map {f : Text → Nat → Nat} (levels : List (Text × Nat)) (a : Text) :
    (levels.map fun x => (x.1, f x.1 x.2)).lookup a = (levels.lookup a).map (f a) := by
  induction levels with
  | nil => rfl
  | cons x levels ih =>
    rw [List.map_cons, List.lookup_cons, List.lookup_cons, ih]
    by_cases hx : a = x.1
    · simp [hx]
    · have hne : (a == x.1) = false := by simpa using hx
      simp [hne]

theorem lookup_cut (st : Levels) (a : Text) :
    st.cut.lookup a = (st.levels.lookup a).map fun n => if a ∈ st.cyclic then 0 else n := by
  have hcut : st.cut = st.levels.map fun x => (x.1, if x.1 ∈ st.cyclic then 0 else x.2) := by
    refine List.map_congr_left fun x _ => ?_
    split <;> rfl
  rw [hcut, lookup_map (f := fun a n => if a ∈ st.cyclic then 0 else n)]

theorem map_fst_cut (st : Levels) : st.cut.map (·.1) = st.found := by
  rw [Levels.cut, Levels.found, List.map_map]
  refine List.map_congr_left fun x _ => ?_
  simp only [Function.comp_apply]
  split <;> rfl

theorem assignLevelsBy_eq_some (h : Order plan deps) :
    ∃ st, Trail deps [] st ∧ labelsOf plan ⊆ st.found ∧
      assignLevelsBy deps plan =
        some (st.cut.map fun x => (x.1, min x.2 (maxDepth - 1)), st.warnings) := by
  obtain ⟨st, hst⟩ := Option.isSome_iff_exists.mp (search_isSome h.subset)
  obtain ⟨htrail, hfound⟩ := search_trail h.self hst
  exact ⟨st, htrail, hfound, by simp [assignLevelsBy, hst]⟩

/-- The level of a label from which no circle can be reached. -/
theorem Trail.level (h : Trail deps [] st) (ha : a ∈ st.found) (hclear : Clear (Follows deps) a) :
    ∃ n, Longest (Follows deps) a n ∧ st.cut.lookup a = some n := by
  obtain ⟨n, hn⟩ := Option.isSome_iff_exists.mp (lookup_isSome_iff.2 ha)
  refine ⟨n, h.longest a n hn hclear, ?_⟩
  have hcyclic : a ∉ st.cyclic := fun hc => hclear.not_onCircle (h.circle a hc)
  simp [lookup_cut, hn, hcyclic]

theorem lookup_capped (levels : List (Text × Nat)) (a : Text) :
    (levels.map fun x => (x.1, min x.2 (maxDepth - 1))).lookup a =
      (levels.lookup a).map fun n => min n (maxDepth - 1) :=
  lookup_map (f := fun _ n => min n (maxDepth - 1)) levels a

theorem mem_sortedLabels : a ∈ sortedLabels labels ↔ a ∈ labels := by
  rw [sortedLabels, List.mem_mergeSort, List.mem_eraseDups]

theorem nodup_eraseDups (labels : List Text) : labels.eraseDups.Nodup := by
  rw [beq_text]
  exact FirstSeen.nodup labels

/-- Sorting forgets in which order a set was gone through. -/
theorem sortedLabels_congr {labels' : List Text} (h : ∀ a, a ∈ labels ↔ a ∈ labels') :
    sortedLabels labels = sortedLabels labels' := by
  have hsorted : ∀ labels, (sortedLabels labels).Pairwise fun a b => decide (a ≤ b) = true := by
    intro labels
    refine List.pairwise_mergeSort (fun a b c hab hbc => ?_) (fun a b => ?_) _
    · simp only [decide_eq_true_eq] at hab hbc ⊢
      exact hab.trans hbc
    · simpa using le_total a b
  refine List.Perm.eq_of_pairwise (fun a b _ _ hab hba => ?_) (hsorted labels) (hsorted labels') ?_
  · simp only [decide_eq_true_eq] at hab hba
    exact le_antisymm hab hba
  · refine (List.mergeSort_perm _ _).trans (.trans ?_ (List.mergeSort_perm _ _).symm)
    refine (List.perm_ext_iff_of_nodup (nodup_eraseDups _) (nodup_eraseDups _)).mpr fun a => ?_
    rw [List.mem_eraseDups, List.mem_eraseDups, h a]

theorem mem_deepLabels (hnodup : (levels.map (·.1)).Nodup) :
    a ∈ deepLabels levels ↔ ∃ n, levels.lookup a = some n ∧ maxDepth - 1 < n := by
  rw [deepLabels, mem_sortedLabels, List.mem_map]
  constructor
  · rintro ⟨⟨b, n⟩, hmem, rfl⟩
    obtain ⟨hmem, hn⟩ := List.mem_filter.mp hmem
    exact ⟨n, (lookup_eq_some_iff hnodup).mpr hmem, by simpa using hn⟩
  · rintro ⟨n, hn, hdeep⟩
    exact ⟨(a, n), List.mem_filter.mpr ⟨(lookup_eq_some_iff hnodup).mp hn,
      by simpa using hdeep⟩, rfl⟩

/-! Without circles the search ends with the longest chains, whatever the order. -/

theorem Trail.uncut (h : Trail deps [] st) (hclear : ∀ a, Clear (Follows deps) a) :
    st.cyclic = [] := by
  rw [List.eq_nil_iff_forall_not_mem]
  exact fun c hc => (hclear c).not_onCircle (h.circle c hc)

theorem Trail.deep (h : Trail deps [] st) (hclear : ∀ a, Clear (Follows deps) a)
    (hfound : ∀ a b, Follows deps a b → a ∈ st.found) :
    a ∈ deepLabels st.cut ↔ ∃ n, Longest (Follows deps) a n ∧ maxDepth - 1 < n := by
  have hnodup : (st.cut.map (·.1)).Nodup := by
    rw [map_fst_cut]
    exact h.nodup
  rw [mem_deepLabels hnodup]
  constructor
  · rintro ⟨n, hn, hdeep⟩
    have ha : a ∈ st.found := by
      rw [← map_fst_cut]
      exact lookup_isSome_iff.1 (by simp [hn])
    obtain ⟨m, hm, hlook⟩ := h.level ha (hclear a)
    obtain rfl : n = m := Option.some.inj (hn.symm.trans hlook)
    exact ⟨n, hm, hdeep⟩
  · rintro ⟨n, hn, hdeep⟩
    have ha : a ∈ st.found := by
      cases hn.1 with
      | start => omega
      | step hab _ => exact hfound _ _ hab
    obtain ⟨m, hm, hlook⟩ := h.level ha (hclear a)
    exact ⟨m, hlook, by rwa [hm.unique hn]⟩

theorem Trail.deep_level (h : Trail deps [] st) (hclear : ∀ a, Clear (Follows deps) a)
    (hfound : ∀ a b, Follows deps a b → a ∈ st.found) (ha : a ∈ deepLabels st.cut) :
    Longest (Follows deps) a ((st.cut.lookup a).getD 0) := by
  obtain ⟨n, hn, hdeep⟩ := (h.deep hclear hfound).mp ha
  have hmem : a ∈ st.found := by
    cases hn.1 with
    | start => omega
    | step hab _ => exact hfound _ _ hab
  obtain ⟨m, hm, hlook⟩ := h.level hmem (hclear a)
  rw [hlook]
  exact hm

theorem Trail.mem_warnings (h : Trail deps [] st) (hclear : ∀ a, Clear (Follows deps) a)
    (hfound : ∀ a b, Follows deps a b → a ∈ st.found) (w : Warning) :
    w ∈ st.warnings ↔
      ∃ a n, Longest (Follows deps) a n ∧ maxDepth - 1 < n ∧ w = .tooDeep a n := by
  have hcycle : (sortedLabels st.cyclic).map Warning.cycle = [] := by
    simp [h.uncut hclear, sortedLabels]
  rw [Levels.warnings, hcycle, List.nil_append, List.mem_map]
  constructor
  · rintro ⟨a, ha, rfl⟩
    obtain ⟨n, hn, hdeep⟩ := (h.deep hclear hfound).mp ha
    have hlevel := h.deep_level hclear hfound ha
    exact ⟨a, _, hlevel, by rwa [hlevel.unique hn], rfl⟩
  · rintro ⟨a, n, hn, hdeep, rfl⟩
    have ha := (h.deep hclear hfound).mpr ⟨n, hn, hdeep⟩
    exact ⟨a, ha, by rw [(h.deep_level hclear hfound ha).unique hn]⟩

/-- Two searches of one graph without circles report the same. -/
theorem Trail.warnings_congr {deps' : Text → List Text} (h : Trail deps [] st)
    (h' : Trail deps' [] st') (hfollows : Follows deps = Follows deps')
    (hclear : ∀ a, Clear (Follows deps) a) (hfound : ∀ a b, Follows deps a b → a ∈ st.found)
    (hfound' : ∀ a b, Follows deps a b → a ∈ st'.found) : st.warnings = st'.warnings := by
  rw [hfollows] at hfound'
  have hclear' : ∀ a, Clear (Follows deps') a := fun a => hfollows ▸ hclear a
  have hdeep : deepLabels st.cut = deepLabels st'.cut := by
    refine sortedLabels_congr fun a => ?_
    have hiff := (h.deep (a := a) hclear hfound).trans
      ((h'.deep (a := a) hclear' hfound').trans (by rw [hfollows])).symm
    rwa [deepLabels, deepLabels, mem_sortedLabels, mem_sortedLabels] at hiff
  rw [Levels.warnings, Levels.warnings, h.uncut hclear, h'.uncut hclear', ← hdeep]
  congr 1
  refine List.map_congr_left fun a ha => ?_
  have hlevel := h.deep_level hclear hfound ha
  rw [hfollows] at hlevel
  rw [hlevel.unique (h'.deep_level hclear' hfound' (hdeep ▸ ha))]

/-- What the levels of a plan are to be where sections build on each other in a circle: all of
them are cut and named, the others count as if those had no dependencies, and the order in which
sets are gone through does not matter. -/
def CirclesCut (plan : List SectionPlan) : Prop :=
  ∃ (level : Text → Nat) (warnings : List Warning), ∀ deps, Order plan deps →
    ∃ levels, assignLevelsBy deps plan = some (levels, warnings) ∧
      (∀ a ∈ labelsOf plan, levels.lookup a = some (level a)) ∧
      (∀ a, OnCircle (DependsOn plan) a → level a = 0 ∧ .cycle a ∈ warnings) ∧
      ∀ a ∈ labelsOf plan, ¬ OnCircle (DependsOn plan) a → ∃ n, level a = min n (maxDepth - 1) ∧
        Longest (fun a b => DependsOn plan a b ∧ ¬ OnCircle (DependsOn plan) a) a n

/-- The label on a circle that the search leaves first is never reported. -/
theorem not_circlesCut (ha : OnCircle (DependsOn plan) a) : ¬ CirclesCut plan := by
  rintro ⟨level, warnings, hcut⟩
  obtain ⟨levels, hlevels, -, hcircle, -⟩ := hcut _ (order_refl plan)
  obtain ⟨st, htrail, hfound, heq⟩ := assignLevelsBy_eq_some (order_refl plan)
  obtain ⟨-, rfl⟩ := Prod.mk.inj (Option.some.inj (heq.symm.trans hlevels))
  have hfollows := (order_refl plan).follows
  refine none_of_behind (P := OnCircle (DependsOn plan)) htrail.nodup (fun c _ hc => ?_) a
    (hfound (mem_labels_of_onCircle ha)) ha
  have hmem := (hcircle c hc).2
  simp only [Levels.warnings, List.mem_append, List.mem_map, Warning.cycle.injEq, exists_eq_right,
    reduceCtorEq, and_false, exists_false, or_false, mem_sortedLabels] at hmem
  rw [← hfollows]
  exact htrail.behind c hmem

/-- Every section of every circle is cut and named only in a plan without circles. -/
theorem circlesCut_iff_acyclic (plan : List SectionPlan) : CirclesCut plan ↔ Acyclic plan := by
  constructor
  · intro h a ha
    exact not_circlesCut ha h
  · intro h
    have hclear : ∀ a, Clear (DependsOn plan) a := fun _ b _ => h b
    have hcut : (fun a b => DependsOn plan a b ∧ ¬ OnCircle (DependsOn plan) a) =
        DependsOn plan := by
      funext a b
      exact propext (and_iff_left (h a))
    obtain ⟨st, htrail, hfound, -⟩ := assignLevelsBy_eq_some (order_refl plan)
    have hlabels : ∀ {st : Levels}, labelsOf plan ⊆ st.found →
        ∀ a b, DependsOn plan a b → a ∈ st.found :=
      fun hfound a b hab => hfound (mem_labels_of_dependsOn hab).1
    have hfollows := (order_refl plan).follows
    refine ⟨fun a => min ((st.cut.lookup a).getD 0) (maxDepth - 1), st.warnings,
      fun deps horder => ?_⟩
    obtain ⟨st', htrail', hfound', heq⟩ := assignLevelsBy_eq_some horder
    have hwarn : st.warnings = st'.warnings :=
      htrail.warnings_congr htrail' (hfollows.trans horder.follows.symm)
        (hfollows ▸ hclear) (hfollows ▸ hlabels hfound) (hfollows ▸ hlabels hfound')
    refine ⟨_, hwarn ▸ heq, fun a ha => ?_, fun a ha => absurd ha (h a), fun a ha _ => ?_⟩
    · obtain ⟨n, hn, hlook⟩ := htrail.level (hfound ha) (hfollows ▸ hclear a)
      obtain ⟨m, hm, hlook'⟩ := htrail'.level (hfound' ha) (horder.follows ▸ hclear a)
      rw [hfollows] at hn
      rw [horder.follows] at hm
      simp [lookup_capped, hlook, hlook', hm.unique hn]
    · obtain ⟨n, hn, hlook⟩ := htrail.level (hfound ha) (hfollows ▸ hclear a)
      rw [hcut]
      exact ⟨n, by simp [hlook], hfollows ▸ hn⟩

/-- Two sections that wait for each other. -/
def circlePlan : List SectionPlan :=
  [⟨⟨"000000000000000000000000000000c1".toList, by decide, by decide⟩, 1, 1, "전망".toList, [], [],
      [], [], [], ["1.2".toList], none, none⟩,
    ⟨⟨"000000000000000000000000000000c2".toList, by decide, by decide⟩, 1, 2, "현황".toList, [], [],
      [], [], [], ["1.1".toList], none, none⟩]

theorem not_circlesCut_circlePlan : ¬ ∀ plan, CirclesCut plan := by
  intro h
  have hedge : DependsOn circlePlan "1.1".toList "1.2".toList := by
    unfold DependsOn
    decide
  have hback : DependsOn circlePlan "1.2".toList "1.1".toList := by
    unfold DependsOn
    decide
  exact not_circlesCut (TransGen.head hedge (.single hback)) (h circlePlan)

end RownRg.BuildsOn

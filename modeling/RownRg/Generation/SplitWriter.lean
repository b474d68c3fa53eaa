import RownRg.Lib.Greedy
import Mathlib.Data.List.Nodup

/-! The parts of a long section: each chunk goes to one of them. -/

open Greedy

namespace RownRg.Generation

/-- `-(-n // k)` -/
def ceilDiv (n k : Nat) : Nat := (n + k - 1) / k

/-- A pair of a chunk and an active part comes before another: more similar first, then the lower
chunk, then the lower part. -/
def Before {α : Type} [LinearOrder α] (sims : Nat → Nat → α) (x y : Nat × Nat) : Prop :=
  sims y.1 y.2 < sims x.1 x.2 ∨
    sims x.1 x.2 = sims y.1 y.2 ∧ (x.1 < y.1 ∨ x.1 = y.1 ∧ x.2 ≤ y.2)

instance instDecidableBefore {α : Type} [LinearOrder α] (sims : Nat → Nat → α) (x y : Nat × Nat) :
    Decidable (Before sims x y) :=
  inferInstanceAs (Decidable (_ ∨ _))

def order {α : Type} [LinearOrder α] (sims : Nat → Nat → α) (n k : Nat) : List (Nat × Nat) :=
  ((List.range n).product (List.range k)).mergeSort fun x y => decide (Before sims x y)

/-- One pair of the order: `assigned` and `counts` after it. -/
def place (cap : Nat) (st : List (Nat × Nat) × List Nat) (x : Nat × Nat) :
    List (Nat × Nat) × List Nat :=
  if x.1 ∈ st.1.map Prod.fst ∨ cap ≤ st.2.getD x.2 0 then st
  else (st.1 ++ [x], st.2.modify x.2 (· + 1))

def placeAll (cap k : Nat) (pairs : List (Nat × Nat)) : List (Nat × Nat) × List Nat :=
  pairs.foldl (place cap) ([], List.replicate k 0)

/-- The numbers of the chunks of each active part. -/
def groupsByPart (active : List Nat) (assigned : List (Nat × Nat)) : List (List Nat) :=
  let items := assigned.mergeSort fun x y => decide (x.1 < y.1 ∨ x.1 = y.1 ∧ x.2 ≤ y.2)
  active.map fun p => (items.filter fun x => active[x.2]? = some p).map fun x => x.1 + 1

theorem length_place (cap : Nat) (st : List (Nat × Nat) × List Nat) (x : Nat × Nat) :
    (place cap st x).2.length = st.2.length := by
  unfold place
  split <;> simp

theorem length_placeAll (cap k : Nat) (pairs : List (Nat × Nat)) :
    (placeAll cap k pairs).2.length = k := by
  have hfold : ∀ (pairs : List (Nat × Nat)) st,
      (pairs.foldl (place cap) st).2.length = st.2.length := by
    intro pairs
    induction pairs with
    | nil => exact fun _ => rfl
    | cons x pairs ih => exact fun st => (ih _).trans (length_place cap st x)
  exact (hfold pairs _).trans List.length_replicate

/-- `min(counts)` -/
def least (counts : List Nat) : Nat := counts.min?.getD 0

theorem least_spec {counts : List Nat} (h : counts ≠ []) :
    least counts ∈ counts ∧ ∀ c ∈ counts, least counts ≤ c := by
  unfold least
  cases hmin : counts.min? with
  | none => exact absurd (List.min?_eq_none_iff.mp hmin) h
  | some m => exact List.min?_eq_some_iff.mp hmin

theorem idxOf_least_lt {counts : List Nat} (h : counts ≠ []) :
    counts.idxOf (least counts) < counts.length :=
  List.idxOf_lt_length_of_mem (least_spec h).1

variable {α β : Type} [LinearOrder α] (product : List β → List β → Nat → Nat → α)
  (chunkVecs partVecs : List β) (minPerPart : Int)

def capOf (active : List Nat) : Nat := max 1 (ceilDiv chunkVecs.length active.length + 1)

/-- One pass over all chunks with the parts that are active; `product` is the matrix product
of the chunk vectors with the part vectors. -/
def pass (active : List Nat) : List (Nat × Nat) × List Nat :=
  placeAll (capOf chunkVecs active) active.length
    (order (product chunkVecs (active.filterMap fun p => partVecs[p]?)) chunkVecs.length
      active.length)

theorem length_counts (active : List Nat) :
    (pass product chunkVecs partVecs active).2.length = active.length :=
  length_placeAll _ _ _

theorem poorest_lt {active : List Nat} (h : active ≠ []) :
    (pass product chunkVecs partVecs active).2.idxOf
      (least (pass product chunkVecs partVecs active).2) < active.length := by
  have hlength := length_counts product chunkVecs partVecs active
  have hne : (pass product chunkVecs partVecs active).2 ≠ [] := by
    intro he
    rw [he] at hlength
    exact h (List.length_eq_zero_iff.mp hlength.symm)
  have hlt := idxOf_least_lt hne
  omega

/-- The loop of `assign_by_similarity`; the poorest part is dropped and all is assigned anew. -/
def assignActive (active : List Nat) : List (List Nat) × List Nat :=
  if active = [] then ([], [])
  else
    let counts := (pass product chunkVecs partVecs active).2
    if 1 < active.length ∧ (least counts : Int) < minPerPart then
      assignActive (active.eraseIdx (counts.idxOf (least counts)))
    else (groupsByPart active (pass product chunkVecs partVecs active).1, active)
termination_by active.length
decreasing_by
  rename_i hactive hdrop
  have hlt := poorest_lt product chunkVecs partVecs hactive
  rw [List.length_eraseIdx_of_lt hlt]
  omega

/-- `assign_by_similarity` -/
def assignBySimilarity : List (List Nat) × List Nat :=
  assignActive product chunkVecs partVecs minPerPart (List.range partVecs.length)

section Pass

variable {cap n k a i c : Nat} {taken pairs assigned : List (Nat × Nat)} {active : List Nat}
  {counts g : List Nat} {x : Nat × Nat}

/-- The counts are the loads. -/
def loads (k : Nat) (taken : List (Nat × Nat)) : List Nat := (List.range k).map (load taken)

theorem getD_loads (h : a < k) : (loads k taken).getD a 0 = load taken a := by
  simp [loads, List.getD_eq_getElem?_getD, h]

theorem modify_loads : (loads k taken).modify x.2 (· + 1) = loads k (taken ++ [x]) := by
  refine List.ext_getElem? fun a => ?_
  rw [List.getElem?_modify]
  simp only [loads, List.getElem?_map]
  by_cases ha : a < k
  · simp only [List.getElem?_range ha, Option.map_some, load_append]
    split <;> rfl
  · simp [ha]

theorem foldl_place (h : ∀ x ∈ pairs, x.2 < k) :
    pairs.foldl (place cap) (taken, loads k taken) =
      (assign cap taken pairs, loads k (assign cap taken pairs)) := by
  induction pairs generalizing taken with
  | nil => rfl
  | cons x pairs ih =>
    have htail : ∀ y ∈ pairs, y.2 < k := fun y hy => h y (List.mem_cons_of_mem _ hy)
    rw [List.foldl_cons, assign, place, getD_loads (h x List.mem_cons_self), modify_loads]
    split
    · exact ih htail
    · exact ih htail

theorem placeAll_eq (h : ∀ x ∈ pairs, x.2 < k) :
    placeAll cap k pairs = (assign cap [] pairs, loads k (assign cap [] pairs)) := by
  have hstart : List.replicate k 0 = loads k [] := by
    refine List.ext_getElem (by simp [loads]) fun a _ _ => ?_
    simp [loads, load]
  rw [placeAll, hstart, foldl_place h]

theorem mem_order {sims : Nat → Nat → α} : (i, a) ∈ order sims n k ↔ i < n ∧ a < k := by
  rw [order, List.mem_mergeSort, List.pair_mem_product, List.mem_range, List.mem_range]

theorem le_capacity (hk : 0 < k) : n ≤ (ceilDiv n k + 1) * k := by
  have hdiv := Nat.div_add_mod (n + k - 1) k
  have hmod := Nat.mod_lt (n + k - 1) hk
  have hsplit : (ceilDiv n k + 1) * k = k * ((n + k - 1) / k) + k := by
    rw [ceilDiv, Nat.add_mul, Nat.one_mul, Nat.mul_comm]
  omega

/-- After a pass every chunk has one part, and no part has more than its share. -/
structure Passed (n k : Nat) (assigned : List (Nat × Nat)) (counts : List Nat) : Prop where
  once : (assigned.map Prod.fst).Nodup
  inside : ∀ x ∈ assigned, x.1 < n ∧ x.2 < k
  all : ∀ i < n, i ∈ assigned.map Prod.fst
  within : ∀ a, load assigned a ≤ ceilDiv n k + 1
  counted : counts = loads k assigned

theorem passed_pass (hactive : active ≠ []) :
    Passed chunkVecs.length active.length (pass product chunkVecs partVecs active).1
      (pass product chunkVecs partVecs active).2 := by
  have hk : 0 < active.length := List.length_pos_of_ne_nil hactive
  have hcap : capOf chunkVecs active = ceilDiv chunkVecs.length active.length + 1 := by
    simp [capOf]
  rw [pass, hcap, placeAll_eq fun x hx => (mem_order.1 hx).2]
  have hsound := sound_run (ceilDiv chunkVecs.length active.length + 1)
    (order (product chunkVecs (active.filterMap fun p => partVecs[p]?)) chunkVecs.length
      active.length)
  refine ⟨hsound.once, fun x hx => mem_order.1 (hsound.offered x hx), fun i hi => ?_,
    hsound.within, rfl⟩
  have hoffers : ∀ i a, (i, a) ∈ order (product chunkVecs (active.filterMap fun p =>
      partVecs[p]?)) chunkVecs.length active.length ↔
      i ∈ Finset.range chunkVecs.length ∧ a ∈ Finset.range active.length := by
    intro i a
    rw [mem_order, Finset.mem_range, Finset.mem_range]
  refine all_assigned hsound hoffers ?_ (Finset.mem_range.mpr hi)
  rw [Finset.card_range, Finset.card_range]
  exact le_capacity hk

/-- The items of the dictionary, sorted. -/
def sortedItems (assigned : List (Nat × Nat)) : List (Nat × Nat) :=
  assigned.mergeSort fun x y => decide (x.1 < y.1 ∨ x.1 = y.1 ∧ x.2 ≤ y.2)

theorem pairwise_sortedItems (h : (assigned.map Prod.fst).Nodup) :
    (sortedItems assigned).Pairwise fun x y => x.1 < y.1 := by
  have hperm : (sortedItems assigned).Perm assigned := List.mergeSort_perm _ _
  have hdistinct : (sortedItems assigned).Pairwise fun x y => x.1 ≠ y.1 :=
    List.pairwise_map.mp ((hperm.map Prod.fst).nodup_iff.mpr h)
  have hsorted : (sortedItems assigned).Pairwise fun x y =>
      decide (x.1 < y.1 ∨ x.1 = y.1 ∧ x.2 ≤ y.2) := by
    refine List.pairwise_mergeSort (fun x y z hxy hyz => ?_) (fun x y => ?_) _
    · have hxy := of_decide_eq_true hxy
      have hyz := of_decide_eq_true hyz
      exact decide_eq_true (by omega)
    · rw [Bool.or_eq_true, decide_eq_true_eq, decide_eq_true_eq]
      omega
  refine (hdistinct.and hsorted).imp fun {x y} hxy => ?_
  have hle := of_decide_eq_true hxy.2
  have hne := hxy.1
  omega

theorem getElem?_groupsByPart (hactive : active.Nodup)
    (h : (groupsByPart active assigned)[a]? = some g) :
    a < active.length ∧
      g = ((sortedItems assigned).filter fun x => x.2 = a).map fun x => x.1 + 1 := by
  simp only [groupsByPart, List.getElem?_map, Option.map_eq_some_iff] at h
  obtain ⟨p, hp, rfl⟩ := h
  obtain ⟨ha, hpa⟩ := List.getElem?_eq_some_iff.mp hp
  refine ⟨ha, ?_⟩
  have hsame : ∀ x : Nat × Nat, decide (active[x.2]? = some p) = decide (x.2 = a) := by
    intro x
    refine decide_eq_decide.mpr ⟨fun hx => ?_, fun hx => hx ▸ hp⟩
    exact (List.getElem?_inj ha hactive).mp (hp.trans hx.symm) |>.symm
  simp only [hsame]
  rfl

theorem mem_group (hactive : active.Nodup) (h : (groupsByPart active assigned)[a]? = some g) :
    c ∈ g ↔ ∃ i, (i, a) ∈ assigned ∧ c = i + 1 := by
  obtain ⟨-, rfl⟩ := getElem?_groupsByPart hactive h
  simp only [List.mem_map, List.mem_filter, sortedItems, List.mem_mergeSort, decide_eq_true_eq]
  constructor
  · rintro ⟨⟨i, b⟩, ⟨hx, rfl⟩, rfl⟩
    exact ⟨i, hx, rfl⟩
  · rintro ⟨i, hi, rfl⟩
    exact ⟨(i, a), ⟨hi, rfl⟩, rfl⟩

theorem pairwise_group (hactive : active.Nodup) (honce : (assigned.map Prod.fst).Nodup)
    (h : (groupsByPart active assigned)[a]? = some g) : g.Pairwise (· < ·) := by
  obtain ⟨-, rfl⟩ := getElem?_groupsByPart hactive h
  refine List.pairwise_map.mpr ?_
  refine ((pairwise_sortedItems honce).filter _).imp fun hxy => ?_
  omega

theorem length_group (hactive : active.Nodup) (h : (groupsByPart active assigned)[a]? = some g) :
    g.length = load assigned a := by
  obtain ⟨-, rfl⟩ := getElem?_groupsByPart hactive h
  have hperm : (sortedItems assigned).Perm assigned := List.mergeSort_perm _ _
  rw [List.length_map, ← List.countP_eq_length_filter, hperm.countP_eq, load, List.count,
    List.countP_map]
  refine List.countP_congr fun x _ => ?_
  simp

/-- Each of `n` chunks in one group, the groups in order and, where there are several, of a
proper size. -/
structure Assignment (n : Nat) (minPerPart : Int) (groups : List (List Nat))
    (surviving : List Nat) : Prop where
  paired : groups.length = surviving.length
  increasing : ∀ g ∈ groups, g.Pairwise (· < ·)
  inside : ∀ g ∈ groups, ∀ c ∈ g, 1 ≤ c ∧ c ≤ n
  once : ∀ c, 1 ≤ c → c ≤ n → ∃! a : Nat, ∃ g, groups[a]? = some g ∧ c ∈ g
  sized : 1 < surviving.length → ∀ g ∈ groups,
    minPerPart ≤ g.length ∧ g.length ≤ ceilDiv n surviving.length + 1

theorem once_of_passed (hactive : active.Nodup) (h : Passed n active.length assigned counts)
    (hc : 1 ≤ c) (hcn : c ≤ n) :
    ∃! a : Nat, ∃ g, (groupsByPart active assigned)[a]? = some g ∧ c ∈ g := by
  obtain ⟨⟨i, a⟩, hx, hi⟩ := List.mem_map.mp (h.all (c - 1) (by omega))
  obtain rfl : i = c - 1 := hi
  have ha : a < (groupsByPart active assigned).length := by
    have hinside := (h.inside _ hx).2
    simpa [groupsByPart] using hinside
  refine ⟨a, ⟨_, List.getElem?_eq_getElem ha, ?_⟩, ?_⟩
  · exact (mem_group hactive (List.getElem?_eq_getElem ha)).2 ⟨c - 1, hx, by omega⟩
  · rintro b ⟨g, hg, hcg⟩
    obtain ⟨j, hj, hcj⟩ := (mem_group hactive hg).1 hcg
    obtain rfl : j = c - 1 := by omega
    exact congrArg Prod.snd (List.inj_on_of_nodup_map h.once hj hx rfl)

theorem assignment_of_passed (hactive : active.Nodup)
    (h : Passed n active.length assigned counts)
    (hleast : ¬ (1 < active.length ∧ (least counts : Int) < minPerPart)) :
    Assignment n minPerPart (groupsByPart active assigned) active := by
  refine ⟨by simp [groupsByPart], fun g hg => ?_, fun g hg c hc => ?_,
    fun c hc hcn => once_of_passed hactive h hc hcn, fun hseveral g hg => ?_⟩
  · obtain ⟨a, ha⟩ := List.getElem?_of_mem hg
    exact pairwise_group hactive h.once ha
  · obtain ⟨a, ha⟩ := List.getElem?_of_mem hg
    obtain ⟨i, hi, rfl⟩ := (mem_group hactive ha).1 hc
    have hin := (h.inside _ hi).1
    omega
  · obtain ⟨a, ha⟩ := List.getElem?_of_mem hg
    have hlength := length_group hactive ha
    obtain ⟨hak, -⟩ := getElem?_groupsByPart hactive ha
    have hmem : load assigned a ∈ counts := by
      rw [h.counted]
      exact List.mem_map_of_mem (List.mem_range.mpr hak)
    have hmin := (least_spec (List.ne_nil_of_mem hmem)).2 _ hmem
    have hmax := h.within a
    omega

/-- The loop ends with parts that were active, in their order, and an assignment to them. -/
theorem assignment_assignActive (active : List Nat) (hne : active ≠ [])
    (hactive : active.Nodup) :
    (assignActive product chunkVecs partVecs minPerPart active).2 ≠ [] ∧
      (assignActive product chunkVecs partVecs minPerPart active).2.Sublist active ∧
      Assignment chunkVecs.length minPerPart
        (assignActive product chunkVecs partVecs minPerPart active).1
        (assignActive product chunkVecs partVecs minPerPart active).2 := by
  rw [assignActive, if_neg hne]
  dsimp only
  split
  · rename_i hdrop
    have hlt := poorest_lt product chunkVecs partVecs hne
    have hlength := List.length_eraseIdx_of_lt hlt
    have hsub := List.eraseIdx_sublist active
      ((pass product chunkVecs partVecs active).2.idxOf
        (least (pass product chunkVecs partVecs active).2))
    obtain ⟨hrest, hkept, hassignment⟩ := assignment_assignActive
      (active.eraseIdx ((pass product chunkVecs partVecs active).2.idxOf
        (least (pass product chunkVecs partVecs active).2)))
      (List.ne_nil_of_length_pos (by omega)) (hactive.sublist hsub)
    exact ⟨hrest, hkept.trans hsub, hassignment⟩
  · rename_i hkeep
    exact ⟨hne, List.Sublist.refl _, assignment_of_passed minPerPart hactive
      (passed_pass product chunkVecs partVecs hne) hkeep⟩
termination_by active.length
decreasing_by omega

end Pass

/-- Every chunk ends in one part that survives; the parts keep their order, and where several
survive each has enough chunks and none too many. -/
theorem assign_partitions (hparts : partVecs ≠ []) :
    (assignBySimilarity product chunkVecs partVecs minPerPart).2 ≠ [] ∧
    (assignBySimilarity product chunkVecs partVecs minPerPart).2.Pairwise (· < ·) ∧
    (∀ p ∈ (assignBySimilarity product chunkVecs partVecs minPerPart).2, p < partVecs.length) ∧
    Assignment chunkVecs.length minPerPart
      (assignBySimilarity product chunkVecs partVecs minPerPart).1
      (assignBySimilarity product chunkVecs partVecs minPerPart).2 := by
  have hne : List.range partVecs.length ≠ [] := by
    intro he
    exact hparts (List.length_eq_zero_iff.mp (List.range_eq_nil.mp he))
  obtain ⟨hsome, hkept, hassignment⟩ := assignment_assignActive product chunkVecs partVecs
    minPerPart _ hne List.nodup_range
  exact ⟨hsome, List.pairwise_lt_range.sublist hkept,
    fun p hp => List.mem_range.mp (hkept.subset hp), hassignment⟩

theorem assign_partitions_pair :
    (assignBySimilarity (fun _ _ i a => (i * a : Int)) [(), (), ()] [(), ()] 1).2 ≠ [] :=
  (assign_partitions (fun _ _ i a => (i * a : Int)) [(), (), ()] [(), ()] 1
    (List.cons_ne_nil _ _)).1

end RownRg.Generation

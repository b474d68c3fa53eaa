import RownRg.Lib.Dedup

/-! Lists grouped by a key, in the order in which the keys are first seen. -/

namespace FirstSeen

variable {ε κ : Type} [DecidableEq κ] {key : ε → κ} {xs ys : List ε} {xss : List (List ε)} {k : κ}

/-- The elements by their key. -/
def groups (key : ε → κ) (xs : List ε) : List (κ × List ε) :=
  (xs.map key).eraseDups.map fun k => (k, xs.filter fun e => key e = k)

/-- No key of the one list is a key of the other. -/
def Apart (key : ε → κ) (xs ys : List ε) : Prop := ∀ k ∈ xs.map key, k ∉ ys.map key

theorem mem_groups {g : κ × List ε} :
    g ∈ groups key xs ↔ g.1 ∈ xs.map key ∧ g.2 = xs.filter fun e => key e = g.1 := by
  obtain ⟨k, items⟩ := g
  simp only [groups, List.mem_map, List.mem_eraseDups, Prod.mk.injEq]
  constructor
  · rintro ⟨k', hk', rfl, rfl⟩
    exact ⟨hk', rfl⟩
  · rintro ⟨hk, hitems⟩
    exact ⟨k, hk, rfl, hitems.symm⟩

theorem filter_key_nil (h : k ∉ xs.map key) : xs.filter (fun e => key e = k) = [] := by
  rw [List.filter_eq_nil_iff]
  intro e he hek
  exact h (List.mem_map.mpr ⟨e, he, of_decide_eq_true hek⟩)

theorem groups_append (h : Apart key xs ys) :
    groups key (xs ++ ys) = groups key xs ++ groups key ys := by
  have hkeys : ((xs ++ ys).map key).eraseDups = (xs.map key).eraseDups ++ (ys.map key).eraseDups := by
    rw [List.map_append, List.eraseDups_append]
    congr 1
    refine congrArg List.eraseDups ?_
    rw [List.removeAll, List.filter_eq_self]
    intro k hk
    simpa using fun e he hek => h k (List.mem_map.mpr ⟨e, he, hek⟩) hk
  rw [groups, hkeys, List.map_append]
  congr 1
  · refine List.map_congr_left fun k hk => ?_
    rw [List.filter_append, filter_key_nil (h k (List.mem_eraseDups.mp hk)), List.append_nil]
  · refine List.map_congr_left fun k hk => ?_
    have hxs : k ∉ xs.map key := fun hk' => h k hk' (List.mem_eraseDups.mp hk)
    rw [List.filter_append, filter_key_nil hxs, List.nil_append]

theorem groups_flatten (h : xss.Pairwise (Apart key)) :
    groups key xss.flatten = xss.flatMap (groups key) := by
  induction xss with
  | nil => rfl
  | cons xs xss ih =>
    obtain ⟨hxs, hrest⟩ := List.pairwise_cons.mp h
    have hapart : Apart key xs xss.flatten := by
      intro k hk hk'
      obtain ⟨e, he, rfl⟩ := List.mem_map.mp hk'
      obtain ⟨ys, hys, hey⟩ := List.mem_flatten.mp he
      exact hxs ys hys _ hk (List.mem_map.mpr ⟨e, hey, rfl⟩)
    rw [List.flatten_cons, groups_append hapart, ih hrest, List.flatMap_cons]

/-- The groups hold every element once. -/
theorem flatMap_groups_perm (key : ε → κ) (xs : List ε) :
    ((groups key xs).flatMap Prod.snd).Perm xs := by
  have hall : ∀ (ks : List κ) (xs : List ε), ks.Nodup → (∀ e ∈ xs, key e ∈ ks) →
      (ks.flatMap fun k => xs.filter fun e => key e = k).Perm xs := by
    intro ks
    induction ks with
    | nil =>
      intro xs _ hxs
      cases xs with
      | nil => exact .nil
      | cons e xs => exact absurd (hxs e (by simp)) (by simp)
    | cons k ks ih =>
      intro xs hnodup hxs
      obtain ⟨hk, hks⟩ := List.nodup_cons.mp hnodup
      have hrest : (ks.flatMap fun k' => xs.filter fun e => key e = k') =
          ks.flatMap fun k' => (xs.filter fun e => !decide (key e = k)).filter fun e => key e = k' := by
        refine List.flatMap_congr fun k' hk' => ?_
        rw [List.filter_filter]
        refine List.filter_congr fun e _ => ?_
        have hne : k' ≠ k := fun h => hk (h ▸ hk')
        by_cases he : key e = k'
        · simp [he, hne]
        · simp [he]
      rw [List.flatMap_cons, hrest]
      refine (List.Perm.append_left _ (ih _ hks fun e he => ?_)).trans (List.filter_append_perm _ xs)
      obtain ⟨hmem, hne⟩ := List.mem_filter.mp he
      rcases List.mem_cons.mp (hxs e hmem) with h | h
      · simp [h] at hne
      · exact h
  rw [groups, List.flatMap_map]
  refine hall _ xs (nodup _) fun e he => ?_
  exact List.mem_eraseDups.mpr (List.mem_map_of_mem he)

/-- How many elements have the key. -/
def share (key : ε → κ) (k : κ) (xs : List ε) : Nat := (xs.filter fun e => key e = k).length

theorem share_append (key : ε → κ) (k : κ) (xs ys : List ε) :
    share key k (xs ++ ys) = share key k xs + share key k ys := by
  simp [share]

theorem share_pos : 0 < share key k xs ↔ k ∈ xs.map key := by
  simp [share, List.length_pos_iff_exists_mem]

theorem share_le_flatten (h : xs ∈ xss) : share key k xs ≤ share key k xss.flatten := by
  induction xss with
  | nil => cases h
  | cons ys xss ih =>
    rw [List.flatten_cons, share_append]
    rcases List.mem_cons.mp h with rfl | h
    · omega
    · have := ih h
      omega

/-- Where each key has all its elements in one of the lists, no key is in two of them. -/
theorem apart_of_share (h : ∀ k ∈ xss.flatten.map key, ∃ xs ∈ xss,
    share key k xs = share key k xss.flatten) : xss.Pairwise (Apart key) := by
  induction xss with
  | nil => exact .nil
  | cons xs xss ih =>
    have hsum : ∀ k, share key k (xs :: xss).flatten = share key k xs + share key k xss.flatten :=
      fun k => share_append key k xs xss.flatten
    have hone : ∀ k ∈ xss.flatten.map key, share key k xs = 0 ∧
        ∃ ys ∈ xss, share key k ys = share key k xss.flatten := by
      intro k hk
      have hpos := share_pos.2 hk
      have hk' : k ∈ (xs :: xss).flatten.map key := by
        rw [List.flatten_cons, List.map_append]
        exact List.mem_append_right _ hk
      obtain ⟨ys, hys, heq⟩ := h k hk'
      rw [hsum] at heq
      rcases List.mem_cons.mp hys with rfl | hys
      · omega
      · have hle : share key k ys ≤ share key k xss.flatten := share_le_flatten hys
        exact ⟨by omega, ys, hys, by omega⟩
    refine List.pairwise_cons.mpr ⟨fun ys hys k hk hk' => ?_, ih fun k hk => (hone k hk).2⟩
    have hpos := share_pos.2 hk
    have hflat : k ∈ xss.flatten.map key := by
      obtain ⟨e, he, rfl⟩ := List.mem_map.mp hk'
      exact List.mem_map.mpr ⟨e, List.mem_flatten.mpr ⟨ys, hys, he⟩, rfl⟩
    have hzero := (hone k hflat).1
    omega

/-- The groups of all lists together are groups of single lists exactly when no key is in two. -/
theorem groups_local_iff :
    (∀ g ∈ groups key xss.flatten, ∃ xs ∈ xss, g ∈ groups key xs) ↔ xss.Pairwise (Apart key) := by
  constructor
  · intro h
    refine apart_of_share fun k hk => ?_
    have hg : (k, xss.flatten.filter fun e => key e = k) ∈ groups key xss.flatten :=
      mem_groups.2 ⟨hk, rfl⟩
    obtain ⟨xs, hxs, hmem⟩ := h _ hg
    have hitems : xss.flatten.filter (fun e => key e = k) = xs.filter fun e => key e = k :=
      (mem_groups.1 hmem).2
    exact ⟨xs, hxs, by rw [share, share, hitems]⟩
  · intro h g hg
    rw [groups_flatten h] at hg
    exact List.mem_flatMap.mp hg

end FirstSeen

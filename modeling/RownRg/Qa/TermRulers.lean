import RownRg.Generation.TermConsistency
import RownRg.Qa.TermNotation

/-! The notation that a writer is told to use, under the check of the report. -/

open PyText

namespace RownRg.Terms

variable {lower : Text → Text} {entries : List Entry} {chunks : List Chunk} {e f g : Entry}
  {us : List Use} {key ko r b : Text}

theorem mem_byKey : f ∈ byKey lower entries key ↔ f ∈ entries ∧
    (f.en ≠ [] ∧ normalized lower f.en = key ∨ f.abbr ≠ [] ∧ normalized lower f.abbr = key) := by
  simp only [byKey, List.mem_flatMap, List.mem_append]
  constructor
  · rintro ⟨x, hx, h | h⟩
    · split at h
      · rename_i hname
        obtain rfl := List.mem_singleton.mp h
        exact ⟨hx, .inl hname⟩
      · cases h
    · split at h
      · rename_i hname
        obtain rfl := List.mem_singleton.mp h
        exact ⟨hx, .inr hname⟩
      · cases h
  · rintro ⟨hf, hname | hname⟩
    · exact ⟨f, hf, .inl (by simp [hname])⟩
    · exact ⟨f, hf, .inr (by simp [hname])⟩

/-- An entry is under the name by which its conflicts are found. -/
theorem byKey_of_key (hf : f ∈ entries) (hkey : pairConflictKey lower f = some key) :
    f ∈ byKey lower entries key := by
  have hp := prescribes_of_key hkey
  rw [pairConflictKey_some hp, Option.some.injEq] at hkey
  refine mem_byKey.2 ⟨hf, ?_⟩
  by_cases hen : f.en = []
  · rw [orElse, if_pos hen] at hkey
    exact .inr ⟨hp.2.resolve_left (not_not.mpr hen), hkey⟩
  · rw [orElse, if_neg hen] at hkey
    exact .inl ⟨hen, hkey⟩

theorem mem_ruler (h : f ∈ ruler lower entries key) : f ∈ byKey lower entries key ∧ f.ko ≠ [] := by
  have hcands : ∀ {x}, x ∈ (byKey lower entries key).filter (fun e => e.ko ≠ []) →
      x ∈ byKey lower entries key ∧ x.ko ≠ [] := by
    intro x hx
    exact ⟨List.mem_of_mem_filter hx, by simpa using (List.mem_filter.mp hx).2⟩
  unfold ruler at h
  dsimp only at h
  split at h
  · exact hcands (List.mem_of_mem_filter h)
  · exact hcands h

/-- The glossary is the ruler where it has the name. -/
theorem ruler_of_glossary (hg : g ∈ byKey lower entries key) (hko : g.ko ≠ []) (hgloss : g.glossary) :
    g ∈ ruler lower entries key := by
  have hmem : g ∈ ((byKey lower entries key).filter fun e => e.ko ≠ []).filter Entry.glossary :=
    List.mem_filter.mpr ⟨List.mem_filter.mpr ⟨hg, by simpa using hko⟩, hgloss⟩
  unfold ruler
  dsimp only
  rw [if_pos (List.ne_nil_of_mem hmem)]
  exact hmem

/-- An entry under a name is part of the ruler, or the glossary stands in for it. -/
theorem ruler_cases (hf : f ∈ byKey lower entries key) (hko : f.ko ≠ []) :
    f ∈ ruler lower entries key ∨ ∃ g ∈ ruler lower entries key, g.glossary := by
  have hmem : f ∈ (byKey lower entries key).filter fun e => e.ko ≠ [] :=
    List.mem_filter.mpr ⟨hf, by simpa using hko⟩
  unfold ruler
  dsimp only
  split
  · rename_i hsome
    obtain ⟨g, hg⟩ := List.exists_mem_of_ne_nil _ hsome
    exact .inr ⟨g, hg, (List.mem_filter.mp hg).2⟩
  · exact .inl hmem

/-! One notation. -/

theorem length_le_collapseStep (reps : List Variant) (x : Text × List Text) :
    reps.length ≤ (collapseStep reps x).length := by
  unfold collapseStep
  split <;> simp

theorem length_le_foldl (xs : List (Text × List Text)) (reps : List Variant) :
    reps.length ≤ (xs.foldl collapseStep reps).length := by
  induction xs generalizing reps with
  | nil => exact le_rfl
  | cons x xs ih => exact (length_le_collapseStep reps x).trans (ih _)

/-- One representative remains exactly when it stands for all that follows. -/
theorem foldl_single (xs : List (Text × List Text)) (v : Variant) :
    (xs.foldl collapseStep [v]).length ≤ 1 ↔ ∀ x ∈ xs, absorbs v.bare (bareOf x.1) := by
  induction xs generalizing v with
  | nil => simp
  | cons x xs ih =>
    rw [List.foldl_cons, List.forall_mem_cons]
    by_cases habs : absorbs v.bare (bareOf x.1)
    · have hstep : collapseStep [v] x = [{ v with refs := v.refs ++ x.2.filter (· ∉ v.refs) }] := by
        simp [collapseStep, List.findIdx?_cons, habs]
      rw [hstep, ih]
      simp [habs]
    · have hstep : collapseStep [v] x = [v, ⟨bareOf x.1, x.1, x.2⟩] := by
        simp [collapseStep, List.findIdx?_cons, habs]
      have hlen := length_le_foldl xs [v, ⟨bareOf x.1, x.1, x.2⟩]
      rw [List.length_cons, List.length_singleton] at hlen
      rw [hstep]
      simp only [habs, false_and, iff_false, Bool.false_eq_true]
      omega

theorem absorbs_of_shorter (h : absorbs r b) (hlen : b.length ≤ r.length) : r = b := by
  simp only [absorbs, Bool.or_eq_true, decide_eq_true_eq, Bool.and_eq_true] at h
  rcases h with rfl | ⟨-, hsuffix⟩
  · rfl
  · have hsub := List.isSuffixOf_iff_suffix.mp hsuffix
    exact hsub.eq_of_length (le_antisymm hsub.length_le hlen)

/-- Notations come down to one exactly when one of them stands for all. -/
theorem oneNotation_iff {kos : List Text} (hne : kos ≠ []) :
    OneNotation kos ↔ ∃ r ∈ kos, ∀ k ∈ kos, absorbs (bareOf r) (bareOf k) := by
  unfold OneNotation collapseVariants
  rw [List.length_map]
  have hperm := List.perm_insertionSort
    (fun x y : Text × List Text => (bareOf x.1).length ≤ (bareOf y.1).length) (kos.map (·, []))
  have hsorted := List.pairwise_insertionSort
    (fun x y : Text × List Text => (bareOf x.1).length ≤ (bareOf y.1).length) (kos.map (·, []))
  have hmem : ∀ x : Text × List Text, x ∈ (kos.map (·, [])).insertionSort
      (fun x y => (bareOf x.1).length ≤ (bareOf y.1).length) ↔ x.1 ∈ kos ∧ x.2 = [] := by
    intro x
    obtain ⟨k, refs⟩ := x
    rw [hperm.mem_iff]
    simp [eq_comm]
  generalize (kos.map (·, ([] : List Text))).insertionSort
    (fun x y => (bareOf x.1).length ≤ (bareOf y.1).length) = xs at hsorted hmem ⊢
  cases xs with
  | nil =>
    obtain ⟨k, hk⟩ := List.exists_mem_of_ne_nil _ hne
    exact absurd ((hmem (k, [])).mpr ⟨hk, rfl⟩) (List.not_mem_nil)
  | cons x xs =>
    obtain ⟨hx, -⟩ := (hmem x).mp List.mem_cons_self
    have hfirst : ∀ k ∈ kos, k = x.1 ∨ ∃ y ∈ xs, y.1 = k := by
      intro k hk
      rcases List.mem_cons.mp ((hmem (k, [])).mpr ⟨hk, rfl⟩) with heq | hin
      · exact .inl (congrArg Prod.fst heq)
      · exact .inr ⟨_, hin, rfl⟩
    have hshort := (List.pairwise_cons.mp hsorted).1
    have hstep : collapseStep [] x = [⟨bareOf x.1, x.1, x.2⟩] := rfl
    rw [List.foldl_cons, hstep, foldl_single]
    constructor
    · intro hall
      refine ⟨x.1, hx, fun k hk => ?_⟩
      rcases hfirst k hk with rfl | ⟨y, hy, rfl⟩
      · exact absorbs_refl _
      · exact hall y hy
    · rintro ⟨r, hr, hall⟩
      -- what stands for the shortest notation is the shortest notation
      have hlen : (bareOf x.1).length ≤ (bareOf r).length := by
        rcases hfirst r hr with rfl | ⟨y, hy, rfl⟩
        · exact le_rfl
        · exact hshort y hy
      have hbare := absorbs_of_shorter (hall x.1 hx) hlen
      intro y hy
      rw [← hbare]
      exact hall y.1 ((hmem y).mp (List.mem_cons_of_mem _ hy)).1

/-- One of the notations of the table stands for all of them. -/
def OneRuler (cands : List Entry) : Prop :=
  ∃ f ∈ cands, ∀ g ∈ cands, absorbs (bareOf (strip f.ko)) (bareOf (strip g.ko))

theorem oneNotation_tableKos {cands : List Entry} (hne : cands ≠ []) :
    OneNotation (tableKos cands) ↔ OneRuler cands := by
  have hmem : ∀ k, k ∈ tableKos cands ↔ ∃ f ∈ cands, strip f.ko = k := by
    intro k
    rw [tableKos, List.mem_eraseDups, List.mem_map]
  obtain ⟨f, hf⟩ := List.exists_mem_of_ne_nil _ hne
  rw [oneNotation_iff (List.ne_nil_of_mem ((hmem _).mpr ⟨f, hf, rfl⟩))]
  constructor
  · rintro ⟨r, hr, hall⟩
    obtain ⟨f, hf, rfl⟩ := (hmem r).mp hr
    exact ⟨f, hf, fun g hg => hall _ ((hmem _).mpr ⟨g, hg, rfl⟩)⟩
  · rintro ⟨f, hf, hall⟩
    refine ⟨strip f.ko, (hmem _).mpr ⟨f, hf, rfl⟩, fun k hk => ?_⟩
    obtain ⟨g, hg, rfl⟩ := (hmem k).mp hk
    exact hall g hg

/-- Whether a notation is one of the table's, up to blanks and what stands before it. -/
def InTable (cands : List Entry) (ko : Text) : Prop :=
  ∃ f ∈ cands, absorbs (bareOf (strip f.ko)) (bareOf ko)

theorem keyFindings_nil_iff (h : ruler lower entries key ≠ []) :
    keyFindings lower us entries key = [] ↔ OneRuler (ruler lower entries key) ∧
      ∀ ko ∈ kosOf us key, InTable (ruler lower entries key) ko := by
  rw [← oneNotation_tableKos h, keyFindings]
  dsimp only
  rw [if_neg h]
  by_cases hone : OneNotation (tableKos (ruler lower entries key))
  · rw [if_neg (not_not.mpr hone), List.map_eq_nil_iff, List.filter_eq_nil_iff]
    simp only [hone, true_and]
    refine forall₂_congr fun ko _ => ?_
    simp [InTable, tableKos]
  · rw [if_pos hone]
    simp [hone]

theorem tableFindings_key {sections : List Section} :
    (∀ x ∈ tableFindings lower sections entries, x.1 ≠ key) ↔
      key ∉ keysOf (uses lower sections) ∨
        keyFindings lower (uses lower sections) entries key = [] := by
  constructor
  · intro h
    by_contra hno
    obtain ⟨hkey, hsome⟩ := not_or.mp hno
    obtain ⟨x, hx⟩ := List.exists_mem_of_ne_nil _ hsome
    refine h (key, x) (List.mem_flatMap.mpr ⟨key, not_not.mp hkey, ?_⟩) rfl
    exact List.mem_map_of_mem hx
  · rintro h x hx rfl
    obtain ⟨k, hk, hmem⟩ := List.mem_flatMap.mp hx
    obtain ⟨y, hy, rfl⟩ := List.mem_map.mp hmem
    rcases h with h | h
    · exact h hk
    · rw [h] at hy
      cases hy

theorem mem_keysOf : key ∈ keysOf us ↔ kosOf us key ≠ [] := by
  rw [keysOf, List.mem_eraseDups, List.mem_map, Ne, kosOf]
  constructor
  · rintro ⟨u, hu, rfl⟩ hnil
    have hmem : u.ko ∈ ((us.filter fun v => v.key = u.key).map Use.ko).eraseDups :=
      List.mem_eraseDups.mpr (List.mem_map_of_mem (List.mem_filter.mpr ⟨hu, by simp⟩))
    rw [hnil] at hmem
    cases hmem
  · intro hne
    obtain ⟨ko, hko⟩ := List.exists_mem_of_ne_nil _ hne
    obtain ⟨u, hu, -⟩ := List.mem_map.mp (List.mem_eraseDups.mp hko)
    obtain ⟨hu, hkey⟩ := List.mem_filter.mp hu
    exact ⟨u, hu, by simpa using hkey⟩

/-- What is reported for the first form, by what is read from it and the table's notations. -/
theorem silent_iff (he : e ∈ entries) (hkey : pairConflictKey lower e = some key) :
    Silent lower entries e ↔ readBack lower e key = [] ∨
      (OneRuler (ruler lower entries key) ∧
        ∀ ko ∈ readBack lower e key, InTable (ruler lower entries key) ko) := by
  have hp := prescribes_of_key hkey
  have hruler : ruler lower entries key ≠ [] := by
    rcases ruler_cases (byKey_of_key he hkey) hp.1 with h | ⟨g, h, -⟩
    · exact List.ne_nil_of_mem h
    · exact List.ne_nil_of_mem h
  have hplace : ∀ chapter ref,
      (∀ x ∈ tableFindings lower [⟨chapter, ref, firstForm e⟩] entries,
        pairConflictKey lower e ≠ some x.1) ↔ readBack lower e key = [] ∨
      (OneRuler (ruler lower entries key) ∧
        ∀ ko ∈ readBack lower e key, InTable (ruler lower entries key) ko) := by
    intro chapter ref
    have hnames : (∀ x ∈ tableFindings lower [⟨chapter, ref, firstForm e⟩] entries,
        pairConflictKey lower e ≠ some x.1) ↔
        ∀ x ∈ tableFindings lower [⟨chapter, ref, firstForm e⟩] entries, x.1 ≠ key := by
      refine forall₂_congr fun x _ => ?_
      rw [hkey, Ne, Option.some.injEq, eq_comm]
    rw [hnames, tableFindings_key, mem_keysOf, keyFindings_nil_iff hruler, kosOf_form, not_not]
  constructor
  · exact fun h => (hplace 0 []).mp (h 0 [])
  · exact fun h chapter ref => (hplace chapter ref).mpr h

/-- No glossary entry has the name as the short form of another English name. -/
def OwnName (lower : Text → Text) (entries : List Entry) (key : Text) : Prop :=
  ∀ g ∈ byKey lower entries key, g.glossary → g.ko ≠ [] → pairConflictKey lower g = some key

/-- A commanded notation is one of the table's. -/
theorem inTable_of_given (hg : Given lower entries chunks e) (hkey : pairConflictKey lower e = some key)
    (hown : OwnName lower entries key) (hsolid : ∀ f ∈ entries, strip f.ko = f.ko) :
    InTable (ruler lower entries key) e.ko := by
  have hp := prescribes_of_key hkey
  obtain ⟨hhit, hk⟩ := kept_of_given hg hp
  have he := mem_of_hits hhit
  have hself : ∀ f ∈ entries, f ∈ ruler lower entries key → f.bare = e.bare →
      InTable (ruler lower entries key) e.ko := by
    intro f hf hmem hbare
    refine ⟨f, hmem, ?_⟩
    rw [hsolid f hf]
    change absorbs f.bare e.bare
    rw [hbare]
    exact absorbs_refl _
  rcases ruler_cases (byKey_of_key he hkey) hp.1 with hmem | ⟨g, hgmem, hgloss⟩
  · exact hself e he hmem rfl
  · -- the glossary stands in for the entry, so the entry keeps the notation of the glossary
    obtain ⟨hgkey, hgko⟩ := mem_ruler hgmem
    have hgconflict := hown g hgkey hgloss hgko
    cases heg : e.glossary with
    | true => exact hself e he (ruler_of_glossary (byKey_of_key he hkey) hp.1 heg) rfl
    | false =>
      obtain ⟨first, hfirst⟩ : ∃ first, entries.find? (fun f =>
          f.glossary && pairConflictKey lower f = some key) = some first := by
        refine Option.isSome_iff_exists.mp (List.find?_isSome.mpr ⟨g, (mem_byKey.1 hgkey).1, ?_⟩)
        simp [hgloss, hgconflict]
      have hfmem := List.mem_of_find?_eq_some hfirst
      obtain ⟨hfgloss, hfkey⟩ : first.glossary ∧ pairConflictKey lower first = some key := by
        simpa using List.find?_some hfirst
      have hbare : e.bare = first.bare := by
        rw [keeps, heg, if_neg (by simp), hkey] at hk
        dsimp only at hk
        rw [glossaryKo, hfirst, Option.map_some] at hk
        exact of_decide_eq_true hk
      exact hself first hfmem (ruler_of_glossary (byKey_of_key hfmem hfkey)
        (prescribes_of_key hfkey).1 hfgloss) hbare.symm

def namedTerm (ko source : String) : Entry :=
  ⟨ko.toList, "Energy Attribute Certificate".toList, "EAC".toList, [], source.toList, source.toList,
    false⟩

def votedTerms : List Entry :=
  [namedTerm "에너지속성인증서" "A", namedTerm "에너지속성인증서" "B", namedTerm "전력거래증서" "C"]

end RownRg.Terms

import RownRg.Generation.TermRules

/-! What the rules for terms say together. -/

open PyText

namespace RownRg.Terms

variable {lower : Text → Text} {entries : List Entry} {chunks : List Chunk} {e f g : Entry}
  {votes bares : List Text} {b b' r key : Text}

/-! Representatives. -/

/-- What the loop over the notations has at hand: a representative for each of them. -/
structure Represents (st : List Text × List (Text × Text)) (done : List Text) : Prop where
  keys : st.2.map Prod.fst = done
  reps : ∀ r ∈ st.1, r ∈ done
  absorbed : ∀ x ∈ st.2, x.2 ∈ st.1 ∧ absorbs x.2 x.1

theorem represents_step {st : List Text × List (Text × Text)} {done : List Text}
    (h : Represents st done) (b : Text) : Represents (absorbStep st b) (done ++ [b]) := by
  unfold absorbStep
  cases hfind : st.1.find? (absorbs · b) with
  | some rep =>
    refine ⟨by simp [h.keys], fun r hr => List.mem_append_left _ (h.reps r hr), ?_⟩
    intro x hx
    rcases List.mem_append.mp hx with hx | hx
    · exact h.absorbed x hx
    · obtain rfl := List.mem_singleton.mp hx
      exact ⟨List.mem_of_find?_eq_some hfind, List.find?_some (p := (absorbs · b)) hfind⟩
  | none =>
    refine ⟨by simp [h.keys], fun r hr => ?_, ?_⟩
    · rcases List.mem_append.mp hr with hr | hr
      · exact List.mem_append_left _ (h.reps r hr)
      · exact List.mem_append_right _ hr
    · intro x hx
      rcases List.mem_append.mp hx with hx | hx
      · exact ⟨List.mem_append_left _ (h.absorbed x hx).1, (h.absorbed x hx).2⟩
      · obtain rfl := List.mem_singleton.mp hx
        exact ⟨List.mem_append_right _ (List.mem_singleton.mpr rfl), by simp [absorbs]⟩

theorem represents_foldl {st : List Text × List (Text × Text)} {done : List Text}
    (h : Represents st done) (bares : List Text) :
    Represents (bares.foldl absorbStep st) (done ++ bares) := by
  induction bares generalizing st done with
  | nil => simpa using h
  | cons b bares ih =>
    have hmore := ih (represents_step h b)
    rwa [List.append_assoc, List.singleton_append] at hmore

theorem mem_byLength : b ∈ byLength bares ↔ b ∈ bares := (List.perm_insertionSort _ _).mem_iff

theorem exists_repOf (h : b ∈ votes) :
    ∃ r ∈ votes, repOf (absorbBares votes) b = some r ∧ absorbs r b := by
  have hstart : Represents ([], []) [] := ⟨rfl, by simp, by simp⟩
  have hrep := represents_foldl hstart (byLength votes.eraseDups)
  have hdone : ∀ c, c ∈ [] ++ byLength votes.eraseDups ↔ c ∈ votes := by
    simp [mem_byLength]
  obtain ⟨x, hx, rfl⟩ : ∃ x ∈ absorbBares votes, x.1 = b := by
    rw [← List.mem_map, absorbBares, hrep.keys, hdone]
    exact h
  obtain ⟨y, hy⟩ : ∃ y, (absorbBares votes).find? (fun y => y.1 = x.1) = some y :=
    Option.isSome_iff_exists.mp (List.find?_isSome.mpr ⟨x, hx, decide_eq_true rfl⟩)
  have hkey : y.1 = x.1 := by simpa using List.find?_some hy
  obtain ⟨hmem, habsorbs⟩ := hrep.absorbed y (List.mem_of_find?_eq_some hy)
  rw [hkey] at habsorbs
  exact ⟨y.2, (hdone _).mp (hrep.reps _ hmem), by rw [repOf, hy]; rfl, habsorbs⟩

/-- Where the notations are not in conflict they have one representative. -/
theorem repOf_eq (h : (merged votes).length < 2) (hb : b ∈ votes) (hb' : b' ∈ votes) :
    repOf (absorbBares votes) b = repOf (absorbBares votes) b' := by
  obtain ⟨r, -, hr, -⟩ := exists_repOf hb
  obtain ⟨r', -, hr', -⟩ := exists_repOf hb'
  rw [hr, hr', Option.some.injEq]
  by_contra hne
  have hmem : ∀ {c s}, c ∈ votes → repOf (absorbBares votes) c = some s →
      s ∈ votes.filterMap (repOf (absorbBares votes)) :=
    fun hc hs => List.mem_filterMap.mpr ⟨_, hc, hs⟩
  have htwo := FirstSeen.one_lt_length.mpr ⟨r, hmem hb hr, r', hmem hb' hr', hne⟩
  rw [merged, List.length_map, beq_text] at h
  omega

/-! One term and one notation. -/

/-- Two entries of one term: one English name, up to blanks and case, or one abbreviation. -/
def SameTerm (lower : Text → Text) (e f : Entry) : Prop :=
  (e.en ≠ [] ∧ f.en ≠ [] ∧ normalized lower e.en = normalized lower f.en) ∨
    (e.abbr ≠ [] ∧ e.abbr = f.abbr)

/-- Two notations that one notation of their term stands for. -/
def SameNotation (lower : Text → Text) (entries : List Entry) (e f : Entry) : Prop :=
  ∃ r ∈ entries, (pairConflictKey lower r = pairConflictKey lower e ∨
      pairConflictKey lower r = pairConflictKey lower f) ∧
    absorbs r.bare e.bare ∧ absorbs r.bare f.bare

/-- A line that forbids a Korean notation. -/
def Entry.Forbids (e : Entry) : Prop := e.ko = [] ∧ e.en ≠ [] ∧ e.abbr ≠ []

theorem SameTerm.symm (h : SameTerm lower e f) : SameTerm lower f e := by
  rcases h with ⟨he, hf, hen⟩ | ⟨he, habbr⟩
  · exact .inl ⟨hf, he, hen.symm⟩
  · exact .inr ⟨habbr ▸ he, habbr.symm⟩

theorem SameNotation.symm (h : SameNotation lower entries e f) : SameNotation lower entries f e := by
  obtain ⟨r, hr, hkey, he, hf⟩ := h
  exact ⟨r, hr, hkey.symm, hf, he⟩

theorem absorbs_refl (b : Text) : absorbs b b := by simp [absorbs]

theorem pairConflictKey_some (h : e.Prescribes) :
    pairConflictKey lower e = some (normalized lower (orElse e.en e.abbr)) := if_pos h

theorem prescribes_of_key (h : pairConflictKey lower e = some key) : e.Prescribes := by
  by_contra hno
  rw [pairConflictKey, if_neg hno] at h
  cases h

/-- Two mined entries under one name keep one notation. -/
theorem sameNotation_of_mined (he : e ∈ entries) (hf : f ∈ entries) (hemined : e.glossary = false)
    (hfmined : f.glossary = false) (hekey : pairConflictKey lower e = some key)
    (hfkey : pairConflictKey lower f = some key) (hek : keeps lower entries e)
    (hfk : keeps lower entries f) : SameNotation lower entries e f := by
  have hvote : ∀ {x : Entry}, x ∈ entries → x.glossary = false → pairConflictKey lower x = some key →
      x.bare ∈ votesFor lower (mined entries) key := by
    intro x hx hxmined hxkey
    refine List.mem_map_of_mem (List.mem_filter.mpr ⟨List.mem_filter.mpr ⟨hx, ?_⟩, ?_⟩)
    · rw [hxmined]
      rfl
    · exact decide_eq_true hxkey
  have hevote := hvote he hemined hekey
  have hfvote := hvote hf hfmined hfkey
  have hsame : repOf (absorbBares (votesFor lower (mined entries) key)) e.bare =
      repOf (absorbBares (votesFor lower (mined entries) key)) f.bare → SameNotation lower entries e f := by
    intro hrep
    obtain ⟨r, hr, hre, habs⟩ := exists_repOf hevote
    obtain ⟨r', -, hrf, habs'⟩ := exists_repOf hfvote
    obtain rfl : r = r' := Option.some.inj (hre.symm.trans (hrep.trans hrf))
    obtain ⟨x, hx, rfl⟩ := List.mem_map.mp hr
    obtain ⟨hxmem, hxkey⟩ := List.mem_filter.mp hx
    exact ⟨x, (List.mem_filter.mp hxmem).1, .inl ((of_decide_eq_true hxkey).trans hekey.symm),
      habs, habs'⟩
  rw [keeps, hemined, if_neg (by simp), hekey] at hek
  rw [keeps, hfmined, if_neg (by simp), hfkey] at hfk
  dsimp only at hek hfk
  cases hgloss : glossaryKo lower entries key with
  | some ko =>
    rw [hgloss] at hek hfk
    have heko : e.bare = ko := of_decide_eq_true hek
    have hfko : f.bare = ko := of_decide_eq_true hfk
    refine ⟨e, he, .inl rfl, absorbs_refl _, ?_⟩
    rw [heko, hfko]
    exact absorbs_refl _
  | none =>
    rw [hgloss] at hek hfk
    unfold pairConflicts at hek hfk
    by_cases hfew : (merged (votesFor lower (mined entries) key)).length < 2
    · exact hsame (repOf_eq hfew hevote hfvote)
    · rw [if_neg hfew] at hek hfk
      dsimp only at hek hfk
      rw [Bool.and_eq_true, decide_eq_true_eq] at hek hfk
      exact hsame (hek.2.trans hfk.2.symm)

/-! The lines. -/

theorem getLast?_joinWith (sep : Text) {c : Text} (hc : c ≠ []) (cs : List Text) :
    (joinWith sep (cs ++ [c])).getLast? = c.getLast? := by
  induction cs with
  | nil => simp [joinWith]
  | cons d cs ih =>
    obtain ⟨x, xs, hx⟩ : ∃ x xs, cs ++ [c] = x :: xs :=
      List.exists_cons_of_ne_nil (by simp)
    have hne : joinWith sep (cs ++ [c]) ≠ [] := by
      intro hnil
      rw [hnil] at ih
      exact hc (List.getLast?_eq_none_iff.mp ih.symm)
    have hjoin : joinWith sep (d :: cs ++ [c]) = d ++ sep ++ joinWith sep (cs ++ [c]) := by
      rw [List.cons_append, hx]
      simp [joinWith, List.intercalate]
    rw [hjoin, List.getLast?_append_of_ne_nil _ hne, ih]

/-- A line ends with its clause on notations, if there is one. -/
theorem getLast?_line (h : pairClause e ≠ []) : (line e).getLast? = (pairClause e).getLast? := by
  have hjoin := getLast?_joinWith " · ".toList h (if e.definition ≠ [] then [definitionClause e] else [])
  have hne : joinWith " · ".toList (clauses e) ≠ [] := by
    intro hnil
    rw [clauses, if_pos h] at hnil
    rw [hnil] at hjoin
    exact h (List.getLast?_eq_none_iff.mp hjoin.symm)
  rw [line, List.getLast?_append_of_ne_nil _ hne, clauses, if_pos h]
  exact hjoin

theorem directs_of_pairClause (h : ∃ init, pairClause e = init ++ ['"']) : directs e := by
  obtain ⟨init, h⟩ := h
  have hlast : (line e).getLast? = some '"' := by
    rw [getLast?_line (by simp [h]), h]
    simp
  have hno : ∀ {w : Text}, w ≠ [] → w.getLast? ≠ some '"' → w.isSuffixOf (line e) = false := by
    intro w hw hne
    by_contra hsuffix
    obtain ⟨pre, hpre⟩ := List.isSuffixOf_iff_suffix.mp (Bool.eq_true_of_not_eq_false hsuffix)
    rw [← hpre, List.getLast?_append_of_ne_nil _ hw] at hlast
    exact hne hlast
  rw [directs, hno (by decide) (by decide), hno (by decide) (by decide)]
  rfl

theorem directs_of_prescribes (h : e.Prescribes) : directs e := directs_of_pairClause ⟨_, if_pos h⟩

theorem directs_of_forbids (h : e.Forbids) : directs e := by
  have hno : ¬ e.Prescribes := fun hp => hp.1 h.1
  exact directs_of_pairClause ⟨_, (if_neg hno).trans (if_pos h.2)⟩

/-! What is given to the writer. -/

/-- The line of an adjusted entry is in the block. -/
def Given (lower : Text → Text) (entries : List Entry) (chunks : List Chunk) (e : Entry) : Prop :=
  e ∈ adjusted lower entries chunks ∧ line e ∈ injectedLines lower entries chunks

/-- No two lines command different notations of a term, no line forbids a notation that another
line or the glossary prescribes, and the notations of the glossary are commanded. -/
structure Consistent (lower : Text → Text) (entries : List Entry) (chunks : List Chunk) : Prop where
  one : ∀ e f, Given lower entries chunks e → Given lower entries chunks f → e.Prescribes →
    f.Prescribes → SameTerm lower e f → SameNotation lower entries e f
  free : ∀ e f, Given lower entries chunks e → e.Forbids → f.Prescribes → SameTerm lower e f →
    ¬ (Given lower entries chunks f ∨ f ∈ entries ∧ f.glossary)
  confirmed : ∀ g ∈ hits lower entries chunks, g.glossary → g.Prescribes →
    Given lower entries chunks g

/-- An entry with both foreign names and no notation of its own, or with one that is taken away
from its definition. -/
def Mute (lower : Text → Text) (entries : List Entry) (e : Entry) : Prop :=
  e.en ≠ [] ∧ e.abbr ≠ [] ∧ (e.ko = [] ∨ e.definition ≠ [] ∧ keeps lower entries e = false)

/-- The entries that appear do not meet outside the key by which conflicts are found. -/
structure Coherent (lower : Text → Text) (entries : List Entry) (chunks : List Chunk) : Prop where
  names : ∀ e ∈ hits lower entries chunks, ∀ f ∈ hits lower entries chunks, e.Prescribes →
    f.Prescribes → keeps lower entries e → keeps lower entries f → SameTerm lower e f →
    (e.glossary ∨ pairConflictKey lower e ≠ pairConflictKey lower f) →
    SameNotation lower entries e f
  mute : ∀ e ∈ hits lower entries chunks, Mute lower entries e → ∀ f ∈ entries, f.Prescribes →
    SameTerm lower e f → f.glossary = false ∧
      (f ∈ hits lower entries chunks → keeps lower entries f = false)
  room : (((hits lower entries chunks).filter Entry.glossary).map line).eraseDups.length ≤ maxInjected

theorem mem_of_hits (h : e ∈ hits lower entries chunks) : e ∈ entries := by
  unfold hits at h
  split at h
  · cases h
  · exact (List.mem_filter.mp h).1

theorem mem_adjusted (h : e ∈ adjusted lower entries chunks) :
    ∃ x ∈ hits lower entries chunks, (keeps lower entries x ∧ e = x) ∨
      (keeps lower entries x = false ∧ x.definition ≠ [] ∧ e = x.muted) := by
  obtain ⟨x, hx, hadjust⟩ := List.mem_filterMap.mp h
  refine ⟨x, hx, ?_⟩
  unfold adjust at hadjust
  split at hadjust
  · rename_i hkeeps
    exact .inl ⟨hkeeps, (Option.some.inj hadjust).symm⟩
  · rename_i hkeeps
    split at hadjust
    · rename_i hdef
      exact .inr ⟨Bool.eq_false_of_not_eq_true hkeeps, hdef, (Option.some.inj hadjust).symm⟩
    · cases hadjust

theorem adjusted_of_keeps (h : e ∈ hits lower entries chunks) (hk : keeps lower entries e) :
    e ∈ adjusted lower entries chunks :=
  List.mem_filterMap.mpr ⟨e, h, if_pos hk⟩

theorem adjusted_of_muted (h : e ∈ hits lower entries chunks) (hk : keeps lower entries e = false)
    (hdef : e.definition ≠ []) : e.muted ∈ adjusted lower entries chunks := by
  refine List.mem_filterMap.mpr ⟨e, h, ?_⟩
  rw [adjust, if_neg (by simp [hk]), if_pos hdef]

/-- A given notation is that of an entry that appears and keeps it. -/
theorem kept_of_given (h : Given lower entries chunks e) (hp : e.Prescribes) :
    e ∈ hits lower entries chunks ∧ keeps lower entries e := by
  obtain ⟨x, hx, ⟨hk, rfl⟩ | ⟨-, -, rfl⟩⟩ := mem_adjusted h.1
  · exact ⟨hx, hk⟩
  · exact absurd rfl hp.1

/-- A line that forbids a notation comes from a mute entry. -/
theorem mute_of_given (h : Given lower entries chunks e) (hf : e.Forbids) :
    ∃ x ∈ hits lower entries chunks, Mute lower entries x ∧
      ∀ f, SameTerm lower e f → SameTerm lower x f := by
  obtain ⟨x, hx, ⟨hk, rfl⟩ | ⟨hk, hdef, rfl⟩⟩ := mem_adjusted h.1
  · exact ⟨_, hx, ⟨hf.2.1, hf.2.2, .inl hf.1⟩, fun _ => id⟩
  · exact ⟨x, hx, ⟨hf.2.1, hf.2.2, .inr ⟨hdef, hk⟩⟩, fun _ => id⟩

theorem keeps_glossary (h : e.glossary) : keeps lower entries e := by
  rw [keeps, if_pos h]

/-! The order of the lines. -/

theorem mem_ranked : e ∈ ranked lower entries chunks ↔ e ∈ adjusted lower entries chunks :=
  (List.perm_insertionSort _ _).mem_iff

theorem pushNew_lines (es : List Entry) (h : e ∈ es) :
    line e ∈ (FirstSeen.pushNew line es []).map line := by
  obtain ⟨fresh, heq, -, -, -, hall⟩ := FirstSeen.pushNew_spec line es []
  rw [heq]
  exact hall e h

theorem length_pushNew_le {es : List Entry} {ls : List Text} (h : ∀ e ∈ es, line e ∈ ls) :
    (FirstSeen.pushNew line es []).length ≤ ls.eraseDups.length := by
  obtain ⟨fresh, heq, hsub, hnodup, -, -⟩ := FirstSeen.pushNew_spec line es []
  rw [List.nil_append] at heq
  have hsubset : fresh.map line ⊆ ls.eraseDups := by
    intro l hl
    obtain ⟨e, he, rfl⟩ := List.mem_map.mp hl
    exact List.mem_eraseDups.mpr (h e (hsub.mem he))
  have hle := (List.subperm_of_subset hnodup hsubset).length_le
  rwa [List.length_map, ← heq] at hle

/-- A list in the order of the ranks begins with the glossary. -/
theorem glossary_first (sources : List Text) {es : List Entry}
    (h : es.Pairwise fun e f => rank sources e ≤ rank sources f) :
    es = es.filter Entry.glossary ++ es.filter fun e => !e.glossary := by
  induction es with
  | nil => rfl
  | cons e es ih =>
    obtain ⟨hfirst, hrest⟩ := List.pairwise_cons.mp h
    cases hg : e.glossary with
    | true => rw [List.filter_cons_of_pos hg, List.filter_cons_of_neg (by simp [hg]),
        List.cons_append, ← ih hrest]
    | false =>
      have hnone : es.filter Entry.glossary = [] := by
        rw [List.filter_eq_nil_iff]
        intro f hf hfg
        have hle := hfirst f hf
        have hlow : rank sources f = -1 := if_pos hfg
        have hhigh : 0 ≤ rank sources e := by
          rw [rank, if_neg (by simp [hg])]
          split
          · split <;> decide
          · split <;> decide
        omega
      have hall := ih hrest
      rw [hnone, List.nil_append] at hall
      rw [List.filter_cons_of_neg (by simp [hg]), hnone, List.nil_append,
        List.filter_cons_of_pos (by simp [hg]), ← hall]

theorem length_ranked_le : (ranked lower entries chunks).length ≤ (hits lower entries chunks).length :=
  (List.perm_insertionSort _ (adjusted lower entries chunks)).length_eq.trans_le
    (List.length_filterMap_le _ _)

/-- Where few entries appear, each one that says something gets its line. -/
theorem given_of_few (hfew : (hits lower entries chunks).length ≤ maxInjected)
    (h : e ∈ adjusted lower entries chunks) (hd : directs e) : Given lower entries chunks e := by
  refine ⟨h, ?_⟩
  have hmem : e ∈ (ranked lower entries chunks).filter directs :=
    List.mem_filter.mpr ⟨mem_ranked.2 h, hd⟩
  have hlines : ∀ x ∈ (ranked lower entries chunks).filter directs,
      line x ∈ (ranked lower entries chunks).map line :=
    fun x hx => List.mem_map_of_mem (List.mem_of_mem_filter hx)
  have hlen := length_pushNew_le hlines
  have hdups := (FirstSeen.sublist ((ranked lower entries chunks).map line)).length_le
  have hranked : (ranked lower entries chunks).length ≤ _ := length_ranked_le
  rw [List.length_map] at hdups
  rw [injectedLines, injected, List.take_of_length_le (by rw [beq_text] at hlen; omega)]
  exact pushNew_lines _ hmem

/-- The glossary comes first. -/
theorem given_of_glossary
    (hroom : (((hits lower entries chunks).filter Entry.glossary).map line).eraseDups.length ≤
      maxInjected) (h : g ∈ hits lower entries chunks) (hg : g.glossary) (hd : directs g) :
    Given lower entries chunks g := by
  have hadj := adjusted_of_keeps h (keeps_glossary hg)
  refine ⟨hadj, ?_⟩
  have hsorted := List.pairwise_insertionSort
    (fun e f => rank ((citable chunks).map Chunk.sourceId) e ≤
      rank ((citable chunks).map Chunk.sourceId) f) (adjusted lower entries chunks)
  have hfirst := glossary_first _ (hsorted.filter directs)
  have hmem : g ∈ ((ranked lower entries chunks).filter directs).filter Entry.glossary :=
    List.mem_filter.mpr ⟨List.mem_filter.mpr ⟨mem_ranked.2 hadj, hd⟩, hg⟩
  have hlines : ∀ x ∈ ((ranked lower entries chunks).filter directs).filter Entry.glossary,
      line x ∈ ((hits lower entries chunks).filter Entry.glossary).map line := by
    intro x hx
    obtain ⟨hx, hxg⟩ := List.mem_filter.mp hx
    obtain ⟨y, hy, ⟨-, rfl⟩ | ⟨hk, -, rfl⟩⟩ := mem_adjusted (mem_ranked.1 (List.mem_of_mem_filter hx))
    · exact List.mem_map_of_mem (List.mem_filter.mpr ⟨hy, hxg⟩)
    · rw [keeps_glossary (show y.glossary from hxg)] at hk
      cases hk
  have hlen := length_pushNew_le hlines
  obtain ⟨fresh, heq, -⟩ := FirstSeen.pushNew_spec line
    (((ranked lower entries chunks).filter directs).filter fun e => !e.glossary)
    (FirstSeen.pushNew line (((ranked lower entries chunks).filter directs).filter Entry.glossary) [])
  have hpush : FirstSeen.pushNew line ((ranked lower entries chunks).filter directs) [] = _ :=
    (congrArg (FirstSeen.pushNew line · []) hfirst).trans (FirstSeen.pushNew_append.trans heq)
  rw [injectedLines, injected, hpush, List.take_append, List.take_of_length_le (by omega),
    List.map_append]
  exact List.mem_append_left _ (pushNew_lines _ hmem)

/-- The lines are consistent where the entries that appear do not meet outside the key by which
conflicts are found. -/
theorem consistent_of_coherent (h : Coherent lower entries chunks) :
    Consistent lower entries chunks := by
  refine ⟨fun e f he hf hep hfp hterm => ?_, fun e f he hforbids hfp hterm => ?_,
    fun g hg hgloss hgp => given_of_glossary h.room hg hgloss (directs_of_prescribes hgp)⟩
  · obtain ⟨hehit, hek⟩ := kept_of_given he hep
    obtain ⟨hfhit, hfk⟩ := kept_of_given hf hfp
    cases heg : e.glossary with
    | true => exact h.names e hehit f hfhit hep hfp hek hfk hterm (.inl heg)
    | false =>
      cases hfg : f.glossary with
      | true => exact (h.names f hfhit e hehit hfp hep hfk hek hterm.symm (.inl hfg)).symm
      | false =>
        by_cases hkey : pairConflictKey lower e = pairConflictKey lower f
        · exact sameNotation_of_mined (mem_of_hits hehit) (mem_of_hits hfhit) heg hfg
            (pairConflictKey_some hep) (hkey ▸ pairConflictKey_some hep) hek hfk
        · exact h.names e hehit f hfhit hep hfp hek hfk hterm (.inr hkey)
  · obtain ⟨x, hx, hmute, hmore⟩ := mute_of_given he hforbids
    rintro (hf | ⟨hf, hfg⟩)
    · obtain ⟨hfhit, hfk⟩ := kept_of_given hf hfp
      obtain ⟨-, hno⟩ := h.mute x hx hmute f (mem_of_hits hfhit) hfp (hmore f hterm)
      rw [hno hfhit] at hfk
      cases hfk
    · obtain ⟨hno, -⟩ := h.mute x hx hmute f hf hfp (hmore f hterm)
      rw [hno] at hfg
      cases hfg

/-- A mute entry that appears has its line among few. -/
theorem given_of_mute (hfew : (hits lower entries chunks).length ≤ maxInjected)
    (h : e ∈ hits lower entries chunks) (hm : Mute lower entries e) :
    ∃ x, Given lower entries chunks x ∧ x.Forbids ∧ ∀ f, SameTerm lower e f → SameTerm lower x f := by
  obtain ⟨hen, habbr, hko⟩ := hm
  cases hk : keeps lower entries e with
  | true =>
    have hforbids : e.Forbids := by
      refine ⟨?_, hen, habbr⟩
      rcases hko with hko | ⟨-, hno⟩
      · exact hko
      · rw [hk] at hno
        cases hno
    exact ⟨e, given_of_few hfew (adjusted_of_keeps h hk) (directs_of_forbids hforbids), hforbids,
      fun _ => id⟩
  | false =>
    have hdef : e.definition ≠ [] := by
      rcases hko with hko | ⟨hdef, -⟩
      · -- an entry without a notation of its own is left as it is
        have hno : ¬ e.Prescribes := fun hp => hp.1 hko
        rw [keeps, pairConflictKey, if_neg hno] at hk
        split at hk <;> cases hk
      · exact hdef
    have hforbids : e.muted.Forbids := ⟨rfl, hen, habbr⟩
    exact ⟨e.muted, given_of_few hfew (adjusted_of_muted h hk hdef) (directs_of_forbids hforbids),
      hforbids, fun _ => id⟩

theorem coherent_of_consistent (hfew : (hits lower entries chunks).length ≤ maxInjected)
    (h : Consistent lower entries chunks) : Coherent lower entries chunks := by
  have hgiven : ∀ e ∈ hits lower entries chunks, e.Prescribes → keeps lower entries e →
      Given lower entries chunks e := fun e he hp hk =>
    given_of_few hfew (adjusted_of_keeps he hk) (directs_of_prescribes hp)
  refine ⟨fun e he f hf hep hfp hek hfk hterm _ =>
    h.one e f (hgiven e he hep hek) (hgiven f hf hfp hfk) hep hfp hterm, fun e he hm f hf hfp hterm => ?_, ?_⟩
  · obtain ⟨x, hx, hforbids, hmore⟩ := given_of_mute hfew he hm
    have hno := h.free x f hx hforbids hfp (hmore f hterm)
    refine ⟨Bool.eq_false_of_not_eq_true fun hfg => hno (.inr ⟨hf, hfg⟩), fun hfhit => ?_⟩
    exact Bool.eq_false_of_not_eq_true fun hfk => hno (.inl (hgiven f hfhit hfp hfk))
  · have hdups := (FirstSeen.sublist (((hits lower entries chunks).filter Entry.glossary).map line)).length_le
    have hfilter := List.length_filter_le Entry.glossary (hits lower entries chunks)
    rw [List.length_map] at hdups
    rw [beq_text]
    omega

def confirmedTerm : Entry :=
  ⟨"에너지속성인증서".toList, "Energy Attribute Certificate".toList, "EAC".toList, [], [], [], true⟩

def definedTerm : Entry :=
  ⟨"에너지 인증서".toList, "Energy Attribute Certificate".toList, "EAC".toList,
    "EAC means a contractual instrument".toList, "s1".toList, "A".toList, false⟩

def citedPack : List Chunk := [⟨"an Energy Attribute Certificate (EAC)".toList, "s1".toList, false⟩]

end RownRg.Terms

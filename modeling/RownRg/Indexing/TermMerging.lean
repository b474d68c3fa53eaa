import RownRg.Lib.Text
import Mathlib.Data.List.Infix

/-! The terms of one document: entries that share a name are merged. -/

open PyText

namespace RownRg.TermMining

inductive Axis where
  | en
  | abbr
  | ko
  deriving DecidableEq

structure TermEntry where
  ko : Option Text := none
  en : Option Text := none
  abbr : Option Text := none
  definition : Option Text := none
  context : Option Text := none
  origin : Text := "pattern".toList
  deriving DecidableEq

/-- A field that is set: the empty text counts as missing. -/
def filled (field : Option Text) : Option Text := field.filter (!·.isEmpty)

/-- `str.lower` and `str.upper` -/
structure Casing where
  lower : Text → Text
  upper : Text → Text

variable (casing : Casing)

/-- The identifier of an entry on one axis. -/
def identifier (e : TermEntry) : Axis → Option Text
  | .en => (filled e.en).map fun name => "en:".toList ++ casing.lower name
  | .abbr => (filled e.abbr).map fun name => "ab:".toList ++ casing.upper name
  | .ko => (filled e.ko).map fun name => "ko:".toList ++ name

def identifiers (e : TermEntry) : List Text :=
  [Axis.en, .abbr, .ko].filterMap (identifier casing e)

def fillField (found new : Option Text) : Option Text :=
  if (filled found).isNone && (filled new).isSome then new else found

/-- The fields that `found` lacks are taken from the entry. -/
def TermEntry.fill (found e : TermEntry) : TermEntry :=
  { found with
    ko := fillField found.ko e.ko
    en := fillField found.en e.en
    abbr := fillField found.abbr e.abbr
    definition := fillField found.definition e.definition
    context := fillField found.context e.context }

/-- `_MAX_TERMS_PER_SOURCE` -/
def maxTermsPerSource : Nat := 80

/-- `out`, and the place in it of the entry with an identifier. -/
structure Merge where
  out : List TermEntry := []
  index : List (Text × Nat) := []

def Merge.found (st : Merge) (e : TermEntry) : Option Nat :=
  (identifiers casing e).findSome? fun i => List.lookup i st.index

def Merge.indexed (st : Merge) (e : TermEntry) (k : Nat) : List (Text × Nat) :=
  (identifiers casing e).map (·, k) ++ st.index

def mergeStep (st : Merge) (e : TermEntry) : Merge :=
  match st.found casing e with
  | none =>
    if st.out.length ≥ maxTermsPerSource then st
    else { out := st.out ++ [e], index := st.indexed casing e st.out.length }
  | some k =>
    let found := (st.out.getD k e).fill e
    { out := st.out.set k found, index := st.indexed casing found k }

def mergeEntries (groups : List (List TermEntry)) : List TermEntry :=
  (groups.foldl (fun (st : Merge) group => group.foldl (mergeStep casing) st) {}).out

/-- One entry a term: no two entries share an identifier, none is lost, and there is nothing left
to merge. -/
structure OneEntryPerTerm (entries out : List TermEntry) : Prop where
  apart : out.Pairwise fun a b => ∀ i ∈ identifiers casing a, i ∉ identifiers casing b
  kept : ∀ e ∈ entries, ∀ i ∈ identifiers casing e, out.countP (i ∈ identifiers casing ·) = 1
  stable : mergeEntries casing [out] = out

/-! The terms of the entries, by the order in which their names come. -/

/-- A name on its axis, with the number of its term. -/
structure TermName where
  term : Nat
  axis : Axis
  name : Text

structure Terms where
  count : Nat := 0
  names : List TermName := []

/-- The term that has a name. -/
def Terms.owner (ts : Terms) (i : Text) : Option Nat :=
  (ts.names.find? (·.name = i)).map (·.term)

/-- The term of an entry: that of its first name that a term has. -/
def Terms.termOf (ts : Terms) (e : TermEntry) : Option Nat :=
  (identifiers casing e).findSome? ts.owner

/-- The term has a name on the axis. -/
def Terms.named (ts : Terms) (r : Nat) (a : Axis) : Bool :=
  ts.names.any fun n => n.term = r && n.axis = a

/-- The names of an entry on the axes on which its term has none. -/
def Terms.brought (ts : Terms) (r : Nat) (e : TermEntry) : List TermName :=
  [Axis.en, .abbr, .ko].filterMap fun a =>
    if ts.named r a then none else (identifier casing e a).map fun i => ⟨r, a, i⟩

def Terms.place (ts : Terms) (e : TermEntry) : Terms :=
  match ts.termOf casing e with
  | some r => { ts with names := ts.names ++ ts.brought casing r e }
  | none => { count := ts.count + 1, names := ts.names ++ ts.brought casing ts.count e }

def termsOf (entries : List TermEntry) : Terms := entries.foldl (Terms.place casing) {}

/-- What an entry brings to a known term is no name of another term. -/
def Terms.Fits (ts : Terms) (e : TermEntry) : Prop :=
  ∀ r, ts.termOf casing e = some r → ∀ n ∈ ts.brought casing r e, ts.owner n.name = none

/-- No entry brings its term a name of another term, and every name is brought to some term. -/
def FitsTerms (entries : List TermEntry) : Prop :=
  (∀ es e, es ++ [e] <+: entries → (termsOf casing es).Fits casing e) ∧
    ∀ e ∈ entries, ∀ i ∈ identifiers casing e, ((termsOf casing entries).owner i).isSome

variable {casing : Casing} {e f : TermEntry} {a b : Axis} {i : Text} {st : Merge} {ts : Terms}
  {entries es out : List TermEntry} {k r : Nat}

theorem mem_identifiers : i ∈ identifiers casing e ↔ ∃ a, identifier casing e a = some i := by
  unfold identifiers
  rw [List.mem_filterMap]
  constructor
  · rintro ⟨a, -, h⟩
    exact ⟨a, h⟩
  · rintro ⟨a, h⟩
    exact ⟨a, by cases a <;> simp, h⟩

/-- The name of an identifier tells its axis. -/
theorem axis_of_identifier (ha : identifier casing e a = some i) (hb : identifier casing f b = some i) :
    a = b := by
  cases a <;> cases b <;> simp only [identifier, Option.map_eq_some_iff] at ha hb <;>
    first
      | rfl
      | (obtain ⟨_, -, rfl⟩ := ha
         obtain ⟨_, -, h⟩ := hb
         simp at h)

theorem filled_fillField (found new : Option Text) :
    filled (fillField found new) = (filled found).or (filled new) := by
  unfold fillField
  cases hf : filled found with
  | some x => simp [hf]
  | none =>
    cases hn : filled new with
    | some x => simp [hn]
    | none => simp [hf]

/-- An entry keeps its names when it is filled, and takes those on the other axes. -/
@[simp] theorem identifier_fill (f e : TermEntry) (a : Axis) :
    identifier casing (f.fill e) a = (identifier casing f a).or (identifier casing e a) := by
  cases a <;> simp only [identifier, TermEntry.fill, filled_fillField] <;>
    (cases filled _ <;> rfl)

theorem mem_identifiers_fill : i ∈ identifiers casing (f.fill e) ↔
    i ∈ identifiers casing f ∨
      ∃ a, identifier casing f a = none ∧ identifier casing e a = some i := by
  rw [mem_identifiers, mem_identifiers]
  constructor
  · rintro ⟨a, h⟩
    rw [identifier_fill] at h
    cases hf : identifier casing f a with
    | some j => exact .inl ⟨a, by rw [hf] at h; rw [hf]; exact h⟩
    | none => exact .inr ⟨a, hf, by rw [hf] at h; exact h⟩
  · rintro (⟨a, h⟩ | ⟨a, hf, he⟩)
    · exact ⟨a, by rw [identifier_fill, h]; rfl⟩
    · exact ⟨a, by rw [identifier_fill, hf, he]; rfl⟩

theorem lookup_indexed : List.lookup i (st.indexed casing e k) =
    if i ∈ identifiers casing e then some k else List.lookup i st.index := by
  unfold Merge.indexed
  induction identifiers casing e with
  | nil => simp
  | cons j ids ih =>
    rw [List.map_cons, List.cons_append, List.lookup_cons, ih]
    by_cases hij : i = j
    · simp [hij]
    · rw [beq_eq_false_iff_ne.mpr hij]
      simp [hij]

theorem mem_brought {n : TermName} : n ∈ ts.brought casing r e ↔
    n.term = r ∧ ts.named r n.axis = false ∧ identifier casing e n.axis = some n.name := by
  obtain ⟨r', a, i⟩ := n
  unfold Terms.brought
  rw [List.mem_filterMap]
  constructor
  · rintro ⟨b, -, h⟩
    split at h
    · cases h
    · rename_i hb
      obtain ⟨j, hj, heq⟩ := Option.map_eq_some_iff.mp h
      cases heq
      exact ⟨rfl, by simpa using hb, hj⟩
  · rintro ⟨rfl, hnamed, hi⟩
    exact ⟨a, by cases a <;> simp, by simp_all⟩

theorem owner_append (ts : Terms) (c r : Nat) (e : TermEntry) (i : Text) :
    Terms.owner ⟨c, ts.names ++ ts.brought casing r e⟩ i = (ts.owner i).or
      (if ∃ n ∈ ts.brought casing r e, n.name = i then some r else none) := by
  unfold Terms.owner
  dsimp only
  rw [List.find?_append]
  cases ts.names.find? (·.name = i) with
  | some n => rfl
  | none =>
    cases hn : (ts.brought casing r e).find? (·.name = i) with
    | some n =>
      have hmem := List.mem_of_find?_eq_some hn
      rw [if_pos ⟨n, hmem, by simpa using List.find?_some hn⟩]
      simp [(mem_brought.1 hmem).1]
    | none =>
      rw [if_neg (by simpa using List.find?_eq_none.mp hn)]
      rfl

theorem named_iff : ts.named r a ↔ ∃ n ∈ ts.names, n.term = r ∧ n.axis = a := by
  simp [Terms.named]

theorem named_append (ts : Terms) (c r : Nat) (e : TermEntry) (k : Nat) (a : Axis) :
    Terms.named ⟨c, ts.names ++ ts.brought casing r e⟩ k a ↔
      ts.named k a ∨ r = k ∧ (identifier casing e a).isSome := by
  rw [named_iff, named_iff]
  constructor
  · rintro ⟨n, hn, hk, ha⟩
    rcases List.mem_append.mp hn with hn | hn
    · exact .inl ⟨n, hn, hk, ha⟩
    · obtain ⟨hr, -, hi⟩ := mem_brought.1 hn
      exact .inr ⟨hr.symm.trans hk, by rw [← ha, hi]; rfl⟩
  · rintro (⟨n, hn, hk, ha⟩ | ⟨rfl, hi⟩)
    · exact ⟨n, List.mem_append_left _ hn, hk, ha⟩
    · cases hnamed : ts.named r a with
      | true =>
        obtain ⟨n, hn, hk, ha⟩ := named_iff.1 hnamed
        exact ⟨n, List.mem_append_left _ hn, hk, ha⟩
      | false =>
        obtain ⟨i, hi⟩ := Option.isSome_iff_exists.mp hi
        exact ⟨⟨r, a, i⟩, List.mem_append_right _ (mem_brought.2 ⟨rfl, hnamed, hi⟩), rfl, rfl⟩

/-- The merged entries are the terms: each name is in the entry of its term, and an entry has a
name just on the axes on which its term has one. -/
structure Follows (casing : Casing) (ts : Terms) (st : Merge) : Prop where
  count : st.out.length = ts.count
  bound : ∀ n ∈ ts.names, n.term < ts.count
  index : ∀ i k, List.lookup i st.index = some k ↔
    ∃ f, st.out[k]? = some f ∧ i ∈ identifiers casing f
  owner : ∀ i, ts.owner i = List.lookup i st.index
  named : ∀ k f, st.out[k]? = some f → ∀ a, ((identifier casing f a).isSome ↔ ts.named k a)

theorem follows_nil : Follows casing {} {} where
  count := rfl
  bound n hn := by cases hn
  index i k := by simp
  owner i := rfl
  named k f h := by simp at h

theorem found_eq (h : Follows casing ts st) (e : TermEntry) :
    st.found casing e = ts.termOf casing e := by
  unfold Merge.found Terms.termOf
  exact congrArg (List.findSome? · _) (funext fun i => (h.owner i).symm)

/-- A new term has no name yet, so an entry brings it all its names. -/
theorem mem_brought_new (h : Follows casing ts st) {n : TermName} :
    n ∈ ts.brought casing ts.count e ↔
      n.term = ts.count ∧ identifier casing e n.axis = some n.name := by
  rw [mem_brought]
  refine ⟨fun hn => ⟨hn.1, hn.2.2⟩, fun hn => ⟨hn.1, ?_, hn.2⟩⟩
  rw [Bool.eq_false_iff]
  intro hnamed
  obtain ⟨m, hm, hterm, -⟩ := named_iff.1 hnamed
  exact absurd (h.bound m hm) (by omega)

theorem follows_new (h : Follows casing ts st) (hterm : ts.termOf casing e = none) :
    Follows casing { count := ts.count + 1, names := ts.names ++ ts.brought casing ts.count e }
      { out := st.out ++ [e], index := st.indexed casing e st.out.length } := by
  have hnew : ∀ i ∈ identifiers casing e, List.lookup i st.index = none := by
    rw [← found_eq h] at hterm
    exact List.findSome?_eq_none_iff.mp hterm
  have hget : ∀ {k f}, (st.out ++ [e])[k]? = some f →
      st.out[k]? = some f ∨ k = st.out.length ∧ f = e := by
    intro k f hf
    rcases Nat.lt_trichotomy k st.out.length with hk | rfl | hk
    · exact .inl (by rwa [List.getElem?_append_left hk] at hf)
    · exact .inr ⟨rfl, by simpa using hf.symm⟩
    · rw [List.getElem?_eq_none (by simp; omega)] at hf
      cases hf
  refine ⟨by simp [h.count], ?_, ?_, ?_, ?_⟩
  · intro n hn
    rcases List.mem_append.mp hn with hn | hn
    · exact Nat.lt_succ_of_lt (h.bound n hn)
    · rw [(mem_brought.1 hn).1]
      exact Nat.lt_succ_self _
  · intro i k
    rw [lookup_indexed]
    constructor
    · intro hk
      split at hk
      · rename_i hi
        exact ⟨e, by simp [← Option.some.inj hk], hi⟩
      · obtain ⟨f, hf, hif⟩ := (h.index i k).mp hk
        exact ⟨f, by rwa [List.getElem?_append_left (List.getElem?_eq_some_iff.mp hf).1], hif⟩
    · rintro ⟨f, hf, hif⟩
      rcases hget hf with hf | ⟨rfl, rfl⟩
      · have hk := (h.index i k).mpr ⟨f, hf, hif⟩
        rwa [if_neg fun hi => by simp [hnew i hi] at hk]
      · rw [if_pos hif]
  · intro i
    have hmem : (∃ n ∈ ts.brought casing ts.count e, n.name = i) ↔ i ∈ identifiers casing e := by
      rw [mem_identifiers]
      constructor
      · rintro ⟨n, hn, rfl⟩
        exact ⟨n.axis, ((mem_brought_new h).mp hn).2⟩
      · rintro ⟨a, ha⟩
        exact ⟨⟨ts.count, a, i⟩, (mem_brought_new h).mpr ⟨rfl, ha⟩, rfl⟩
    rw [owner_append, h.owner, lookup_indexed, h.count]
    simp only [hmem]
    split
    · rename_i hi
      rw [hnew i hi, Option.none_or]
    · rw [Option.or_none]
  · intro k f hf a
    rw [named_append]
    rcases hget hf with hf | ⟨rfl, rfl⟩
    · have hk := (List.getElem?_eq_some_iff.mp hf).1
      rw [h.named k f hf a, ← h.count]
      exact ⟨.inl, fun hor => hor.resolve_right fun hand => by omega⟩
    · rw [h.count]
      constructor
      · exact fun hsome => .inr ⟨rfl, hsome⟩
      · rintro (hnamed | ⟨-, hsome⟩)
        · obtain ⟨n, hn, hterm, -⟩ := named_iff.1 hnamed
          exact absurd (h.bound n hn) (by omega)
        · exact hsome

theorem exists_of_term (h : Follows casing ts st) (hterm : ts.termOf casing e = some k) :
    ∃ f, st.out[k]? = some f := by
  rw [← found_eq h] at hterm
  obtain ⟨i, -, hi⟩ := List.exists_of_findSome?_eq_some hterm
  obtain ⟨f, hf, -⟩ := (h.index i k).mp hi
  exact ⟨f, hf⟩

/-- An entry brings its term what is filled in the entry of the term. -/
theorem mem_brought_known (h : Follows casing ts st) (hf : st.out[k]? = some f) :
    (∃ n ∈ ts.brought casing k e, n.name = i) ↔
      ∃ a, identifier casing f a = none ∧ identifier casing e a = some i := by
  have hnamed : ∀ a, ts.named k a = false ↔ identifier casing f a = none := by
    intro a
    rw [← Option.not_isSome_iff_eq_none, h.named k f hf a, Bool.eq_false_iff]
  constructor
  · rintro ⟨n, hn, rfl⟩
    obtain ⟨-, hno, hi⟩ := mem_brought.1 hn
    exact ⟨n.axis, (hnamed _).mp hno, hi⟩
  · rintro ⟨a, hfa, hea⟩
    exact ⟨⟨k, a, i⟩, mem_brought.2 ⟨rfl, (hnamed a).mpr hfa, hea⟩, rfl⟩

/-- What is filled in the entry of a term was no name of another term. -/
theorem lookup_fill (h : Follows casing ts st) (hterm : ts.termOf casing e = some k)
    (hfits : ts.Fits casing e) (hf : st.out[k]? = some f)
    (hi : i ∈ identifiers casing (f.fill e)) {j : Nat} (hj : List.lookup i st.index = some j) :
    j = k := by
  rcases mem_identifiers_fill.1 hi with hi | hbrought
  · exact Option.some.inj (hj.symm.trans ((h.index i k).mpr ⟨f, hf, hi⟩))
  · obtain ⟨n, hn, rfl⟩ := (mem_brought_known h hf).mpr hbrought
    have hnone := hfits k hterm n hn
    rw [h.owner, hj] at hnone
    cases hnone

theorem mergeStep_known (h : Follows casing ts st) (hterm : ts.termOf casing e = some k)
    (hf : st.out[k]? = some f) : mergeStep casing st e =
      { out := st.out.set k (f.fill e), index := st.indexed casing (f.fill e) k } := by
  rw [mergeStep, found_eq h, hterm]
  simp [List.getD_eq_getElem?_getD, hf]

theorem follows_known (h : Follows casing ts st) (hterm : ts.termOf casing e = some k)
    (hfits : ts.Fits casing e) :
    Follows casing { ts with names := ts.names ++ ts.brought casing k e }
      (mergeStep casing st e) := by
  obtain ⟨f, hf⟩ := exists_of_term h hterm
  have hk := (List.getElem?_eq_some_iff.mp hf).1
  rw [mergeStep_known h hterm hf]
  have hlookup := fun i hi j => lookup_fill h hterm hfits hf (i := i) hi (j := j)
  have hold : ∀ {i}, i ∈ identifiers casing f → i ∈ identifiers casing (f.fill e) :=
    fun hi => mem_identifiers_fill.2 (.inl hi)
  refine ⟨by simp [h.count], ?_, ?_, ?_, ?_⟩
  · intro n hn
    rcases List.mem_append.mp hn with hn | hn
    · exact h.bound n hn
    · rw [(mem_brought.1 hn).1, ← h.count]
      exact hk
  · intro i j
    rw [lookup_indexed]
    by_cases hkj : k = j
    · subst hkj
      rw [List.getElem?_set_self hk]
      constructor
      · intro hj
        refine ⟨_, rfl, ?_⟩
        by_contra hi
        rw [if_neg hi] at hj
        obtain ⟨f', hf', hi'⟩ := (h.index i k).mp hj
        obtain rfl := Option.some.inj (hf.symm.trans hf')
        exact hi (hold hi')
      · rintro ⟨f', hf', hi⟩
        rw [if_pos (Option.some.inj hf' ▸ hi)]
    · rw [List.getElem?_set_ne hkj, ← h.index]
      split
      · rename_i hi
        exact ⟨fun hj => absurd (Option.some.inj hj) hkj,
          fun hj => absurd (hlookup i hi j hj).symm hkj⟩
      · rfl
  · intro i
    rw [owner_append, h.owner, lookup_indexed]
    cases hi : List.lookup i st.index with
    | some j =>
      rw [Option.some_or]
      by_cases hif : i ∈ identifiers casing (f.fill e)
      · rw [if_pos hif, hlookup i hif j hi]
      · rw [if_neg hif]
    | none =>
      have hmem : (∃ n ∈ ts.brought casing k e, n.name = i) ↔
          i ∈ identifiers casing (f.fill e) := by
        rw [mem_brought_known h hf, mem_identifiers_fill]
        refine ⟨.inr, fun hor => hor.resolve_left fun hif => ?_⟩
        rw [(h.index i k).mpr ⟨f, hf, hif⟩] at hi
        cases hi
      simp only [Option.none_or, hmem]
  · intro j f' hf' a
    rw [named_append]
    by_cases hkj : k = j
    · subst hkj
      rw [List.getElem?_set_self hk] at hf'
      rw [← Option.some.inj hf', identifier_fill, Option.isSome_or, Bool.or_eq_true, h.named k f hf a]
      simp
    · rw [List.getElem?_set_ne hkj] at hf'
      rw [h.named j f' hf' a]
      simp [hkj]

theorem termsOf_append (es : List TermEntry) (e : TermEntry) :
    termsOf casing (es ++ [e]) = (termsOf casing es).place casing e := by
  simp [termsOf]

/-- The merge state after the entries. -/
def merged (casing : Casing) (es : List TermEntry) : Merge := es.foldl (mergeStep casing) {}

theorem merged_append (es : List TermEntry) (e : TermEntry) :
    merged casing (es ++ [e]) = mergeStep casing (merged casing es) e := by
  simp [merged]

theorem mergeEntries_eq (groups : List (List TermEntry)) :
    mergeEntries casing groups = (merged casing groups.flatten).out := by
  rw [mergeEntries, ← List.foldl_flatten, merged]

theorem length_merged_le (es : List TermEntry) : (merged casing es).out.length ≤ es.length := by
  induction es using List.reverseRecOn with
  | nil => exact Nat.zero_le _
  | append_singleton es e ih =>
    rw [merged_append, mergeStep, List.length_append, List.length_singleton]
    split
    · split
      · omega
      · rw [List.length_append, List.length_singleton]
        omega
    · rw [List.length_set]
      omega

/-- Below the cap, the entries follow their terms as long as every entry fits. -/
theorem follows_termsOf (hcap : es.length ≤ maxTermsPerSource)
    (hfits : ∀ es' e, es' ++ [e] <+: es → (termsOf casing es').Fits casing e) :
    Follows casing (termsOf casing es) (merged casing es) := by
  induction es using List.reverseRecOn with
  | nil => exact follows_nil
  | append_singleton es e ih =>
    rw [List.length_append, List.length_singleton] at hcap
    have h := ih (by omega) fun es' e' hpre => hfits es' e' (hpre.trans (List.prefix_append _ _))
    rw [termsOf_append, merged_append, Terms.place]
    cases hterm : (termsOf casing es).termOf casing e with
    | some k => exact follows_known h hterm (hfits es e (List.prefix_refl _))
    | none =>
      have hlen := @length_merged_le casing es
      rw [mergeStep, found_eq h, hterm]
      dsimp only
      rw [if_neg (by omega)]
      exact follows_new h hterm

/-- Entries that share no identifier. -/
def Apart (casing : Casing) (out : List TermEntry) : Prop :=
  out.Pairwise fun a b => ∀ i ∈ identifiers casing a, i ∉ identifiers casing b

theorem apart_of_follows (h : Follows casing pl st) : Apart casing st.out := by
  refine List.pairwise_iff_getElem.mpr ?_
  intro j k hj hk hjk i hij hik
  have hj' := (h.index i j).mpr ⟨_, List.getElem?_eq_getElem hj, hij⟩
  have hk' := (h.index i k).mpr ⟨_, List.getElem?_eq_getElem hk, hik⟩
  exact absurd (Option.some.inj (hj'.symm.trans hk')) (by omega)

theorem eq_of_apart (h : Apart casing out) {j : Nat} (hf : out[k]? = some f) (hg : out[j]? = some e)
    (hif : i ∈ identifiers casing f) (hig : i ∈ identifiers casing e) : k = j := by
  obtain ⟨hk, rfl⟩ := List.getElem?_eq_some_iff.mp hf
  obtain ⟨hj, rfl⟩ := List.getElem?_eq_some_iff.mp hg
  rcases Nat.lt_trichotomy k j with hlt | heq | hlt
  · exact absurd hig (List.pairwise_iff_getElem.mp h k j hk hj hlt i hif)
  · exact heq
  · exact absurd hif (List.pairwise_iff_getElem.mp h j k hj hk hlt i hig)

theorem countP_of_apart (h : Apart casing out) (hf : f ∈ out) (hi : i ∈ identifiers casing f) :
    out.countP (i ∈ identifiers casing ·) = 1 := by
  induction out with
  | nil => cases hf
  | cons g out ih =>
    obtain ⟨hg, hout⟩ := List.pairwise_cons.mp h
    rcases List.mem_cons.mp hf with rfl | hf
    · have hrest : out.countP (i ∈ identifiers casing ·) = 0 :=
        List.countP_eq_zero.mpr fun g hgm => by simpa using hg g hgm i hi
      rw [List.countP_cons_of_pos (by simpa using hi), hrest]
    · have hgi : i ∉ identifiers casing g := fun hgi => hg f hf i hgi hi
      rw [List.countP_cons_of_neg (by simpa using hgi), ih hout hf]

/-- Entries that share no identifier are not merged. -/
theorem merged_of_apart (h : Apart casing out) (hcap : out.length ≤ maxTermsPerSource) :
    (merged casing out).out = out ∧
      ∀ i, (List.lookup i (merged casing out).index).isSome →
        ∃ f ∈ out, i ∈ identifiers casing f := by
  induction out using List.reverseRecOn with
  | nil => exact ⟨rfl, fun i h => by cases h⟩
  | append_singleton out e ih =>
    rw [List.length_append, List.length_singleton] at hcap
    obtain ⟨hout, -, hnew⟩ := List.pairwise_append.mp h
    obtain ⟨heq, hindex⟩ := ih hout (by omega)
    have hnone : (merged casing out).found casing e = none := by
      refine List.findSome?_eq_none_iff.mpr fun i hi => Option.not_isSome_iff_eq_none.mp fun hs => ?_
      obtain ⟨f, hf, hif⟩ := hindex i hs
      exact hnew f hf e List.mem_cons_self i hif hi
    rw [merged_append, mergeStep, hnone, heq]
    dsimp only
    rw [if_neg (by omega)]
    refine ⟨rfl, ?_⟩
    intro i hi
    rw [lookup_indexed] at hi
    split at hi
    · exact ⟨e, by simp, by assumption⟩
    · obtain ⟨f, hf, hif⟩ := hindex i hi
      exact ⟨f, List.mem_append_left _ hf, hif⟩

theorem apart_of_mergeStep (h : Apart casing (mergeStep casing st e).out) :
    Apart casing st.out := by
  rw [mergeStep] at h
  split at h
  · split at h
    · exact h
    · exact (List.pairwise_append.mp h).1
  · rename_i k _
    generalize hg : (st.out.getD k e).fill e = g at h
    have hset : ∀ j (hj : j < st.out.length) (hj' : j < (st.out.set k g).length),
        ∀ i ∈ identifiers casing st.out[j], i ∈ identifiers casing (st.out.set k g)[j] := by
      intro j hj hj' i hi
      rw [List.getElem_set]
      split
      · rename_i hkj
        subst hkj
        rw [← hg, List.getD_eq_getElem?_getD, List.getElem?_eq_getElem hj]
        exact mem_identifiers_fill.2 (.inl hi)
      · exact hi
    refine List.pairwise_iff_getElem.mpr fun j l hj hl hjl i hij hil => ?_
    have hj' : j < (st.out.set k g).length := by rwa [List.length_set]
    have hl' : l < (st.out.set k g).length := by rwa [List.length_set]
    exact List.pairwise_iff_getElem.mp h j l hj' hl' hjl i (hset j hj hj' i hij)
      (hset l hl hl' i hil)

/-- Entries are never split: a name that two entries share stays shared. -/
theorem apart_of_prefix (hpre : es <+: entries) (h : Apart casing (merged casing entries).out) :
    Apart casing (merged casing es).out := by
  obtain ⟨rest, rfl⟩ := hpre
  induction rest using List.reverseRecOn with
  | nil => rwa [List.append_nil] at h
  | append_singleton rest e ih =>
    rw [← List.append_assoc, merged_append] at h
    exact ih (apart_of_mergeStep h)

theorem fits_of_apart (h : Follows casing (termsOf casing es) (merged casing es))
    (hapart : Apart casing (merged casing (es ++ [e])).out) : (termsOf casing es).Fits casing e := by
  intro k hterm n hn
  obtain ⟨f, hf⟩ := exists_of_term h hterm
  have hk := (List.getElem?_eq_some_iff.mp hf).1
  rw [merged_append, mergeStep_known h hterm hf] at hapart
  rw [h.owner]
  by_contra hne
  -- the name would be in the entry that has it and in the filled one
  obtain ⟨j, hj⟩ := Option.ne_none_iff_exists'.mp hne
  obtain ⟨g, hg, hig⟩ := (h.index _ j).mp hj
  obtain ⟨a, hfa, hea⟩ := (mem_brought_known h hf).mp ⟨n, hn, rfl⟩
  have hkj : k ≠ j := by
    rintro rfl
    obtain rfl := Option.some.inj (hf.symm.trans hg)
    obtain ⟨b, hb⟩ := mem_identifiers.1 hig
    rw [axis_of_identifier hea hb, hb] at hfa
    cases hfa
  refine hkj (eq_of_apart hapart (List.getElem?_set_self hk) ?_ ?_ hig)
  · rwa [List.getElem?_set_ne hkj]
  · exact mem_identifiers_fill.2 (.inr ⟨a, hfa, hea⟩)

theorem fits_of_prefix (hcap : entries.length ≤ maxTermsPerSource)
    (hapart : Apart casing (merged casing entries).out) (es : List TermEntry)
    (hpre : es <+: entries) :
    ∀ es' e, es' ++ [e] <+: es → (termsOf casing es').Fits casing e := by
  induction es using List.reverseRecOn with
  | nil => exact fun _ _ h => by simp at h
  | append_singleton es e ih =>
    intro es' e' h
    have hes := ih ((List.prefix_append _ _).trans hpre)
    rcases List.prefix_concat_iff.mp h with heq | h
    · obtain ⟨rfl, hlast⟩ := List.append_inj' heq rfl
      obtain rfl := List.singleton_inj.mp hlast
      have hlen := le_trans hpre.length_le hcap
      rw [List.length_append] at hlen
      exact fits_of_apart (follows_termsOf (by omega) hes) ( apart_of_prefix hpre hapart)
    · exact hes es' e' h

/-- `str.lower` and `str.upper` on Latin letters. -/
def latin : Casing := ⟨(·.map Char.toLower), (·.map Char.toUpper)⟩

/-- `에너지인증서(EAC)`, `'Energy Certificate' means …` and a model's pair of both names. -/
def certificates : List (List TermEntry) :=
  [[{ ko := some "에너지인증서".toList, abbr := some "EAC".toList },
    { en := some "Energy Certificate".toList }],
   [{ ko := some "에너지인증서".toList, en := some "energy certificate".toList }]]

end RownRg.TermMining

import Mathlib.Data.List.Induction
import RownRg.Core.Levels

/-! A drafted graph of references, cleaned against the plan. -/

open PyText RownRg.BuildsOn

namespace RownRg.Generation

variable {plan : List SectionPlan} {label ref : Text} {refs kept : List Text} {here i j n : Nat}
  {r : BuildsOnRef} {s : SectionPlan} {drafted : List (Text × List Text)}

/-- The place of a label in the plan; of several sections with one label the last one counts. -/
def position (plan : List SectionPlan) (label : Text) : Option Nat :=
  lastFor label (plan.zipIdx.map fun x => (labelOf x.1, x.2))

/-- The place of the last section of a chapter. -/
def chapterEnd (plan : List SectionPlan) (chapter : Int) : Option Nat :=
  lastFor chapter (plan.zipIdx.map fun x => ((x.1.chapterNumber : Int), x.2))

/-- A reference is kept if all it names comes before the section. -/
def allowed (plan : List SectionPlan) (here : Nat) (label ref : Text) : Bool :=
  if ref = label then false
  else if ".*".toList.isSuffixOf ref then
    match toInt? (ref.take (ref.length - 2)) with
    | none => false
    | some chapter => (chapterEnd plan chapter).any (· < here)
  else (position plan ref).any (· < here)

/-- The loop over the references of one section. -/
def keepRefs (allowed : Text → Bool) : List Text → List Text → List Text
  | kept, [] => kept
  | kept, ref :: refs =>
    if !allowed ref then keepRefs allowed kept refs
    else
      let kept := if ref ∈ kept then kept else kept ++ [ref]
      if kept.length ≥ maxRefsPerSection then kept else keepRefs allowed kept refs

/-- Drops what names no section, itself, or a section behind, and what exceeds the limit. -/
def sanitize (plan : List SectionPlan) (drafted : List (Text × List Text)) :
    List (Text × List Text) :=
  drafted.filterMap fun x => (position plan x.1).bind fun here =>
    let kept := keepRefs (allowed plan here x.1) [] x.2
    if kept.isEmpty then none else some (x.1, kept)

theorem keepRefs_allowed {p : Text → Bool} (h : ∀ ref ∈ kept, p ref) :
    ∀ ref ∈ keepRefs p kept refs, p ref := by
  induction refs generalizing kept with
  | nil => exact h
  | cons ref refs ih =>
    rw [keepRefs]
    by_cases hp : p ref
    · have hkept : ∀ x ∈ (if ref ∈ kept then kept else kept ++ [ref]), p x := by
        intro x hx
        split at hx
        · exact h x hx
        · rcases List.mem_append.mp hx with hx | hx
          · exact h x hx
          · rwa [List.mem_singleton.mp hx]
      simp only [hp, Bool.not_true, Bool.false_eq_true, if_false]
      generalize (if ref ∈ kept then kept else kept ++ [ref]) = kept' at hkept ⊢
      split
      · exact hkept
      · exact ih hkept
    · simp only [hp, Bool.not_false, if_true]
      exact ih h

/-- What the cleaned graph holds for a label. -/
theorem sanitize_spec (h : (label, refs) ∈ sanitize plan drafted) :
    ∃ here, position plan label = some here ∧ ∀ ref ∈ refs, allowed plan here label ref := by
  obtain ⟨⟨l, rs⟩, -, hx⟩ := List.mem_filterMap.mp h
  obtain ⟨here, hhere, hx⟩ := Option.bind_eq_some_iff.mp hx
  simp only at hx
  split at hx
  · simp at hx
  · obtain ⟨rfl, rfl⟩ := Prod.mk.inj (Option.some.inj hx)
    exact ⟨here, hhere, keepRefs_allowed (by simp)⟩

/-! Places in the plan. -/

theorem lastFor_concat {κ : Type} [DecidableEq κ] (key : SectionPlan → κ) (k : κ)
    (plan : List SectionPlan) (s : SectionPlan) :
    lastFor k ((plan ++ [s]).zipIdx.map fun x => (key x.1, x.2)) =
      if k = key s then some plan.length
      else lastFor k (plan.zipIdx.map fun x => (key x.1, x.2)) := by
  simp only [lastFor, List.zipIdx_append, List.map_append, List.reverse_append]
  by_cases hk : k = key s <;> simp [hk, List.lookup_cons, beq_false_of_ne]

/-- The last entry for a key stands behind all others. -/
theorem le_lastFor {κ : Type} [DecidableEq κ] (key : SectionPlan → κ)
    (h : plan[i]? = some s) :
    ∃ n, lastFor (key s) (plan.zipIdx.map fun x => (key x.1, x.2)) = some n ∧ i ≤ n := by
  induction plan using List.reverseRecOn with
  | nil => simp at h
  | append_singleton plan t ih =>
    have hlt := (List.getElem?_eq_some_iff.mp h).1
    simp only [List.length_append, List.length_singleton] at hlt
    rw [lastFor_concat]
    split
    · exact ⟨plan.length, rfl, by omega⟩
    · rename_i hne
      rcases Nat.lt_or_ge i plan.length with hi | hi
      · exact ih (by rwa [List.getElem?_append_left hi] at h)
      · obtain rfl : i = plan.length := by omega
        rw [List.getElem?_append_right (by omega)] at h
        obtain rfl : t = s := by simpa using h
        exact absurd rfl hne

theorem getElem?_lastFor {κ : Type} [DecidableEq κ] {key : SectionPlan → κ} {k : κ}
    (h : lastFor k (plan.zipIdx.map fun x => (key x.1, x.2)) = some n) :
    ∃ s, plan[n]? = some s ∧ key s = k := by
  obtain ⟨⟨s, m⟩, hmem, heq⟩ := List.mem_map.mp (mem_of_lastFor h)
  obtain ⟨hk, hm⟩ := Prod.mk.inj heq
  obtain rfl : m = n := hm
  exact ⟨s, by simpa using List.mem_zipIdx_iff_getElem?.mp hmem, hk⟩

/-! What a kept reference names. -/

/-- The sections that a reference names. -/
def Names (r : BuildsOnRef) (s : SectionPlan) : Prop :=
  s.chapterNumber = r.chapter ∧ ∀ n ∈ r.sectionNumber, s.sectionNumber = n

theorem digit_ne {c d : Char} (hc : isDigit c) (hd : isDigit d = false) : c ≠ d := by
  rintro rfl
  simp [hc] at hd

/-- `int` of blanks and digits. -/
theorem toInt?_digits {w d : Text} (hw : ∀ c ∈ w, isSpace c) (hd : d ≠ [])
    (hdigit : ∀ c ∈ d, isDigit c) : toInt? (w ++ d) = some (natOf d) := by
  have hnospace : ∀ {t : Text}, (∀ c ∈ t, isDigit c) → t.dropWhile isSpace = t := by
    intro t ht
    cases t with
    | nil => rfl
    | cons c t => simp [not_isSpace_of_digit (ht c (by simp))]
  have hstrip : strip (w ++ d) = d := by
    rw [strip_append_left hw, strip, rstrip, lstrip, hnospace hdigit,
      hnospace fun c hc => hdigit c (List.mem_reverse.mp hc), List.reverse_reverse]
  have hvalue : digitsValue d = some (natOf d) := by
    have hunder : '_' ∉ d := fun h => digit_ne (hdigit _ h) (by decide) rfl
    have hsplit : d.splitOn '_' = [d] := List.splitOn_eq_singleton hunder
    have hfilter : d.filter (· != '_') = d :=
      List.filter_eq_self.mpr fun c hc => bne_iff_ne.mpr fun he => hunder (he ▸ hc)
    have hempty : d.isEmpty = false := by cases d <;> simp_all
    rw [digitsValue, hsplit, hfilter]
    simp [hempty]
    exact hdigit
  obtain ⟨c, t, rfl⟩ := List.exists_cons_of_ne_nil hd
  have hc := hdigit c (by simp)
  have hminus : c ≠ '-' := digit_ne hc (by decide)
  have hplus : c ≠ '+' := digit_ne hc (by decide)
  unfold toInt?
  rw [hstrip]
  split
  · rename_i heq
    exact absurd (List.cons.inj heq).1 hminus
  · rename_i heq
    exact absurd (List.cons.inj heq).1 hplus
  · simp [hvalue]

/-- A reference that ends in a star names a chapter, the one that `int` reads before it. -/
theorem parseRef_star (hstar : ".*".toList <:+ ref) (h : parseRef ref = some r) :
    r.sectionNumber = none ∧ toInt? (ref.take (ref.length - 2)) = some r.chapter := by
  obtain ⟨u, hu⟩ := hstar
  have hlast : ref.getLast? = some '*' := by simp [← hu]
  obtain ⟨hw, hd, hdigit, hs, hx, hv⟩ := parseRef_eq_some.1 h
  rename_i w d s x v n m
  have hmem : ∀ {a t : Text}, w ++ (d ++ '.' :: (s ++ (x ++ v))) = a ++ t → t ≠ [] → '*' ∈ t := by
    intro a t heq ht
    rw [heq, List.getLast?_append_of_ne_nil _ ht] at hlast
    exact List.mem_of_getLast? hlast
  have hvnil : v = [] := by
    by_contra hne
    have hstar := hmem (a := w ++ (d ++ '.' :: (s ++ x))) (by simp) hne
    exact absurd (hv _ hstar) (by decide)
  subst hvnil
  have hxnil : x = [] := by
    cases hx with
    | absent => rfl
    | @given y _ _ =>
      have hstar := hmem (a := w ++ (d ++ '.' :: (s ++ '(' :: y))) (t := [')']) (by simp) (by simp)
      simp at hstar
  subst hxnil
  cases hs with
  | @number e he hedigit =>
    have hstar := hmem (a := w ++ (d ++ ['.'])) (t := s) (by simp) he
    exact absurd rfl (digit_ne (hedigit _ hstar) (by decide))
  | all =>
    refine ⟨rfl, ?_⟩
    have htake : (w ++ (d ++ '.' :: (['*'] ++ ([] ++ [])))).take
        ((w ++ (d ++ '.' :: (['*'] ++ ([] ++ [])))).length - 2) = w ++ d := by
      have hassoc : w ++ (d ++ '.' :: (['*'] ++ ([] ++ []))) = (w ++ d) ++ ".*".toList := by simp
      rw [hassoc, List.take_left' (by simp; omega)]
    rw [htake]
    exact toInt?_digits hw hd hdigit

/-- Whatever a kept reference names stands before the section. -/
theorem allowed_before (h : allowed plan i label ref) (href : parseRef ref = some r)
    (hj : plan[j]? = some s) (hnames : Names r s) : j < i := by
  unfold allowed at h
  split at h
  · simp at h
  · split at h
    · rename_i hsuffix
      obtain ⟨-, hint⟩ := parseRef_star (List.isSuffixOf_iff_suffix.mp hsuffix) href
      rw [hint] at h
      obtain ⟨n, hn, hle⟩ := le_lastFor (fun s => (s.chapterNumber : Int)) hj
      rw [hnames.1] at hn
      have hend : chapterEnd plan r.chapter = some n := hn
      have hlt : n < i := by simpa [hend] using h
      omega
    · cases hpos : position plan ref with
      | none => simp [hpos] at h
      | some there =>
        have hlt : there < i := by simpa [hpos] using h
        obtain ⟨t, -, ht⟩ := getElem?_lastFor hpos
        subst ht
        rw [labelOf, parseRef_sectionLabel] at href
        obtain rfl := Option.some.inj href
        have hlabel : labelOf s = labelOf t := by
          rw [labelOf, labelOf, hnames.1, hnames.2 _ rfl]
        obtain ⟨n, hn, hle⟩ := le_lastFor labelOf hj
        rw [hlabel] at hn
        have hthere : some there = some n := hpos.symm.trans hn
        obtain rfl := Option.some.inj hthere
        omega

end RownRg.Generation

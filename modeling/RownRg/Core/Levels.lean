import Mathlib.Data.Char
import Mathlib.Data.List.Lex
import Mathlib.Data.List.Perm.Subperm
import Mathlib.Logic.Relation
import RownRg.Core.BuildsOn
import RownRg.Core.State

/-! The order in which sections run: every section after those it builds on. -/

open PyText

namespace RownRg.BuildsOn

variable {plan : List SectionPlan} {a b : Text} {deps : Text → List Text} {labels R ds : List Text}
  {fuel depth : Nat}

def labelOf (s : SectionPlan) : Text := sectionLabel s.chapterNumber s.sectionNumber

def labelsOf (plan : List SectionPlan) : List Text := plan.map labelOf

/-- The references of a label; of several sections with one label the last one counts. -/
def refsOf (plan : List SectionPlan) (label : Text) : List Text :=
  (lastFor label (plan.map fun s => (labelOf s, s.buildsOn))).getD []

/-- The labels that references of a section stand for, itself excepted. -/
def depLabels (plan : List SectionPlan) (label : Text) (refs : List Text) : List Text :=
  (refs.flatMap fun raw =>
    match parseRef raw with
    | none => []
    | some ⟨chapter, none, _⟩ =>
      (labelsOf plan).filter fun other =>
        other ≠ label && (other.splitOn '.').headD [] = ofNat chapter
    | some ⟨chapter, some n, _⟩ => [sectionLabel chapter n]).filter (· ≠ label)

/-- The sections of the plan that references name. -/
def depsOf (plan : List SectionPlan) (label : Text) (refs : List Text) : List Text :=
  ((depLabels plan label refs).filter (· ∈ labelsOf plan)).eraseDups

/-- The graph that the references of a plan draw. -/
def DependsOn (plan : List SectionPlan) (a b : Text) : Prop := b ∈ depsOf plan a (refsOf plan a)

def Acyclic (plan : List SectionPlan) : Prop := ∀ a, ¬ Relation.TransGen (DependsOn plan) a a

inductive Warning where
  | cycle (label : Text)
  | tooDeep (label : Text) (level : Nat)
  deriving DecidableEq

def Warning.text : Warning → Text
  | .cycle label => "builds_on 순환을 절단(의존 무시): ".toList ++ label
  | .tooDeep label level =>
    "의존 깊이가 ".toList ++ ofNat maxDepth ++ "를 넘어 마지막 배치로 강등: ".toList ++ label ++
      " (레벨 ".toList ++ ofNat level ++ [')']

/-- The levels found so far and the labels at which a circle closed. -/
structure Levels where
  levels : List (Text × Nat)
  cyclic : List Text

/-- The level of a label, with the labels whose levels are being computed; `none` is out of fuel. -/
def levelOf (deps : Text → List Text) : Nat → List Text → Levels → Text → Option (Nat × Levels)
  | 0, _, _, _ => none
  | fuel + 1, resolving, st, label =>
    match st.levels.lookup label with
    | some level => some (level, st)
    | none =>
      if label ∈ resolving then some (0, { st with cyclic := label :: st.cyclic })
      else do
        let x ← (deps label).foldlM (fun x d => do
          let y ← levelOf deps fuel (label :: resolving) x.2 d
          return (max x.1 (y.1 + 1), y.2)) (0, st)
        return (x.1, { x.2 with levels := (label, x.1) :: x.2.levels })

/-- `sorted` on a set of labels. -/
def sortedLabels (labels : List Text) : List Text :=
  labels.eraseDups.mergeSort fun a b => decide (a ≤ b)

/-- Section to level, and what was cut: a circle is cut at the labels where it closed, and a level
beyond the last one allowed becomes the last one. -/
def assignLevels (plan : List SectionPlan) : Option (List (Text × Nat) × List Warning) := do
  let labels := labelsOf plan
  let deps label := depsOf plan label (refsOf plan label)
  let st ← labels.foldlM (fun st label =>
    (levelOf deps (labels.length + 1) [] st label).map (·.2)) ⟨[], []⟩
  let levels := st.levels.map fun x => if x.1 ∈ st.cyclic then (x.1, 0) else x
  let deep := sortedLabels ((levels.filter fun x => x.2 > maxDepth - 1).map (·.1))
  return (levels.map fun x => (x.1, min x.2 (maxDepth - 1)),
    (sortedLabels st.cyclic).map .cycle ++
      deep.map fun label => .tooDeep label ((levels.lookup label).getD 0))

theorem deps_subset (plan : List SectionPlan) (label : Text) (refs : List Text) :
    depsOf plan label refs ⊆ labelsOf plan := by
  intro b hb
  have hmem := (List.mem_filter.mp (List.mem_eraseDups.mp hb)).2
  simpa using hmem

theorem foldlM_isSome {α β : Type} {f : α → β → Option α} {bs : List β}
    (h : ∀ b ∈ bs, ∀ a, (f a b).isSome) (a : α) : (bs.foldlM f a).isSome := by
  induction bs generalizing a with
  | nil => rfl
  | cons b bs ih =>
    obtain ⟨a', ha'⟩ := Option.isSome_iff_exists.mp (h b (by simp) a)
    rw [List.foldlM_cons, ha']
    exact ih (fun b' hb' => h b' (by simp [hb'])) a'

theorem foldlM_keeps {α β γ : Type} {f : α → β → Option α} {bs : List β} {a a' : α} (view : α → γ)
    (h : ∀ b ∈ bs, ∀ a a', f a b = some a' → view a' = view a) (hfold : bs.foldlM f a = some a') :
    view a' = view a := by
  induction bs generalizing a with
  | nil =>
    obtain rfl : a = a' := by simpa using hfold
    rfl
  | cons b bs ih =>
    rw [List.foldlM_cons] at hfold
    obtain ⟨a₁, ha₁, hrest⟩ := Option.bind_eq_some_iff.mp hfold
    rw [ih (fun b' hb' => h b' (by simp [hb'])) hrest, h b (by simp) a a₁ ha₁]

/-- The labels being computed are pairwise distinct, so the fuel lasts. -/
theorem levelOf_isSome (hdeps : ∀ a, deps a ⊆ labels) (hR : R.Nodup) (hsub : R ⊆ labels)
    (hfuel : fuel + R.length = labels.length + 1) (hb : b ∈ labels) (st : Levels) :
    (levelOf deps fuel R st b).isSome := by
  induction fuel generalizing R b st with
  | zero =>
    have hle := (hR.subperm hsub).length_le
    omega
  | succ fuel ih =>
    rw [levelOf]
    split
    · rfl
    · split
      · rfl
      · rename_i hnot
        have hR' : (b :: R).Nodup := List.nodup_cons.mpr ⟨hnot, hR⟩
        have hsub' : b :: R ⊆ labels := List.cons_subset.mpr ⟨hb, hsub⟩
        have hstep : ∀ d ∈ deps b, ∀ x : Nat × Levels, ((levelOf deps fuel (b :: R) x.2 d).bind
            fun y => some (max x.1 (y.1 + 1), y.2)).isSome := by
          intro d hd x
          obtain ⟨y, hy⟩ := Option.isSome_iff_exists.mp
            (ih hR' hsub' (by simp; omega) (hdeps b hd) x.2)
          simp [hy]
        have hfold := foldlM_isSome hstep (0, st)
        obtain ⟨x, hx⟩ := Option.isSome_iff_exists.mp hfold
        simp [hx]

/-- On an acyclic graph no circle closes: all labels being computed lead to the present one. -/
theorem levelOf_cyclic {st st' : Levels} (hacyclic : ∀ a, ¬ Relation.TransGen (fun a b => b ∈ deps a) a a)
    (hR : ∀ a ∈ R, Relation.TransGen (fun a b => b ∈ deps a) a b)
    (h : levelOf deps fuel R st b = some (depth, st')) : st'.cyclic = st.cyclic := by
  induction fuel generalizing R b st st' depth with
  | zero => simp [levelOf] at h
  | succ fuel ih =>
    rw [levelOf] at h
    split at h
    · obtain ⟨-, rfl⟩ := Prod.mk.inj (Option.some.inj h)
      rfl
    · split at h
      · rename_i hmem
        exact absurd (hR b hmem) (hacyclic b)
      · obtain ⟨x, hx, hret⟩ := Option.bind_eq_some_iff.mp h
        obtain ⟨-, rfl⟩ := Prod.mk.inj (Option.some.inj hret)
        refine foldlM_keeps (a := (0, st)) (fun x => x.2.cyclic) (fun d hd x x' hx' => ?_) hx
        obtain ⟨y, hy, hret⟩ := Option.bind_eq_some_iff.mp hx'
        obtain rfl := Option.some.inj hret
        refine ih (fun a ha => ?_) hy
        rcases List.mem_cons.mp ha with rfl | ha
        · exact .single hd
        · exact (hR a ha).tail hd

/-- The levels of every plan are found, and on an acyclic plan no circle is reported. -/
theorem assignLevels_acyclic (h : Acyclic plan) :
    ∃ levels warnings, assignLevels plan = some (levels, warnings) ∧
      ∀ label, Warning.cycle label ∉ warnings := by
  have hstep : ∀ b ∈ labelsOf plan, ∀ st, ((levelOf (fun label => depsOf plan label
      (refsOf plan label)) ((labelsOf plan).length + 1) [] st b).map (·.2)).isSome := by
    intro b hb st
    rw [Option.isSome_map]
    exact levelOf_isSome (fun a => deps_subset plan a _) (by simp) (by simp) (by simp) hb st
  obtain ⟨st, hst⟩ := Option.isSome_iff_exists.mp (foldlM_isSome hstep ⟨[], []⟩)
  have hcyclic : st.cyclic = [] := by
    refine foldlM_keeps (fun st : Levels => st.cyclic) (fun b hb st st' hst' => ?_) hst
    obtain ⟨x, hx, rfl⟩ := Option.map_eq_some_iff.mp hst'
    exact levelOf_cyclic h (by simp) hx
  simp only [assignLevels, hst, Option.bind_eq_bind, Option.bind_some]
  refine ⟨_, _, rfl, fun label hlabel => ?_⟩
  simp [hcyclic, sortedLabels] at hlabel

end RownRg.BuildsOn

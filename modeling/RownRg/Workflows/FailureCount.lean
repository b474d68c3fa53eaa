import RownRg.Workflows.NarrativeChain
import Mathlib.Data.List.Infix
import Mathlib.Data.List.Induction

/-! The write loop over sections that end one after another, and what stops it. -/

open PyText RownRg.Sections Runs

namespace RownRg.FailureCount

/-- What is recorded of a section; `facts` stands for what does not concern its failure. -/
structure Record (μ : Type) where
  facts : μ
  writeFailed : Bool
  failDetail : Option Text

/-- How the work on a section ends; `facts` is what was recorded until then. -/
inductive Outcome (μ : Type) where
  /-- `detail` comes from the first hard check that a candidate failed. -/
  | written (candidates : List (SectionCandidate Uuid)) (facts : μ) (detail : Option Text)
  | llmError (exc : Text) (facts : μ)
  | error (exc : Text) (facts : μ)

variable {μ : Type} (excluded : SectionCandidate Uuid → Bool)

namespace Outcome

def ending : Outcome μ → NarrativeChain.Ending
  | written candidates _ _ => .written candidates
  | llmError _ _ => .llmError
  | error _ _ => .error

def candidates : Outcome μ → List (SectionCandidate Uuid)
  | written candidates _ _ => candidates
  | llmError _ _ => []
  | error _ _ => []

/-- Some exception left the work on the section. -/
def Failed : Outcome μ → Prop
  | written _ _ _ => False
  | llmError _ _ => True
  | error _ _ => True

def IsError : Outcome μ → Prop
  | written _ _ _ => False
  | llmError _ _ => False
  | error _ _ => True

instance instDecidableFailed : (o : Outcome μ) → Decidable o.Failed
  | written _ _ _ => isFalse id
  | llmError _ _ => isTrue trivial
  | error _ _ => isTrue trivial

/-- The record of the section; a section without a survivor counts as failed there. -/
def record : Outcome μ → Record μ
  | written candidates facts detail =>
    if candidates.all excluded then ⟨facts, true, detail⟩ else ⟨facts, false, none⟩
  | llmError exc facts => ⟨facts, true, some ("LLM 호출 실패: ".toList ++ exc)⟩
  | error exc facts => ⟨facts, true, some ("작성 중 오류: ".toList ++ exc)⟩

end Outcome

structure LoopState (μ : Type) where
  consecutiveFailures : Nat
  results : List (Uuid × SectionCandidateSet Uuid)
  sectionMeta : List (Uuid × Record μ)

def LoopState.init (μ : Type) : LoopState μ := ⟨0, [], []⟩

/-- The next section ends; refused where the exception is raised anew, which ends the loop. -/
def step (st : LoopState μ) (x : SectionPlan × Outcome μ) : Option (LoopState μ) :=
  let (consecutiveFailures, result) :=
    NarrativeChain.bounded x.1 st.consecutiveFailures x.2.ending
  result.map fun cset =>
    { consecutiveFailures
      results := st.results ++ [(x.1.sectionId, cset)]
      sectionMeta := st.sectionMeta ++ [(x.1.sectionId, x.2.record excluded)] }

/-- The candidate sets and the records in the order of the plan. -/
def collect (plan : List SectionPlan) (st : LoopState μ) :
    Option (List (SectionCandidateSet Uuid) × List (Uuid × Option (Record μ))) := do
  let candidateSets ← plan.mapM fun s => lastFor s.sectionId st.results
  return (candidateSets, plan.map fun s => (s.sectionId, lastFor s.sectionId st.sectionMeta))

/-- The loop over the sections in the order in which they end; `none` where it is aborted. -/
def writeLoop (plan : List SectionPlan) (completions : List (SectionPlan × Outcome μ)) :
    Option (List (SectionCandidateSet Uuid) × List (Uuid × Option (Record μ))) :=
  (run (step excluded) (.init μ) completions).bind (collect plan)

variable {excluded} {st st' : LoopState μ} {x : SectionPlan × Outcome μ} {o : Outcome μ}
  {completions : List (SectionPlan × Outcome μ)} {plan : List SectionPlan} {k n : Nat}
  {outcomes before : List (Outcome μ)}

/-- The last `k` outcomes are failures. -/
def FailsInARow (k : Nat) (outcomes : List (Outcome μ)) : Prop :=
  ∃ fs, fs <:+ outcomes ∧ fs.length = k ∧ ∀ o ∈ fs, o.Failed

/-- Somewhere four sections in a row fail. -/
def FourInARow (outcomes : List (Outcome μ)) : Prop :=
  ∃ before, before <+: outcomes ∧ FailsInARow 4 before

/-- Somewhere an error that is no LLM error follows on three failures in a row. -/
def ErrorAfterThree (outcomes : List (Outcome μ)) : Prop :=
  ∃ before o, before ++ [o] <+: outcomes ∧ FailsInARow 3 before ∧ o.IsError

/-- The failures in a row after so many before. -/
def tally (n : Nat) (outcomes : List (Outcome μ)) : Nat :=
  outcomes.foldl (fun n o => if o.Failed then n + 1 else 0) n

theorem failsInARow_zero : FailsInARow 0 outcomes := ⟨[], List.nil_suffix, rfl, by simp⟩

theorem failsInARow_concat :
    FailsInARow (k + 1) (outcomes ++ [o]) ↔ o.Failed ∧ FailsInARow k outcomes := by
  constructor
  · rintro ⟨fs, hfs, hlength, hfailed⟩
    obtain rfl | ⟨gs, g, rfl⟩ := fs.eq_nil_or_concat
    · cases hlength
    · rw [List.concat_eq_append] at hfs hlength hfailed
      obtain ⟨pre, hpre⟩ := hfs
      rw [← List.append_assoc] at hpre
      obtain ⟨rfl, hg⟩ := List.append_inj' hpre rfl
      obtain rfl := List.singleton_inj.mp hg
      refine ⟨hfailed g (by simp), gs, ⟨pre, rfl⟩, by simpa using hlength, fun f hf => ?_⟩
      exact hfailed f (List.mem_append_left _ hf)
  · rintro ⟨ho, fs, ⟨pre, rfl⟩, rfl, hfailed⟩
    refine ⟨fs ++ [o], ⟨pre, by rw [List.append_assoc]⟩, by simp, fun f hf => ?_⟩
    obtain hf | hf := List.mem_append.mp hf
    · exact hfailed f hf
    · obtain rfl := List.mem_singleton.mp hf
      exact ho

theorem le_tally_iff : k ≤ tally 0 outcomes ↔ FailsInARow k outcomes := by
  induction outcomes using List.reverseRecOn generalizing k with
  | nil =>
    constructor
    · intro h
      obtain rfl := Nat.le_zero.mp h
      exact failsInARow_zero
    · rintro ⟨fs, hfs, rfl, -⟩
      obtain rfl := List.suffix_nil.mp hfs
      exact Nat.le_refl _
  | append_singleton outcomes o ih =>
    cases k with
    | zero => exact iff_of_true (Nat.zero_le _) failsInARow_zero
    | succ k =>
      rw [failsInARow_concat, ← ih, tally, List.foldl_append]
      by_cases ho : o.Failed
      · simp [ho, tally]
      · simp [ho]

/-- What one section does to the loop. -/
theorem step_eq (excluded : SectionCandidate Uuid → Bool) (st : LoopState μ) (s : SectionPlan)
    (o : Outcome μ) :
    (step excluded st (s, o) = none ∧ o.IsError ∧ 3 ≤ st.consecutiveFailures) ∨
    (¬ (o.IsError ∧ 3 ≤ st.consecutiveFailures) ∧ step excluded st (s, o) = some
      { consecutiveFailures := if o.Failed then st.consecutiveFailures + 1 else 0
        results := st.results ++ [(s.sectionId, ⟨s.sectionId, o.candidates⟩)]
        sectionMeta := st.sectionMeta ++ [(s.sectionId, o.record excluded)] }) := by
  cases o with
  | written candidates facts detail => exact .inr ⟨fun h => h.1, rfl⟩
  | llmError exc facts => exact .inr ⟨fun h => h.1, rfl⟩
  | error exc facts =>
    by_cases hmany : st.consecutiveFailures + 1 ≥ 4
    · refine .inl ⟨?_, trivial, Nat.le_of_succ_le_succ hmany⟩
      simp [step, NarrativeChain.bounded, Outcome.ending, hmany]
    · refine .inr ⟨fun h => hmany (Nat.succ_le_succ h.2), ?_⟩
      simp [step, NarrativeChain.bounded, Outcome.ending, hmany, Outcome.Failed,
        Outcome.candidates]

/-- The loop is aborted where an error comes as the fourth failure or later. -/
theorem run_eq_none_iff : run (step excluded) st completions = none ↔
    ∃ before o, before ++ [o] <+: completions.map Prod.snd ∧
      3 ≤ tally st.consecutiveFailures before ∧ o.IsError := by
  induction completions generalizing st with
  | nil => simp [run]
  | cons x completions ih =>
    obtain ⟨s, o⟩ := x
    rw [run]
    obtain ⟨hstep, herror, hmany⟩ | ⟨hgoes, hstep⟩ := step_eq excluded st s o
    · rw [hstep]
      refine iff_of_true rfl ⟨[], o, ⟨completions.map Prod.snd, rfl⟩, hmany, herror⟩
    · rw [hstep, Option.bind_some, ih]
      constructor
      · rintro ⟨before, o', hpre, hmany, herror⟩
        exact ⟨o :: before, o', List.cons_prefix_cons.mpr ⟨rfl, hpre⟩, hmany, herror⟩
      · rintro ⟨before, o', hpre, hmany, herror⟩
        cases before with
        | nil =>
          obtain ⟨rfl, -⟩ := List.cons_prefix_cons.mp hpre
          exact absurd ⟨herror, hmany⟩ hgoes
        | cons b before =>
          obtain ⟨rfl, hrest⟩ := List.cons_prefix_cons.mp hpre
          exact ⟨before, o', hrest, hmany, herror⟩

/-- A run that is not aborted files one set and one record for every section. -/
theorem run_eq_some (h : run (step excluded) st completions = some st') :
    st'.results = st.results ++ completions.map (fun x =>
      (x.1.sectionId, ⟨x.1.sectionId, x.2.candidates⟩)) ∧
    st'.sectionMeta = st.sectionMeta ++ completions.map (fun x =>
      (x.1.sectionId, x.2.record excluded)) := by
  induction completions generalizing st with
  | nil =>
    obtain rfl := Option.some.inj h
    simp
  | cons x completions ih =>
    obtain ⟨s, o⟩ := x
    obtain ⟨u, hu, h⟩ := Option.bind_eq_some_iff.mp h
    obtain ⟨hresults, hmeta⟩ := ih h
    obtain ⟨hstep, -, -⟩ | ⟨-, hstep⟩ := step_eq excluded st s o
    · rw [hstep] at hu
      cases hu
    · rw [hstep] at hu
      obtain rfl := Option.some.inj hu
      exact ⟨by simp [hresults], by simp [hmeta]⟩

/-- Every section of the plan has its one candidate set, empty if it failed, and a record that
says whether it failed: an exception left it, or no candidate survived. -/
structure Accounted (excluded : SectionCandidate Uuid → Bool) (plan : List SectionPlan)
    (completions : List (SectionPlan × Outcome μ))
    (out : List (SectionCandidateSet Uuid) × List (Uuid × Option (Record μ))) : Prop where
  sets : out.1.map (·.sectionId) = plan.map (·.sectionId)
  records : out.2.map Prod.fst = plan.map (·.sectionId)
  own : ∀ s o, (s, o) ∈ completions →
    (∃ cset ∈ out.1, cset.sectionId = s.sectionId ∧ cset.candidates = o.candidates ∧
      (o.Failed → cset.candidates = [])) ∧
    ∃ r, (s.sectionId, some r) ∈ out.2 ∧
      (r.writeFailed ↔ o.Failed ∨ ∀ c ∈ o.candidates, excluded c)

theorem Outcome.candidates_of_failed (h : o.Failed) : o.candidates = [] := by
  cases o with
  | written candidates facts detail => cases h
  | llmError exc facts => rfl
  | error exc facts => rfl

theorem Outcome.writeFailed_record :
    (o.record excluded).writeFailed ↔ o.Failed ∨ ∀ c ∈ o.candidates, excluded c := by
  cases o with
  | written candidates facts detail =>
    simp only [record, Failed, Outcome.candidates, false_or]
    split
    · rename_i h
      simpa using h
    · rename_i h
      simpa using h
  | llmError exc facts => simp [record, Failed]
  | error exc facts => simp [record, Failed]

/-- The entries of a run read by the ids of the plan. -/
theorem lastFor_completions {α : Type} {g : SectionPlan → Outcome μ → α}
    (hids : (plan.map (·.sectionId)).Nodup) (hall : (completions.map Prod.fst).Perm plan)
    {s : SectionPlan} (h : (s, o) ∈ completions) :
    lastFor s.sectionId (completions.map fun x => (x.1.sectionId, g x.1 x.2)) = some (g s o) := by
  refine (lastFor_eq_some ?_).mpr (List.mem_map.mpr ⟨(s, o), h, rfl⟩)
  have hperm := hall.map (·.sectionId)
  rw [List.map_map] at hperm
  rw [List.map_map]
  exact hperm.nodup_iff.mpr hids

theorem accounted_of_run (hids : (plan.map (·.sectionId)).Nodup)
    (hall : (completions.map Prod.fst).Perm plan)
    (hrun : run (step excluded) (.init μ) completions = some st) :
    ∃ out, collect plan st = some out ∧ Accounted excluded plan completions out := by
  obtain ⟨hresults, hmeta⟩ := run_eq_some hrun
  have hended : ∀ s ∈ plan, ∃ o, (s, o) ∈ completions := by
    intro s hs
    obtain ⟨⟨s', o⟩, hx, rfl⟩ := List.mem_map.mp (hall.mem_iff.mpr hs)
    exact ⟨o, hx⟩
  have hset : ∀ s o, (s, o) ∈ completions →
      lastFor s.sectionId st.results = some ⟨s.sectionId, o.candidates⟩ := by
    intro s o h
    rw [hresults]
    exact lastFor_completions (g := fun s o => (⟨s.sectionId, o.candidates⟩ :
      SectionCandidateSet Uuid)) hids hall h
  have hrecord : ∀ s o, (s, o) ∈ completions →
      lastFor s.sectionId st.sectionMeta = some (o.record excluded) := by
    intro s o h
    rw [hmeta]
    exact lastFor_completions (g := fun _ o => o.record excluded) hids hall h
  have hread : ∀ s ∈ plan, (lastFor s.sectionId st.results).isSome := by
    intro s hs
    obtain ⟨o, ho⟩ := hended s hs
    rw [hset s o ho]
    rfl
  refine ⟨_, by rw [collect, Fallible.mapM_of_isSome hread]; rfl, ?_, ?_, fun s o h => ⟨?_, ?_⟩⟩
  · have hid : ∀ s ∈ plan, (lastFor s.sectionId st.results).map (·.sectionId) =
        some s.sectionId := by
      intro s hs
      obtain ⟨o, ho⟩ := hended s hs
      rw [hset s o ho]
      rfl
    rw [List.map_filterMap, List.filterMap_congr hid, List.filterMap_eq_map']
  · simp
  · have hs : s ∈ plan := hall.mem_iff.mp (List.mem_map_of_mem h)
    refine ⟨_, List.mem_filterMap.mpr ⟨s, hs, hset s o h⟩, rfl, rfl, ?_⟩
    exact Outcome.candidates_of_failed
  · have hs : s ∈ plan := hall.mem_iff.mp (List.mem_map_of_mem h)
    refine ⟨o.record excluded, List.mem_map.mpr ⟨s, hs, ?_⟩, Outcome.writeFailed_record⟩
    rw [hrecord s o h]

theorem writeLoop_eq_none_iff (hids : (plan.map (·.sectionId)).Nodup)
    (hall : (completions.map Prod.fst).Perm plan) :
    writeLoop excluded plan completions = none ↔ ErrorAfterThree (completions.map Prod.snd) := by
  have habort : run (step excluded) (.init μ) completions = none ↔
      ErrorAfterThree (completions.map Prod.snd) := by
    rw [run_eq_none_iff]
    simp only [LoopState.init, le_tally_iff, ErrorAfterThree]
  rw [← habort, writeLoop]
  cases hrun : run (step excluded) (.init μ) completions with
  | none => simp
  | some st =>
    obtain ⟨out, hout, -⟩ := accounted_of_run hids hall hrun
    simp [hout]

theorem fourInARow_of_errorAfterThree (h : ErrorAfterThree outcomes) : FourInARow outcomes := by
  obtain ⟨before, o, hpre, hthree, herror⟩ := h
  refine ⟨before ++ [o], hpre, failsInARow_concat.2 ⟨?_, hthree⟩⟩
  cases o with
  | written candidates facts detail => cases herror
  | llmError exc facts => trivial
  | error exc facts => trivial

/-- The loop is aborted exactly at four failures in a row, and otherwise accounts for every
section, just where some error that is no LLM error comes as the fourth failure or later, if there
are four in a row at all. -/
theorem failures_counted_iff (excluded : SectionCandidate Uuid → Bool) (plan : List SectionPlan)
    (completions : List (SectionPlan × Outcome μ)) (hids : (plan.map (·.sectionId)).Nodup)
    (hall : (completions.map Prod.fst).Perm plan) :
    ((writeLoop excluded plan completions = none ↔ FourInARow (completions.map Prod.snd)) ∧
      ∀ out, writeLoop excluded plan completions = some out →
        Accounted excluded plan completions out) ↔
    (FourInARow (completions.map Prod.snd) → ErrorAfterThree (completions.map Prod.snd)) := by
  have hnone : writeLoop excluded plan completions = none ↔
      ErrorAfterThree (completions.map Prod.snd) := writeLoop_eq_none_iff hids hall
  constructor
  · rintro ⟨habort, -⟩ hfour
    exact hnone.mp (habort.mpr hfour)
  · intro hguard
    refine ⟨⟨fun h => fourInARow_of_errorAfterThree (hnone.mp h),
      fun h => hnone.mpr (hguard h)⟩, fun out hout => ?_⟩
    obtain ⟨st, hrun, hcollect⟩ := Option.bind_eq_some_iff.mp hout
    obtain ⟨out', hout', haccounted⟩ := accounted_of_run hids hall hrun
    obtain rfl := Option.some.inj (hcollect.symm.trans hout')
    exact haccounted

/-- Four sections of one chapter. -/
def fourSections : List SectionPlan :=
  [1, 2, 3, 4].map fun n => NarrativeChain.placed (Outlines.drawn n) 1 n []

/-- The first three end with an LLM error and the last one with `last`. -/
def threeThen (last : Outcome Unit) : List (SectionPlan × Outcome Unit) :=
  fourSections.zip [.llmError [] (), .llmError [] (), .llmError [] (), last]

theorem fourSections_ids : (fourSections.map (·.sectionId)).Nodup := by decide

theorem failures_counted_iff_error :
    writeLoop (fun _ => false) fourSections (threeThen (.error [] ())) = none := by
  have hall : ((threeThen (.error [] ())).map Prod.fst).Perm fourSections := List.Perm.refl _
  have hthree : FailsInARow 3 (List.replicate 3 (Outcome.llmError [] ())) :=
    ⟨_, List.suffix_refl _, rfl, by decide⟩
  have hafter : ErrorAfterThree ((threeThen (.error [] ())).map Prod.snd) :=
    ⟨_, .error [] (), List.prefix_refl _, hthree, trivial⟩
  exact ((failures_counted_iff (fun _ => false) fourSections _ fourSections_ids hall).2
    fun _ => hafter).1.2 (fourInARow_of_errorAfterThree hafter)

/-- Four LLM errors in a row do not stop the loop. -/
theorem four_llmErrors :
    ¬ ∀ (plan : List SectionPlan) (completions : List (SectionPlan × Outcome Unit)),
      (plan.map (·.sectionId)).Nodup → (completions.map Prod.fst).Perm plan →
      (writeLoop (fun _ => false) plan completions = none ↔
        FourInARow (completions.map Prod.snd)) := by
  intro h
  have hall : ((threeThen (.llmError [] ())).map Prod.fst).Perm fourSections := List.Perm.refl _
  have hfour : FourInARow ((threeThen (.llmError [] ())).map Prod.snd) :=
    ⟨_, List.prefix_refl _, _, List.suffix_refl _, rfl, by decide⟩
  have habort := (h fourSections _ fourSections_ids hall).2 hfour
  obtain ⟨before, o, hpre, -, herror⟩ := (writeLoop_eq_none_iff fourSections_ids hall).1 habort
  have hcalm : ∀ o ∈ (threeThen (.llmError [] ())).map Prod.snd, ¬ o.IsError := by
    intro o ho
    have heq : o = .llmError [] () := by
      simpa [threeThen, fourSections] using ho
    rw [heq]
    exact id
  exact hcalm o (hpre.subset (List.mem_append_right _ (List.mem_singleton.mpr rfl))) herror

end RownRg.FailureCount

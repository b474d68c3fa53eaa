import RownRg.Generation.Planner
import RownRg.Lib.Fallible
import RownRg.Lib.Runs
import RownRg.Sections.Store

/-! The narrative chain: sections that wait for those they follow, with a bounded number at work. -/

open PyText RownRg.Sections

namespace RownRg.NarrativeChain

inductive ChainMode where
  | chapter | full
  deriving DecidableEq

variable {mode : ChainMode} {order : List SectionPlan} {i j k n size : Nat} {s t : SectionPlan}
  {d : Uuid}

/-- Where an id stands in the plan; of several places the last one counts. -/
def idxById (order : List SectionPlan) (id : Uuid) : Nat :=
  (lastFor id (order.zipIdx.map fun x => (x.1.sectionId, x.2))).getD 0

def byLabel (order : List SectionPlan) (label : Nat × Nat) : Option Uuid :=
  lastFor label (order.map fun s => ((s.chapterNumber, s.sectionNumber), s.sectionId))

/-- The section that the chain leads on from. -/
def chainPrev (mode : ChainMode) (order : List SectionPlan) (i : Nat) (s : SectionPlan) :
    Option SectionPlan :=
  match mode with
  | .full => if i > 0 then order[i - 1]? else none
  | .chapter => (order.take i).reverse.find? fun t => t.chapterNumber = s.chapterNumber

def refTargets (order : List SectionPlan) (ref : BuildsOn.BuildsOnRef) : List SectionPlan :=
  match ref.sectionNumber with
  | none => order.filter fun t => t.chapterNumber = ref.chapter
  | some n => order.filter fun t => byLabel order (ref.chapter, n) = some t.sectionId

/-- What a section waits for; a reference that leads forward is not waited for. -/
def depsOf (mode : ChainMode) (order : List SectionPlan) (s : SectionPlan) : List Uuid :=
  let i := idxById order s.sectionId
  let deps := (chainPrev mode order i s).toList.map (·.sectionId) ++
    (s.buildsOn.filterMap BuildsOn.parseRef).flatMap fun ref =>
      ((refTargets order ref).map (·.sectionId)).filter fun id => idxById order id < i
  deps.eraseDups.mergeSort fun d d' => idxById order d ≤ idxById order d'

/-- How the work on a section ends. -/
inductive Ending where
  | written (candidates : List (SectionCandidate Uuid))
  | llmError
  | error
  | cancelled

/-- The candidates of a section; `none` where an exception left it. -/
abbrev Result := Option (SectionCandidateSet Uuid)

/-- The failures in a row so far, and what becomes of the section; the fourth stops the run. -/
def bounded (s : SectionPlan) (failures : Nat) : Ending → Nat × Result
  | .written candidates => (0, some ⟨s.sectionId, candidates⟩)
  | .llmError => (failures + 1, some ⟨s.sectionId, []⟩)
  | .error => (failures + 1, if failures + 1 ≥ 4 then none else some ⟨s.sectionId, []⟩)
  | .cancelled => (failures, none)

/-- Where the task of a section stands. -/
inductive Phase where
  | waiting (rest : List Uuid)
  | processing
  | releasing (result : Result)
  | signalling (result : Result)
  | finished (result : Result)

/-- What the tasks share: the events set, the free slots, the failures in a row, and whether the
tasks were cancelled because one of them raised. -/
structure Shared where
  done : List Uuid
  free : Nat
  failures : Nat
  cancelled : Bool

structure Chain where
  phases : List Phase
  shared : Shared

inductive Action where
  | wake
  | acquire
  | process (ending : Ending)
  | release
  | signal
  | cancel

inductive Event where
  | task (j : Nat) (a : Action)
  | cancelAll

/-- What a task does next; waiting tasks hold no slot. -/
def act (s : SectionPlan) (c : Shared) : Action → Phase → Option (Phase × Shared)
  | .wake, .waiting (d :: rest) =>
    if d ∈ c.done ∧ c.cancelled = false then some (.waiting rest, c) else none
  | .acquire, .waiting [] =>
    if 0 < c.free ∧ c.cancelled = false then some (.processing, { c with free := c.free - 1 })
    else none
  | .process ending, .processing =>
    if c.cancelled then none
    else some (.releasing (bounded s c.failures ending).2,
      { c with failures := (bounded s c.failures ending).1 })
  | .release, .releasing result => some (.signalling result, { c with free := c.free + 1 })
  | .signal, .signalling result =>
    some (.finished result, { c with done := s.sectionId :: c.done })
  | .cancel, .waiting _ => if c.cancelled then some (.signalling none, c) else none
  | .cancel, .processing => if c.cancelled then some (.releasing none, c) else none
  | _, _ => none

def Phase.raised : Phase → Bool
  | .finished none => true
  | _ => false

def step (order : List SectionPlan) (c : Chain) : Event → Option Chain
  | .task j a => do
    let s ← order[j]?
    let phase ← c.phases[j]?
    let x ← act s c.shared a phase
    return ⟨c.phases.set j x.1, x.2⟩
  | .cancelAll =>
    if c.phases.any (·.raised) then some { c with shared := { c.shared with cancelled := true } }
    else none

/-- All tasks wait; there is at least one slot. -/
def start (mode : ChainMode) (size : Nat) (order : List SectionPlan) : Chain where
  phases := order.map fun s => .waiting (depsOf mode order s)
  shared := ⟨[], max 1 size, 0, false⟩

def Phase.result : Phase → Result
  | .finished result => result
  | _ => none

/-- The results of the tasks, filed under the ids and read in the order of the plan. -/
def collect (order : List SectionPlan) (c : Chain) : Option (List (SectionCandidateSet Uuid)) := do
  let results ← c.phases.mapM (·.result)
  order.mapM fun s => lastFor s.sectionId ((order.map (·.sectionId)).zip results)

/-! What the chain promises. -/

def Finished (c : Chain) (j : Nat) : Prop := ∃ result, c.phases[j]? = some (.finished result)

/-- The section that stands before another one in its chapter, or in the document. -/
def Precedes (order : List SectionPlan) (i j : Nat) : ChainMode → Prop
  | .full => i + 1 = j
  | .chapter => i < j ∧ (order[i]?).map (·.chapterNumber) = (order[j]?).map (·.chapterNumber) ∧
    ∀ k, i < k → k < j → (order[k]?).map (·.chapterNumber) ≠ (order[j]?).map (·.chapterNumber)

/-- A reference names one section, or all of a chapter. -/
def Names (ref : BuildsOn.BuildsOnRef) (t : SectionPlan) : Prop :=
  ref.chapter = t.chapterNumber ∧ ∀ n ∈ ref.sectionNumber, n = t.sectionNumber

/-- A section builds on an earlier one. -/
def BuildsOnEarlier (order : List SectionPlan) (i j : Nat) : Prop :=
  i < j ∧ ∃ t ∈ order[i]?, ∃ s ∈ order[j]?, ∃ raw ∈ s.buildsOn, ∃ ref ∈ BuildsOn.parseRef raw,
    Names ref t

/-- Whatever the tasks do, the chain runs on, in order, and hands its results back in order. -/
structure Sound (mode : ChainMode) (size : Nat) (order : List SectionPlan) : Prop where
  runsOn : ∀ es c, Runs.run (step order) (start mode size order) es = some c →
    (∃ j < order.length, ¬ Finished c j) → ∃ j a, (step order c (.task j a)).isSome
  inOrder : ∀ es c, Runs.run (step order) (start mode size order) es = some c →
    ∀ j, (step order c (.task j .acquire)).isSome →
      ∀ i, Precedes order i j mode ∨ BuildsOnEarlier order i j → Finished c i
  results : ∀ es c, Runs.run (step order) (start mode size order) es = some c →
    ∀ results, collect order c = some results →
      c.phases = results.map (fun r => .finished (some r)) ∧
        results.map (·.sectionId) = order.map (·.sectionId)

/-! The sections that a section waits for. -/

theorem idxById_eq (hids : (order.map (·.sectionId)).Nodup) (h : order[j]? = some s) :
    idxById order s.sectionId = j := by
  have hkeys : ((order.zipIdx.map fun x => (x.1.sectionId, x.2)).map Prod.fst).Nodup := by
    have hmap : (order.zipIdx.map fun x => (x.1.sectionId, x.2)).map Prod.fst =
        (order.zipIdx.map Prod.fst).map (·.sectionId) := by
      rw [List.map_map, List.map_map]
      rfl
    rw [hmap, List.zipIdx_map_fst]
    exact hids
  have hmem : (s.sectionId, j) ∈ order.zipIdx.map fun x => (x.1.sectionId, x.2) :=
    List.mem_map.mpr ⟨(s, j), List.mem_zipIdx_iff_getElem?.mpr h, rfl⟩
  rw [idxById, (lastFor_eq_some hkeys).mpr hmem]
  rfl

theorem mem_depsOf : d ∈ depsOf mode order s ↔
    (∃ t ∈ chainPrev mode order (idxById order s.sectionId) s, t.sectionId = d) ∨
    ∃ raw ∈ s.buildsOn, ∃ ref ∈ BuildsOn.parseRef raw, ∃ t ∈ refTargets order ref,
      t.sectionId = d ∧ idxById order d < idxById order s.sectionId := by
  unfold depsOf
  simp only [List.mem_mergeSort, List.mem_eraseDups, List.mem_append, List.mem_map,
    Option.mem_toList, List.mem_flatMap, List.mem_filterMap, List.mem_filter, decide_eq_true_eq,
    Option.mem_def]
  refine or_congr .rfl ⟨?_, ?_⟩
  · rintro ⟨ref, ⟨raw, hraw, href⟩, ⟨t, ht, rfl⟩, hlt⟩
    exact ⟨raw, hraw, ref, href, t, ht, rfl, hlt⟩
  · rintro ⟨raw, hraw, ref, href, t, ht, rfl, hlt⟩
    exact ⟨ref, ⟨raw, hraw, href⟩, ⟨t, ht, rfl⟩, hlt⟩

theorem chainPrev_earlier (h : chainPrev mode order j s = some t) : ∃ i < j, order[i]? = some t := by
  cases mode with
  | full =>
    simp only [chainPrev] at h
    split at h
    · exact ⟨j - 1, by omega, h⟩
    · cases h
  | chapter =>
    have hmem := List.mem_of_find?_eq_some h
    obtain ⟨i, hi⟩ := List.mem_iff_getElem?.mp (List.mem_reverse.mp hmem)
    rw [List.getElem?_take] at hi
    split at hi
    · exact ⟨i, ‹_›, hi⟩
    · cases hi

theorem mem_order_of_refTargets {ref : BuildsOn.BuildsOnRef} (h : t ∈ refTargets order ref) :
    t ∈ order := by
  unfold refTargets at h
  split at h <;> exact (List.mem_filter.mp h).1

/-- A section waits for earlier sections only. -/
theorem deps_earlier (hids : (order.map (·.sectionId)).Nodup) (hj : order[j]? = some s)
    (hd : d ∈ depsOf mode order s) : ∃ i < j, ∃ t, order[i]? = some t ∧ t.sectionId = d := by
  rw [mem_depsOf, idxById_eq hids hj] at hd
  rcases hd with ⟨t, ht, rfl⟩ | ⟨raw, -, ref, -, t, ht, rfl, hlt⟩
  · obtain ⟨i, hi, ht⟩ := chainPrev_earlier ht
    exact ⟨i, hi, t, ht, rfl⟩
  · obtain ⟨i, hi⟩ := List.mem_iff_getElem?.mp (mem_order_of_refTargets ht)
    rw [idxById_eq hids hi] at hlt
    exact ⟨i, hlt, t, hi, rfl⟩

theorem chainPrev_of_precedes (hi : order[i]? = some t) (hj : order[j]? = some s)
    (h : Precedes order i j mode) : chainPrev mode order j s = some t := by
  cases mode with
  | full =>
    obtain rfl : i + 1 = j := h
    simpa [chainPrev] using hi
  | chapter =>
    obtain ⟨hij, hsame, hbetween⟩ := h
    simp only [hi, hj, Option.map_some, Option.some.injEq] at hsame hbetween
    have hlen : j ≤ order.length := (List.getElem?_eq_some_iff.mp hj).1.le
    simp only [chainPrev]
    rw [List.find?_eq_some_iff_getElem]
    refine ⟨by simpa using hsame, j - 1 - i, by simp; omega, ?_, ?_⟩
    · rw [List.getElem_reverse, List.getElem_take]
      obtain ⟨hlt, rfl⟩ := List.getElem?_eq_some_iff.mp hi
      congr 1
      simp only [List.length_take]
      omega
    · intro k hk
      rw [List.getElem_reverse, List.getElem_take]
      have hne := hbetween (j - 1 - k) (by omega) (by omega)
      have hmin : min j order.length = j := by omega
      rw [List.getElem?_eq_getElem (by omega)] at hne
      simpa [hmin] using hne

theorem mem_refTargets (hpositions : (order.map fun p => (p.chapterNumber, p.sectionNumber)).Nodup)
    {ref : BuildsOn.BuildsOnRef} (ht : t ∈ order) (h : Names ref t) : t ∈ refTargets order ref := by
  obtain ⟨hchapter, hsection⟩ := h
  unfold refTargets
  split
  · simpa [ht] using hchapter.symm
  · rename_i n hn
    obtain rfl := hsection n hn
    have hkeys : ((order.map fun s => ((s.chapterNumber, s.sectionNumber), s.sectionId)).map
        Prod.fst).Nodup := by simpa [Function.comp_def] using hpositions
    rw [List.mem_filter, decide_eq_true_eq, hchapter]
    exact ⟨ht, (lastFor_eq_some hkeys).mpr (List.mem_map.mpr ⟨t, ht, rfl⟩)⟩

/-- A section waits for the one before it and for the earlier ones it builds on. -/
theorem mem_depsOf_of_earlier (hids : (order.map (·.sectionId)).Nodup)
    (hpositions : (order.map fun p => (p.chapterNumber, p.sectionNumber)).Nodup)
    (hi : order[i]? = some t) (hj : order[j]? = some s)
    (h : Precedes order i j mode ∨ BuildsOnEarlier order i j) :
    t.sectionId ∈ depsOf mode order s := by
  rw [mem_depsOf, idxById_eq hids hj]
  rcases h with h | ⟨hij, t', ht', s', hs', raw, hraw, ref, href, hnames⟩
  · exact .inl ⟨t, chainPrev_of_precedes hi hj h, rfl⟩
  · obtain rfl : t' = t := by simpa [hi, eq_comm] using ht'
    obtain rfl : s' = s := by simpa [hj, eq_comm] using hs'
    refine .inr ⟨raw, hraw, ref, href, t', ?_, rfl, ?_⟩
    · exact mem_refTargets hpositions (List.mem_of_getElem? hi) hnames
    · rw [idxById_eq hids hi]
      exact hij

/-! What holds of every run. -/

variable {c c' : Chain} {sh sh' : Shared} {a : Action} {e : Event} {ph ph' : Phase} {r : Result}

/-- A task that has its slot and has not given it back. -/
def Phase.holds : Phase → Bool
  | .processing => true
  | .releasing _ => true
  | _ => false

/-- The result that a task has come to, signalled or not. -/
def Phase.ended : Phase → Result
  | .releasing r => r
  | .signalling r => r
  | .finished r => r
  | _ => none

/-- All that a task can do. -/
theorem act_cases (h : act s sh a ph = some (ph', sh')) :
    (∃ d rest, ph = .waiting (d :: rest) ∧ d ∈ sh.done ∧ ph' = .waiting rest ∧ sh' = sh) ∨
    (ph = .waiting [] ∧ a = .acquire ∧ 0 < sh.free ∧ ph' = .processing ∧
      sh' = { sh with free := sh.free - 1 }) ∨
    (∃ ending, ph = .processing ∧ ph' = .releasing (bounded s sh.failures ending).2 ∧
      sh' = { sh with failures := (bounded s sh.failures ending).1 }) ∨
    (∃ r, ph = .releasing r ∧ ph' = .signalling r ∧ sh' = { sh with free := sh.free + 1 }) ∨
    (∃ r, ph = .signalling r ∧ ph' = .finished r ∧
      sh' = { sh with done := s.sectionId :: sh.done }) ∨
    (∃ rest, ph = .waiting rest ∧ ph' = .signalling none ∧ sh' = sh) ∨
    (ph = .processing ∧ ph' = .releasing none ∧ sh' = sh) := by
  unfold act at h
  split at h
  · split at h <;> simp_all
  · split at h <;> simp_all
  · split at h
    · cases h
    · obtain ⟨rfl, rfl⟩ := by simpa using h
      exact .inr (.inr (.inl ⟨_, rfl, rfl, rfl⟩))
  · simp_all
  · simp_all
  · split at h <;> simp_all
  · split at h <;> simp_all
  · cases h

/-- All that can happen: one task does something, or the tasks are cancelled. -/
theorem step_cases (h : step order c e = some c') :
    (∃ j a s ph ph' sh', e = .task j a ∧ order[j]? = some s ∧ c.phases[j]? = some ph ∧
      act s c.shared a ph = some (ph', sh') ∧ c' = ⟨c.phases.set j ph', sh'⟩) ∨
    c' = { c with shared := { c.shared with cancelled := true } } := by
  cases e with
  | task j a =>
    simp only [step, Option.bind_eq_bind, Option.bind_eq_some_iff, Option.pure_def,
      Option.some.injEq] at h
    obtain ⟨s, hs, ph, hph, ⟨ph', sh'⟩, hact, rfl⟩ := h
    exact .inl ⟨j, a, s, ph, ph', sh', rfl, hs, hph, hact, rfl⟩
  | cancelAll =>
    simp only [step] at h
    split at h
    · exact .inr (by simpa using h.symm)
    · cases h

/-- The tasks stand as the shared state says. -/
structure Inv (mode : ChainMode) (size : Nat) (order : List SectionPlan) (c : Chain) : Prop where
  length : c.phases.length = order.length
  waits : ∀ (j : Nat) s rest, order[j]? = some s → c.phases[j]? = some (.waiting rest) →
    ∀ d, (d ∈ rest → d ∈ depsOf mode order s) ∧
      (d ∈ depsOf mode order s → d ∈ rest ∨ d ∈ c.shared.done)
  signalled : ∀ d, d ∈ c.shared.done ↔ ∃ (j : Nat) (s : SectionPlan), order[j]? = some s ∧ s.sectionId = d ∧ Finished c j
  results : ∀ (j : Nat) s ph, order[j]? = some s → c.phases[j]? = some ph →
    ∀ result ∈ ph.ended, result.sectionId = s.sectionId
  slots : c.shared.free + c.phases.countP (·.holds) = max 1 size

theorem inv_start : Inv mode size order (start mode size order) where
  length := by simp [start]
  waits j s rest hs hrest d := by
    have hrest : depsOf mode order s = rest := by simpa [start, hs] using hrest
    exact ⟨fun hd => hrest ▸ hd, fun hd => .inl (hrest ▸ hd)⟩
  signalled d := by simp [start, Finished]
  results j s ph hs hph result hresult := by
    obtain rfl : .waiting (depsOf mode order s) = ph := by simpa [start, hs] using hph
    cases hresult
  slots := by simp [start, List.countP_map, Phase.holds, Function.comp_def]

theorem bounded_sectionId {failures : Nat} {ending : Ending} {result : SectionCandidateSet Uuid}
    (h : (bounded s failures ending).2 = some result) : result.sectionId = s.sectionId := by
  cases ending with
  | written candidates =>
    obtain rfl := by simpa [bounded] using h
    rfl
  | llmError =>
    obtain rfl := by simpa [bounded] using h
    rfl
  | error =>
    simp only [bounded] at h
    split at h
    · cases h
    · obtain rfl := by simpa using h
      rfl
  | cancelled => cases h

/-- A task ends with candidates of its own section. -/
theorem ended_act (h : act s sh a ph = some (ph', sh'))
    (hended : ∀ result ∈ ph.ended, result.sectionId = s.sectionId) :
    ∀ result ∈ ph'.ended, result.sectionId = s.sectionId := by
  rcases act_cases h with ⟨d, rest, rfl, -, rfl, rfl⟩ | ⟨rfl, -, -, rfl, rfl⟩ |
    ⟨ending, rfl, rfl, rfl⟩ | ⟨r, rfl, rfl, rfl⟩ | ⟨r, rfl, rfl, rfl⟩ | ⟨rest, rfl, rfl, rfl⟩ |
    ⟨rfl, rfl, rfl⟩
  · exact hended
  · exact hended
  · exact fun result hresult => bounded_sectionId hresult
  · exact hended
  · exact hended
  · exact hended
  · exact hended

/-- A slot is free or held by a task. -/
theorem slots_act (h : act s sh a ph = some (ph', sh')) :
    sh'.free + (if ph'.holds then 1 else 0) = sh.free + (if ph.holds then 1 else 0) := by
  rcases act_cases h with ⟨d, rest, rfl, -, rfl, rfl⟩ | ⟨rfl, -, hfree, rfl, rfl⟩ |
    ⟨ending, rfl, rfl, rfl⟩ | ⟨r, rfl, rfl, rfl⟩ | ⟨r, rfl, rfl, rfl⟩ | ⟨rest, rfl, rfl, rfl⟩ |
    ⟨rfl, rfl, rfl⟩
  all_goals simp [Phase.holds]
  omega

/-- An event is set by the task of its section, and stays set. -/
theorem done_act (h : act s sh a ph = some (ph', sh')) (d : Uuid) :
    d ∈ sh'.done ↔ d ∈ sh.done ∨ s.sectionId = d ∧ (∃ r, ph' = .finished r) := by
  rcases act_cases h with ⟨d, rest, rfl, -, rfl, rfl⟩ | ⟨rfl, -, hfree, rfl, rfl⟩ |
    ⟨ending, rfl, rfl, rfl⟩ | ⟨r, rfl, rfl, rfl⟩ | ⟨r, rfl, rfl, rfl⟩ | ⟨rest, rfl, rfl, rfl⟩ |
    ⟨rfl, rfl, rfl⟩
  all_goals simp [or_comm, eq_comm]

theorem not_finished_act (h : act s sh a ph = some (ph', sh')) : ph ≠ .finished r := by
  rcases act_cases h with ⟨d, rest, rfl, -, rfl, rfl⟩ | ⟨rfl, -, hfree, rfl, rfl⟩ |
    ⟨ending, rfl, rfl, rfl⟩ | ⟨r, rfl, rfl, rfl⟩ | ⟨r, rfl, rfl, rfl⟩ | ⟨rest, rfl, rfl, rfl⟩ |
    ⟨rfl, rfl, rfl⟩
  all_goals simp

/-- What a task still waits for, it waited for before or it is set by now. -/
theorem waiting_act {rest : List Uuid} (h : act s sh a ph = some (.waiting rest, sh')) :
    ∃ d, ph = .waiting (d :: rest) ∧ d ∈ sh.done ∧ sh' = sh := by
  rcases act_cases h with ⟨d, rest', rfl, hd, heq, rfl⟩ | ⟨-, -, -, heq, -⟩ | ⟨_, -, heq, -⟩ |
    ⟨_, -, heq, -⟩ | ⟨_, -, heq, -⟩ | ⟨_, -, heq, -⟩ | ⟨-, heq, -⟩
  · obtain rfl : rest = rest' := by simpa using heq
    exact ⟨d, rfl, hd, rfl⟩
  all_goals cases heq

theorem getElem?_setPhase (h : c.phases[j]? = some ph) :
    (c.phases.set j ph')[k]? = if k = j then some ph' else c.phases[k]? := by
  obtain ⟨hlt, -⟩ := List.getElem?_eq_some_iff.mp h
  rw [List.getElem?_set]
  by_cases hk : k = j
  · subst hk
    simp [hlt]
  · simp [hk, Ne.symm hk]

theorem finished_act (h : act s sh a ph = some (ph', sh')) (hph : c.phases[j]? = some ph) :
    Finished ⟨c.phases.set j ph', sh'⟩ k ↔
      Finished c k ∨ k = j ∧ ∃ r, ph' = .finished r := by
  simp only [Finished, getElem?_setPhase hph]
  by_cases hk : k = j
  · subst hk
    simp [hph, not_finished_act h]
  · simp [hk]

/-- Every step keeps the tasks in line. -/
theorem inv_step (h : step order c e = some c') (hinv : Inv mode size order c) :
    Inv mode size order c' := by
  rcases step_cases h with ⟨j, a, s, ph, ph', sh', -, hs, hph, hact, rfl⟩ | rfl
  · constructor
    · simpa using hinv.length
    · intro k s' rest hs' hrest d
      rw [getElem?_setPhase hph] at hrest
      split at hrest
      · subst k
        obtain rfl : s = s' := by simpa [hs] using hs'
        obtain rfl : ph' = .waiting rest := by simpa using hrest
        obtain ⟨d', rfl, hd', rfl⟩ := waiting_act hact
        have hwaits := hinv.waits j s _ hs hph d
        refine ⟨fun hd => hwaits.1 (by simp [hd]), fun hd => ?_⟩
        rcases hwaits.2 hd with hd | hd
        · rcases List.mem_cons.mp hd with rfl | hd
          · exact .inr hd'
          · exact .inl hd
        · exact .inr hd
      · have hwaits := hinv.waits k s' rest hs' hrest d
        refine ⟨hwaits.1, fun hd => (hwaits.2 hd).imp_right fun hd => ?_⟩
        exact (done_act hact d).mpr (.inl hd)
    · intro d
      rw [done_act hact, hinv.signalled]
      simp only [finished_act hact hph]
      constructor
      · rintro (⟨k, s', hs', hid, hfin⟩ | ⟨hid, hfin⟩)
        · exact ⟨k, s', hs', hid, .inl hfin⟩
        · exact ⟨j, s, hs, hid, .inr ⟨rfl, hfin⟩⟩
      · rintro ⟨k, s', hs', hid, hfin | ⟨rfl, hfin⟩⟩
        · exact .inl ⟨k, s', hs', hid, hfin⟩
        · obtain rfl : s = s' := by simpa [hs] using hs'
          exact .inr ⟨hid, hfin⟩
    · intro k s' ph₀ hs' hph₀
      rw [getElem?_setPhase hph] at hph₀
      split at hph₀
      · subst k
        obtain rfl : s = s' := by simpa [hs] using hs'
        obtain rfl : ph' = ph₀ := by simpa using hph₀
        exact ended_act hact (hinv.results j s ph hs hph)
      · exact hinv.results k s' ph₀ hs' hph₀
    · obtain ⟨hlt, rfl⟩ := List.getElem?_eq_some_iff.mp hph
      have hslots := slots_act hact
      have hle : (if (c.phases[j]).holds then 1 else 0) ≤ c.phases.countP (·.holds) := by
        split
        · exact List.countP_pos_iff.mpr ⟨_, List.getElem_mem hlt, ‹_›⟩
        · exact Nat.zero_le _
      have hall := hinv.slots
      simp only [List.countP_set hlt]
      omega
  · exact ⟨hinv.length, hinv.waits, hinv.signalled, hinv.results, hinv.slots⟩

theorem inv_run {es : List Event} (h : Runs.run (step order) (start mode size order) es = some c) :
    Inv mode size order c :=
  Runs.invariant_run (fun _ _ _ h => inv_step h) inv_start h

/-! What the chain promises. -/

/-- As long as a section is unfinished some task can go on. -/
theorem enabled (hids : (order.map (·.sectionId)).Nodup) (hinv : Inv mode size order c)
    (hj : j < order.length) (hnot : ¬ Finished c j) : ∃ j a, (step order c (.task j a)).isSome := by
  have hgo : ∀ (k : Nat) s ph a, order[k]? = some s → c.phases[k]? = some ph →
      (act s c.shared a ph).isSome → ∃ j a, (step order c (.task j a)).isSome := by
    intro k s ph a hs hph hact
    obtain ⟨x, hx⟩ := Option.isSome_iff_exists.mp hact
    exact ⟨k, a, by simp [step, hs, hph, hx]⟩
  induction j using Nat.strong_induction_on with
  | _ j ih =>
    have hs : order[j]? = some order[j] := List.getElem?_eq_getElem hj
    have hlt : j < c.phases.length := hinv.length ▸ hj
    have hph : c.phases[j]? = some c.phases[j] := List.getElem?_eq_getElem hlt
    generalize hgen : c.phases[j] = ph at hph
    cases hcancelled : c.shared.cancelled with
    | true =>
      cases ph with
      | waiting rest => exact hgo j _ _ .cancel hs hph (by simp [act, hcancelled])
      | processing => exact hgo j _ _ .cancel hs hph (by simp [act, hcancelled])
      | releasing r => exact hgo j _ _ .release hs hph rfl
      | signalling r => exact hgo j _ _ .signal hs hph rfl
      | finished r => exact absurd ⟨r, hph⟩ hnot
    | false =>
      cases ph with
      | waiting rest =>
        cases rest with
        | cons d rest =>
          -- what it waits for stands before it
          have hd : d ∈ depsOf mode order order[j] := (hinv.waits j _ _ hs hph d).1 (by simp)
          obtain ⟨i, hij, t, ht, hid⟩ := deps_earlier hids hs hd
          by_cases hfin : Finished c i
          · have hdone : d ∈ c.shared.done := (hinv.signalled d).mpr ⟨i, t, ht, hid, hfin⟩
            exact hgo j _ _ .wake hs hph (by simp [act, hdone, hcancelled])
          · exact ih i hij (by omega) hfin
        | nil =>
          by_cases hfree : 0 < c.shared.free
          · exact hgo j _ _ .acquire hs hph (by simp [act, hfree, hcancelled])
          · -- all slots are held
            have hslots := hinv.slots
            obtain ⟨ph', hmem, hholds⟩ := List.countP_pos_iff.mp
              (show 0 < c.phases.countP (·.holds) by omega)
            obtain ⟨k, hk⟩ := List.mem_iff_getElem?.mp hmem
            have hklt : k < order.length := hinv.length ▸ (List.getElem?_eq_some_iff.mp hk).1
            have hks : order[k]? = some order[k] := List.getElem?_eq_getElem hklt
            cases ph' with
            | processing =>
              exact hgo k _ _ (.process .llmError) hks hk (by simp [act, hcancelled])
            | releasing r => exact hgo k _ _ .release hks hk rfl
            | _ => cases hholds
      | processing => exact hgo j _ _ (.process .llmError) hs hph (by simp [act, hcancelled])
      | releasing r => exact hgo j _ _ .release hs hph rfl
      | signalling r => exact hgo j _ _ .signal hs hph rfl
      | finished r => exact absurd ⟨r, hph⟩ hnot

theorem waiting_of_acquire (h : (act s sh .acquire ph).isSome) : ph = .waiting [] := by
  unfold act at h
  split at h <;> simp_all

/-- A section that gets its slot has waited for all it had to. -/
theorem finished_of_acquire (hids : (order.map (·.sectionId)).Nodup)
    (hpositions : (order.map fun p => (p.chapterNumber, p.sectionNumber)).Nodup)
    (hinv : Inv mode size order c) (hstep : (step order c (.task j .acquire)).isSome)
    (h : Precedes order i j mode ∨ BuildsOnEarlier order i j) : Finished c i := by
  obtain ⟨s, hs, hact⟩ : ∃ s, order[j]? = some s ∧ c.phases[j]? = some (.waiting []) := by
    simp only [step] at hstep
    cases hs : order[j]? with
    | none => simp [hs] at hstep
    | some s =>
      cases hph : c.phases[j]? with
      | none => simp [hs, hph] at hstep
      | some ph =>
        refine ⟨s, rfl, ?_⟩
        have hact : (act s c.shared .acquire ph).isSome := by
          cases hact : act s c.shared .acquire ph with
          | none => simp [hs, hph, hact] at hstep
          | some x => rfl
        rw [waiting_of_acquire hact]
  have hij : i < j := by
    rcases h with h | h
    · cases mode with
      | full =>
        have heq : i + 1 = j := h
        omega
      | chapter => exact h.1
    · exact h.1
  have hjlen : j < order.length := (List.getElem?_eq_some_iff.mp hs).1
  have ht : order[i]? = some order[i] := List.getElem?_eq_getElem (by omega)
  have hd := mem_depsOf_of_earlier hids hpositions ht hs h
  rcases (hinv.waits j s [] hs hact _).2 hd with hd | hd
  · cases hd
  · obtain ⟨k, s', hs', hid, hfin⟩ := (hinv.signalled _).mp hd
    have hk : k = i := by rw [← idxById_eq hids hs', ← idxById_eq hids ht, hid]
    exact hk ▸ hfin

theorem result_eq_some {result : SectionCandidateSet Uuid} (h : ph.result = some result) :
    ph = .finished (some result) := by
  cases ph with
  | finished r => exact congrArg _ h
  | _ => cases h

/-- The results of the tasks come back in the order of the plan. -/
theorem collect_eq_some (hids : (order.map (·.sectionId)).Nodup) (hinv : Inv mode size order c)
    {results : List (SectionCandidateSet Uuid)} (h : collect order c = some results) :
    c.phases = results.map (fun r => .finished (some r)) ∧
      results.map (·.sectionId) = order.map (·.sectionId) := by
  obtain ⟨rs, hrs, hread⟩ := Option.bind_eq_some_iff.mp h
  rw [Fallible.mapM_eq_some] at hrs hread
  have hphases : c.phases = rs.map fun r => .finished (some r) := by
    refine List.ext_getElem? fun j => ?_
    have hj : (c.phases[j]?).map (·.result) = (rs[j]?).map some := by
      simpa using congrArg (·[j]?) hrs
    cases hr : rs[j]? with
    | none => simpa [hr] using hj
    | some r =>
      rw [hr] at hj
      obtain ⟨ph, hph, hresult⟩ := Option.map_eq_some_iff.mp hj
      rw [hph, result_eq_some hresult, List.getElem?_map, hr]
      rfl
  have hlen : rs.length = order.length := by simpa [hphases] using hinv.length
  have hkeys : (((order.map (·.sectionId)).zip rs).map Prod.fst).Nodup := by
    rw [List.map_fst_zip (by simp [hlen])]
    exact hids
  obtain rfl : rs = results := by
    refine List.map_injective_iff.mpr (fun _ _ h => Option.some.inj h) (hread ▸ ?_)
    refine List.ext_getElem? fun j => ?_
    by_cases hj : j < order.length
    · have hs : order[j]? = some order[j] := List.getElem?_eq_getElem hj
      obtain ⟨r, hr⟩ : ∃ r, rs[j]? = some r := ⟨_, List.getElem?_eq_getElem (hlen ▸ hj)⟩
      have hmem : (order[j].sectionId, r) ∈ (order.map (·.sectionId)).zip rs :=
        List.mem_iff_getElem?.mpr ⟨j, by simp [List.getElem?_zip_eq_some, hs, hr]⟩
      simp [hs, hr, (lastFor_eq_some hkeys).mpr hmem]
    · simp [hlen, Nat.not_lt.mp hj]
  refine ⟨hphases, List.ext_getElem? fun j => ?_⟩
  by_cases hj : j < order.length
  · have hs : order[j]? = some order[j] := List.getElem?_eq_getElem hj
    obtain ⟨r, hr⟩ : ∃ r, rs[j]? = some r := ⟨_, List.getElem?_eq_getElem (hlen ▸ hj)⟩
    have hph : c.phases[j]? = some (.finished (some r)) := by simp [hphases, hr]
    simp [hs, hr, hinv.results j _ _ hs hph _ rfl]
  · simp [hlen, Nat.not_lt.mp hj]

/-- The chain is sound for every plan that names no section and no position twice. -/
theorem sound_of_distinct (mode : ChainMode) (size : Nat) (plan : DistinctPlan) :
    Sound mode size plan.sections where
  runsOn es c h := by
    rintro ⟨j, hj, hnot⟩
    exact enabled plan.ids (inv_run h) hj hnot
  inOrder es c h j hstep i := finished_of_acquire plan.ids plan.positions (inv_run h) hstep
  results es c h results := collect_eq_some plan.ids (inv_run h)

/-- So it is for every plan that the planner makes of an outline. -/
theorem sound_planFromOutline {fresh : Nat → Uuid} {o : Outlines.Outline} {plan : List SectionPlan}
    (hinj : Function.Injective fresh) (hnew : Generation.NewTo fresh o)
    (h : Generation.planFromOutline fresh o = some plan) : Sound mode size plan := by
  obtain ⟨hids, hpositions⟩ := Generation.planFromOutline_distinct hinj hnew h
  exact sound_of_distinct mode size ⟨plan, hids, hpositions⟩

/-- A section that has nothing but its place and what it builds on. -/
def placed (id : Uuid) (chapterNumber sectionNumber : Nat) (buildsOn : List Text) : SectionPlan :=
  ⟨id, chapterNumber, sectionNumber, [], [], [], [], [], [], buildsOn, none, none⟩

/-- Where every section waits for one, none begins. -/
theorem stuck_start (h : ∀ s ∈ order, ∃ d, d ∈ depsOf mode order s) :
    step order (start mode size order) (.task j a) = none := by
  cases hs : order[j]? with
  | none => simp [step, hs]
  | some s =>
    obtain ⟨d, hd⟩ := h s (List.mem_of_getElem? hs)
    cases hdeps : depsOf mode order s with
    | nil => simp [hdeps] at hd
    | cons d' rest => cases a <;> simp [step, hs, start, hdeps, act]

/-- Two sections under one id wait for the one event that neither sets. And of two sections with one
number a reference waits for the last one, though it leads forward. -/
theorem not_sound_repeated :
    ¬ Sound .full 1 [placed (Outlines.drawn 1) 1 1 [], placed (Outlines.drawn 1) 1 2 []] ∧
      ¬ Sound .chapter 1 [placed (Outlines.drawn 1) 1 1 [],
        placed (Outlines.drawn 2) 2 1 [BuildsOn.sectionLabel 1 1],
        placed (Outlines.drawn 3) 1 1 []] := by
  constructor
  · intro h
    obtain ⟨j, a, hstep⟩ := h.runsOn [] _ rfl ⟨0, by decide, fun ⟨r, hr⟩ => by cases hr⟩
    rw [stuck_start] at hstep
    · cases hstep
    · intro s hs
      rcases List.mem_pair.mp hs with rfl | rfl
      · exact ⟨_, mem_depsOf.2 (.inl ⟨placed (Outlines.drawn 1) 1 1 [], rfl, rfl⟩)⟩
      · exact ⟨_, mem_depsOf.2 (.inl ⟨placed (Outlines.drawn 1) 1 1 [], rfl, rfl⟩)⟩
  · intro h
    have hdeps : depsOf .chapter [placed (Outlines.drawn 1) 1 1 [],
        placed (Outlines.drawn 2) 2 1 [BuildsOn.sectionLabel 1 1], placed (Outlines.drawn 3) 1 1 []]
        (placed (Outlines.drawn 2) 2 1 [BuildsOn.sectionLabel 1 1]) = [] := by
      refine List.eq_nil_iff_forall_not_mem.mpr fun d hd => ?_
      rcases mem_depsOf.1 hd with ⟨t, ht, -⟩ | ⟨raw, hraw, ref, href, t, ht, rfl, hlt⟩
      · cases ht
      · obtain rfl := List.mem_singleton.mp hraw
        rw [BuildsOn.parseRef_sectionLabel] at href
        obtain rfl := Option.some.inj href
        have htargets : refTargets [placed (Outlines.drawn 1) 1 1 [],
            placed (Outlines.drawn 2) 2 1 [BuildsOn.sectionLabel 1 1],
            placed (Outlines.drawn 3) 1 1 []] ⟨1, some 1, none⟩ =
            [placed (Outlines.drawn 3) 1 1 []] := by decide
        obtain rfl := List.mem_singleton.mp (htargets ▸ ht)
        exact absurd hlt (by decide)
    obtain ⟨r, hr⟩ := h.inOrder [] _ rfl 1 (by simp [step, start, act, hdeps]) 0
      (.inr ⟨by decide, _, rfl, _, rfl, _, .head _, _, BuildsOn.parseRef_sectionLabel 1 1, rfl,
        by simp [placed]⟩)
    cases hr

end RownRg.NarrativeChain

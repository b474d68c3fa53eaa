import RownRg.Lib.Runs
import RownRg.Projects.Derive

/-! The tasks of one project, from their registration to the last step of their exit. -/

open Runs

namespace RownRg.ExitWindow

open Derive

/-- Where a task stands in `_spawn_limited`. The last two lie behind the unregistering. -/
inductive Phase where
  | waiting | slotted | working | ending | unregistered | resynced | gone
  deriving DecidableEq

structure Task where
  phase : Phase
  clearCancelOnExit : Bool
  deriving DecidableEq

inductive Fate where
  | pending
  | observed (k : Nat)
  | discarded (k : Nat)
  deriving DecidableEq

/-- A cancel request that was accepted while the task was registered. -/
structure Request where
  task : Nat
  fate : Fate
  deriving DecidableEq

/-- One project's row, its entries in the two sets of the process, and its tasks in the order
of their registration. `requests` and `overwritten` are logs: what became of the requests, and
the tasks whose exit took the status from under a later task. -/
structure Registry where
  project : Project
  artefacts : Artefacts
  running : Bool
  requested : Bool
  tasks : List Task
  requests : List Request
  overwritten : List Nat
  deriving DecidableEq

inductive Event where
  | edit (artefacts : Artefacts)
  | get
  | run
  /-- A start behind an answered gate, or a round: these read no status. -/
  | spawn (clearCancelOnExit : Bool)
  | cancel
  | slot (k : Nat)
  | check (k : Nat)
  | write (k : Nat) (stage : ProjectStage)
  | observe (k : Nat)
  | finish (k : Nat)
  | unregister (k : Nat)
  | resync (k : Nat)
  | clearCancel (k : Nat)
  deriving DecidableEq

def Phase.Registered (p : Phase) : Prop := p ∈ [waiting, slotted, working, ending]

instance : DecidablePred Phase.Registered := fun p =>
  inferInstanceAs (Decidable (p ∈ [Phase.waiting, .slotted, .working, .ending]))

/-- The task that a request of this moment is for. -/
def registered (tasks : List Task) : Option Nat := tasks.findIdx? (·.phase.Registered)

/-- Task `k` goes on to its next phase. -/
def Registry.move (s : Registry) (k : Nat) (p q : Phase) : Option Registry :=
  (s.tasks[k]?).bind fun task =>
    if task.phase = p then some { s with tasks := s.tasks.set k { task with phase := q } } else none

/-- Whoever looks at the set sees every request that is still in it. -/
def settle (fate : Fate) (requests : List Request) : List Request :=
  requests.map fun r => if r.fate = .pending then { r with fate } else r

def spawnLimited (s : Registry) (clearCancelOnExit : Bool) : Option Registry :=
  if s.running then none
  else some { s with running := true, tasks := s.tasks ++ [⟨.waiting, clearCancelOnExit⟩] }

/-- Records where a cancelled project stood. -/
def cancelProject (project : Project) : Project :=
  setStatus { project with cancelledFrom := some project.status } .cancelled

/-- The stage of a finished task is read back, whoever is registered by then. -/
def resyncStage (s : Registry) (k : Nat) : Registry :=
  let project := syncProjectStage s.project s.artefacts false
  { s with
    project
    overwritten := if (registered s.tasks).isSome ∧ project ≠ s.project then s.overwritten ++ [k]
      else s.overwritten }

/-- One event; `none` where a guard refuses it or it cannot occur. -/
def step (s : Registry) : Event → Option Registry
  | .edit artefacts => some { s with artefacts }
  | .get => some { s with project := syncProjectStage s.project s.artefacts s.running }
  | .run =>
    if s.project.status = .completed ∨ s.project.status = .archived then none
    else spawnLimited s true
  | .spawn clearCancelOnExit => spawnLimited s clearCancelOnExit
  | .cancel =>
    if s.project.status ∈ [ProjectStage.completed, .archived, .cancelled, .created] then none
    else if s.running then
      some { s with
        requested := true
        requests := s.requests ++ (registered s.tasks).toList.map (⟨·, .pending⟩) }
    else some { s with project := cancelProject s.project }
  | .slot k => s.move k .waiting .slotted
  | .check k =>
    if s.requested then
      (s.move k .slotted .ending).map fun s =>
        { s with requests := settle (.observed k) s.requests }
    else s.move k .slotted .working
  | .write k stage =>
    (s.move k .working .working).map fun s => { s with project := setStatus s.project stage }
  | .observe k =>
    if s.requested then
      (s.move k .working .ending).map fun t => { t with
        requests := settle (.observed k) t.requests
        -- a round that is cancelled only fails
        project := if s.tasks[k]?.all (·.clearCancelOnExit) then cancelProject t.project
          else t.project }
    else none
  | .finish k => s.move k .working .ending
  | .unregister k => (s.move k .ending .unregistered).map fun s => { s with running := false }
  | .resync k => (s.move k .unregistered .resynced).map fun s => resyncStage s k
  | .clearCancel k =>
    (s.move k .resynced .gone).map fun t =>
      if s.tasks[k]?.all (·.clearCancelOnExit) then
        { t with requested := false, requests := settle (.discarded k) t.requests }
      else t

def start (project : Project) (artefacts : Artefacts) : Registry :=
  ⟨project, artefacts, false, false, [], [], []⟩

/-- A request waits in the set until its own task sees it or drops it on leaving; one to a round,
which leaves the set alone, a later task may see. -/
def Request.Kept (s : Registry) (r : Request) : Prop :=
  match r.fate with
  | .pending => s.requested = true
  | .observed k => k = r.task ∨
      r.task < k ∧ s.tasks[r.task]?.any (fun task => !task.clearCancelOnExit)
  | .discarded k => k = r.task

structure NothingLost (s : Registry) : Prop where
  one : ∀ (j k : Nat) (a b : Task), s.tasks[j]? = some a → s.tasks[k]? = some b →
    a.phase.Registered → b.phase.Registered → j = k
  kept : ∀ r ∈ s.requests, r.Kept s
  overwritten : s.overwritten = []

/-- No full run stands between its unregistering and the end of its exit. -/
def NoneLeaving (s : Registry) : Prop :=
  ∀ task ∈ s.tasks, task.clearCancelOnExit = true → task.phase ≠ .unregistered ∧
    task.phase ≠ .resynced

/-- Requests are made and seen while no full run is leaving, and a finished task reads the stage
back while no other is registered, or where the status says what is derived already. -/
def OutsideWindow (s : Registry) : Event → Registry → Prop
  | .cancel, _ => s.running = true → NoneLeaving s
  | .check _, _ | .observe _, _ => s.requested = true → NoneLeaving s
  | .resync _, _ => s.running = true →
      deriveStage s.project (collectFacts s.project s.artefacts) false = s.project.status
  | _, _ => True

instance (s : Registry) : Decidable (NoneLeaving s) :=
  inferInstanceAs (Decidable (∀ task ∈ s.tasks, task.clearCancelOnExit = true →
    task.phase ≠ .unregistered ∧ task.phase ≠ .resynced))

instance : (s : Registry) → (e : Event) → (t : Registry) → Decidable (OutsideWindow s e t)
  | s, .cancel, _ => inferInstanceAs (Decidable (s.running = true → NoneLeaving s))
  | s, .check _, _ | s, .observe _, _ =>
    inferInstanceAs (Decidable (s.requested = true → NoneLeaving s))
  | s, .resync _, _ => inferInstanceAs (Decidable (s.running = true →
      deriveStage s.project (collectFacts s.project s.artefacts) false = s.project.status))
  | _, .edit _, _ | _, .get, _ | _, .run, _ | _, .spawn _, _ | _, .slot _, _ | _, .write .., _
  | _, .finish _, _ | _, .unregister _, _ | _, .clearCancel _, _ => isTrue trivial

/-! What every step keeps. -/

/-- Task `k` is no danger to a request that waits for task `i`. -/
def Harmless (i k : Nat) (a : Task) : Prop :=
  if k = i then a.clearCancelOnExit = true → a.phase ≠ .gone
  else i < k ∧ (a.phase = .waiting ∨ a.phase = .slotted) ∨ a.phase = .gone ∨
    a.clearCancelOnExit = false ∧ (a.phase = .unregistered ∨ a.phase = .resynced)

structure Sound (s : Registry) : Prop extends NothingLost s where
  running : ∀ (k : Nat) (a : Task), s.tasks[k]? = some a → a.phase.Registered → s.running = true
  own : ∀ r ∈ s.requests, r.task < s.tasks.length
  waits : ∀ r ∈ s.requests, r.fate = .pending → ∀ (k : Nat) (a : Task), s.tasks[k]? = some a →
    Harmless r.task k a

variable {s t : Registry} {e : Event} {es : List Event} {k : Nat} {p q : Phase} {a b : Task}
  {fate : Fate} {project : Project} {artefacts : Artefacts}

theorem move_eq (h : s.move k p q = some t) : ∃ a, s.tasks[k]? = some a ∧ a.phase = p ∧
    t = { s with tasks := s.tasks.set k { a with phase := q } } := by
  obtain ⟨a, ha, h⟩ := Option.bind_eq_some_iff.mp h
  simp only [Option.ite_none_right_eq_some, Option.some.injEq] at h
  exact ⟨a, ha, h.1, h.2.symm⟩

theorem getElem?_set_iff {tasks : List Task} {j : Nat} {c : Task} (h : tasks[k]? = some a) :
    (tasks.set k b)[j]? = some c ↔ j = k ∧ c = b ∨ j ≠ k ∧ tasks[j]? = some c := by
  have hk : k < tasks.length := (List.getElem?_eq_some_iff.mp h).1
  by_cases hj : j = k
  · subst hj
    simp [hk, eq_comm]
  · rw [List.getElem?_set_ne (by omega)]
    simp [hj]

/-- Only the tasks' marks and the set decide what became of a request. -/
theorem Request.Kept.mono {r : Request} (h : r.Kept s)
    (hreq : r.fate = .pending → s.requested = true → t.requested = true)
    (hflag : s.tasks[r.task]?.any (fun task => !task.clearCancelOnExit) →
      t.tasks[r.task]?.any (fun task => !task.clearCancelOnExit)) : r.Kept t := by
  unfold Request.Kept at h ⊢
  cases hf : r.fate with
  | pending => simpa [hf] using hreq hf (by simpa [hf] using h)
  | observed k =>
    simp only [hf] at h ⊢
    exact h.imp_right fun h => ⟨h.1, hflag h.2⟩
  | discarded k => simpa [hf] using h

theorem mem_settle {r : Request} {requests : List Request} : r ∈ settle fate requests ↔
    ∃ r₀ ∈ requests, r = if r₀.fate = .pending then { r₀ with fate } else r₀ := by
  simp only [settle, List.mem_map, eq_comm (b := r)]

/-- Behind a look at the set no request is pending. -/
theorem not_pending_settle {r : Request} {requests : List Request} (hf : fate ≠ .pending)
    (hr : r ∈ settle fate requests) : r.fate ≠ .pending := by
  obtain ⟨r₀, -, rfl⟩ := mem_settle.1 hr
  split
  · exact hf
  · assumption

theorem registered_spec {tasks : List Task} {i : Nat} (h : registered tasks = some i) :
    ∃ a, tasks[i]? = some a ∧ a.phase.Registered := by
  obtain ⟨hi, ha, -⟩ := List.findIdx?_eq_some_iff_getElem.mp h
  exact ⟨tasks[i], List.getElem?_eq_getElem hi, by simpa using ha⟩

theorem sound_start : Sound (start project artefacts) where
  one := by simp [start]
  kept := by simp [start]
  overwritten := rfl
  running := by simp [start]
  own := by simp [start]
  waits := by simp [start]

/-- Writing the row alone. -/
theorem Sound.withRow (h : Sound s) (project : Project) (artefacts : Artefacts) :
    Sound { s with project, artefacts } :=
  { h with kept := fun r hr => (h.kept r hr).mono (fun _ => id) id }

theorem Sound.spawnLimited {clear : Bool} (h : Sound s)
    (ht : spawnLimited s clear = some t) : Sound t := by
  simp only [ExitWindow.spawnLimited, Option.ite_none_left_eq_some, Option.some.injEq] at ht
  obtain ⟨hrun, rfl⟩ := ht
  have hnone : ∀ (k : Nat) (a : Task), s.tasks[k]? = some a → ¬ a.phase.Registered :=
    fun k a ha hreg => hrun (h.running k a ha hreg)
  have hcases : ∀ (k : Nat) (a : Task), (s.tasks ++ [⟨.waiting, clear⟩])[k]? = some a →
      s.tasks[k]? = some a ∨ k = s.tasks.length ∧ a = ⟨.waiting, clear⟩ := by
    intro k a ha
    rw [List.getElem?_append] at ha
    split at ha
    · exact .inl ha
    · have hk : k - s.tasks.length = 0 := by
        have := (List.getElem?_eq_some_iff.mp ha).1
        simpa using this
      rw [hk] at ha
      simp only [List.getElem?_cons_zero, Option.some.injEq] at ha
      exact .inr ⟨by omega, ha.symm⟩
  refine ⟨⟨?_, ?_, h.overwritten⟩, ?_, ?_, ?_⟩
  · intro j k a b ha hb hra hrb
    rcases hcases j a ha with ha | ⟨rfl, -⟩
    · exact (hnone j a ha hra).elim
    · rcases hcases k b hb with hb | ⟨rfl, -⟩
      · exact (hnone k b hb hrb).elim
      · rfl
  · intro r hr
    refine (h.kept r hr).mono (fun _ => id) fun hflag => ?_
    rwa [List.getElem?_append_left (h.own r hr)]
  · exact fun _ _ _ _ => rfl
  · intro r hr
    have := h.own r hr
    simp only [List.length_append]
    omega
  · intro r hr hp k a ha
    rcases hcases k a ha with ha | ⟨rfl, rfl⟩
    · exact h.waits r hr hp k a ha
    · have := h.own r hr
      rw [Harmless, if_neg (by omega)]
      exact .inl ⟨this, .inl rfl⟩

/-- A task that goes on endangers no request. -/
theorem Sound.move (h : Sound s) (ht : s.move k p q = some t)
    (hreg : q.Registered → p.Registered)
    (hwaits : ∀ r ∈ s.requests, r.fate = .pending → ∀ a : Task, s.tasks[k]? = some a →
      a.phase = p → Harmless r.task k a → Harmless r.task k { a with phase := q }) : Sound t := by
  obtain ⟨a, ha, rfl, rfl⟩ := move_eq ht
  have hreg' : ∀ (j : Nat) (c : Task), (s.tasks.set k { a with phase := q })[j]? = some c →
      c.phase.Registered → ∃ c', s.tasks[j]? = some c' ∧ c'.phase.Registered := by
    intro j c hc hr
    rcases (getElem?_set_iff ha).mp hc with ⟨rfl, rfl⟩ | ⟨-, hc⟩
    · exact ⟨a, ha, hreg hr⟩
    · exact ⟨c, hc, hr⟩
  refine ⟨⟨?_, ?_, h.overwritten⟩, ?_, ?_, ?_⟩
  · intro i j b c hb hc hrb hrc
    obtain ⟨b', hb', hrb'⟩ := hreg' i b hb hrb
    obtain ⟨c', hc', hrc'⟩ := hreg' j c hc hrc
    exact h.one i j b' c' hb' hc' hrb' hrc'
  · intro r hr
    refine (h.kept r hr).mono (fun _ => id) fun hflag => ?_
    obtain ⟨c, hc, hflag⟩ := (Option.any_eq_true ..).mp hflag
    by_cases hk : r.task = k
    · subst hk
      rw [ha, Option.some.injEq] at hc
      subst hc
      exact (Option.any_eq_true ..).mpr ⟨_, (getElem?_set_iff ha).mpr (.inl ⟨rfl, rfl⟩), hflag⟩
    · exact (Option.any_eq_true ..).mpr ⟨c, (getElem?_set_iff ha).mpr (.inr ⟨hk, hc⟩), hflag⟩
  · intro j c hc hr
    obtain ⟨c', hc', hr'⟩ := hreg' j c hc hr
    exact h.running j c' hc' hr'
  · intro r hr
    simpa using h.own r hr
  · intro r hr hp j c hc
    rcases (getElem?_set_iff ha).mp hc with ⟨rfl, rfl⟩ | ⟨-, hc⟩
    · exact hwaits r hr hp a ha rfl (h.waits r hr hp j a ha)
    · exact h.waits r hr hp j c hc

/-- A look at the set settles every request that waits. -/
theorem Sound.settle (h : Sound s) (hf : fate ≠ .pending)
    (hkept : ∀ r ∈ s.requests, r.fate = .pending → Request.Kept s { r with fate }) :
    Sound { s with requests := settle fate s.requests } := by
  refine { h with kept := ?_, own := ?_, waits := ?_ }
  · intro r hr
    obtain ⟨r₀, hr₀, rfl⟩ := mem_settle.1 hr
    split
    · exact (hkept r₀ hr₀ ‹_›).mono (fun _ => id) id
    · exact (h.kept r₀ hr₀).mono (fun _ => id) id
  · intro r hr
    obtain ⟨r₀, hr₀, rfl⟩ := mem_settle.1 hr
    split <;> exact h.own r₀ hr₀
  · intro r hr hp
    exact (not_pending_settle hf hr hp).elim

theorem move_settle (ht : s.move k p q = some t) :
    ({ s with requests := settle fate s.requests } : Registry).move k p q =
      some { t with requests := settle fate t.requests } := by
  obtain ⟨a, ha, hp, rfl⟩ := move_eq ht
  simp [Registry.move, ha, hp]

/-- A task that settles the requests goes on with none of them pending. -/
theorem Sound.settleMove (h : Sound s) (hf : fate ≠ .pending)
    (hkept : ∀ r ∈ s.requests, r.fate = .pending → Request.Kept s { r with fate })
    (ht : s.move k p q = some t) (hreg : q.Registered → p.Registered) :
    Sound { t with requests := ExitWindow.settle fate t.requests } :=
  (h.settle hf hkept).move (move_settle ht) hreg
    fun _ hr hp => (not_pending_settle hf hr hp).elim

/-- Outside the window a task sees its own request, or one that an earlier round left. -/
theorem Sound.observed (h : Sound s) (hl : NoneLeaving s) (ha : s.tasks[k]? = some a)
    (hreg : a.phase.Registered) :
    ∀ r ∈ s.requests, r.fate = .pending → Request.Kept s { r with fate := .observed k } := by
  intro r hr hp
  by_cases hk : k = r.task
  · exact .inl hk
  · have hlt : r.task < k := by
      have := h.waits r hr hp k a ha
      rw [Harmless, if_neg hk] at this
      rcases this with h | h | ⟨-, h | h⟩
      · exact h.1
      · simp [h, Phase.Registered] at hreg
      · simp [h, Phase.Registered] at hreg
      · simp [h, Phase.Registered] at hreg
    obtain ⟨c, hc⟩ : ∃ c, s.tasks[r.task]? = some c := ⟨_, List.getElem?_eq_getElem (h.own r hr)⟩
    refine .inr ⟨hlt, (Option.any_eq_true ..).mpr ⟨_, hc, ?_⟩⟩
    by_contra hclear
    -- its own task would still have to drop it, and is not on its way out
    simp only [Bool.not_eq_true', Bool.not_eq_false] at hclear
    have hgone := h.waits r hr hp r.task _ hc
    rw [Harmless, if_pos rfl] at hgone
    have hleft := hl _ (List.mem_of_getElem? hc) hclear
    have hown : c.phase.Registered := by
      cases hph : c.phase <;> simp_all [Phase.Registered]
    exact hk (h.one _ _ _ _ ha hc hreg hown)

theorem Sound.cancel (h : Sound s) (hl : NoneLeaving s) :
    Sound { s with
      requested := true
      requests := s.requests ++ (registered s.tasks).toList.map (⟨·, .pending⟩) } := by
  have hnew : ∀ r ∈ (registered s.tasks).toList.map (Request.mk · .pending),
      r.fate = .pending ∧ ∃ a, s.tasks[r.task]? = some a ∧ a.phase.Registered := by
    intro r hr
    obtain ⟨i, hi, rfl⟩ := List.mem_map.mp hr
    exact ⟨rfl, registered_spec (Option.mem_toList.mp hi)⟩
  refine ⟨⟨h.one, ?_, h.overwritten⟩, h.running, ?_, ?_⟩
  · intro r hr
    rcases List.mem_append.mp hr with hr | hr
    · exact (h.kept r hr).mono (fun _ _ => rfl) id
    · simp [Request.Kept, (hnew r hr).1]
  · intro r hr
    rcases List.mem_append.mp hr with hr | hr
    · exact h.own r hr
    · obtain ⟨a, ha, -⟩ := (hnew r hr).2
      exact (List.getElem?_eq_some_iff.mp ha).1
  · intro r hr hp k b hb
    rcases List.mem_append.mp hr with hr | hr
    · exact h.waits r hr hp k b hb
    · obtain ⟨a, ha, hreg⟩ := (hnew r hr).2
      have hleft := hl b (List.mem_of_getElem? hb)
      unfold Harmless
      split
      · subst k
        rw [ha, Option.some.injEq] at hb
        subst hb
        rintro - hgone
        simp [hgone, Phase.Registered] at hreg
      · have hout : ¬ b.phase.Registered := fun hb' => ‹¬ k = r.task› (h.one _ _ _ _ hb ha hb' hreg)
        cases hph : b.phase <;> simp_all [Phase.Registered]

/-- A task that has left the set leaves it empty. -/
theorem Sound.unregister (h : Sound s) (ht : s.move k .ending .unregistered = some t) :
    Sound { t with running := false } := by
  have ht' : Sound t := by
    refine h.move ht (by decide) fun r _ _ a _ ha hw => ?_
    unfold Harmless at hw ⊢
    split at hw <;> simp_all
  obtain ⟨a, ha, hp, rfl⟩ := move_eq ht
  refine { ht' with running := ?_, kept := fun r hr => (ht'.kept r hr).mono (fun _ => id) id }
  intro j b hb hreg
  rcases (getElem?_set_iff ha).mp hb with ⟨rfl, rfl⟩ | ⟨hj, hb⟩
  · simp [Phase.Registered] at hreg
  · exact (hj (h.one _ _ _ _ hb ha hreg (by simp [hp, Phase.Registered]))).elim

theorem Sound.resync (h : Sound s) (ht : s.move k .unregistered .resynced = some t)
    (hok : s.running = true →
      deriveStage s.project (collectFacts s.project s.artefacts) false = s.project.status) :
    Sound (resyncStage t k) := by
  have ht' : Sound t := by
    refine h.move ht (by simp [Phase.Registered]) fun r _ _ a _ ha hw => ?_
    unfold Harmless at hw ⊢
    split at hw <;> simp_all
  obtain ⟨a, ha, hp, rfl⟩ := move_eq ht
  have hsame : ¬ ((registered (s.tasks.set k { a with phase := .resynced })).isSome ∧
      syncProjectStage s.project s.artefacts false ≠ s.project) := by
    rintro ⟨hreg, hne⟩
    obtain ⟨i, hi⟩ := Option.isSome_iff_exists.mp hreg
    obtain ⟨b, hb, hreg⟩ := registered_spec hi
    have hrun := hok (ht'.running i b hb hreg)
    exact hne (by rw [syncProjectStage, hrun, setStatus_self])
  have := ht'.withRow (syncProjectStage s.project s.artefacts false) s.artefacts
  simpa [resyncStage, hsame] using this

/-- A full run that leaves drops its own request and no other. -/
theorem Sound.clearCancel (h : Sound s) (ht : s.move k .resynced .gone = some t)
    (hclear : s.tasks[k]?.all (·.clearCancelOnExit)) :
    Sound { t with requested := false, requests := ExitWindow.settle (.discarded k) t.requests } := by
  have ht' : Sound { t with requests := ExitWindow.settle (.discarded k) t.requests } := by
    refine h.settleMove (by simp) (fun r hr hp => ?_) ht (by simp [Phase.Registered])
    obtain ⟨a, ha, hpa, -⟩ := move_eq ht
    have := h.waits r hr hp k a ha
    unfold Harmless at this
    split at this
    · assumption
    · simp_all
  refine { ht' with kept := fun r hr => (ht'.kept r hr).mono (fun hp => ?_) id }
  exact (not_pending_settle (by simp) hr hp).elim

theorem Sound.leaveRound (h : Sound s) (ht : s.move k .resynced .gone = some t)
    (hclear : ¬ s.tasks[k]?.all (·.clearCancelOnExit)) : Sound t := by
  refine h.move ht (by simp [Phase.Registered]) fun r _ _ a hk ha hw => ?_
  unfold Harmless at hw ⊢
  split at hw <;> simp_all

theorem sound_step (h : Sound s) (hs : step s e = some t) (hok : OutsideWindow s e t) :
    Sound t := by
  cases e with
  | edit artefacts =>
    cases hs
    exact h.withRow s.project artefacts
  | get =>
    cases hs
    exact h.withRow _ s.artefacts
  | run =>
    simp only [step, Option.ite_none_left_eq_some] at hs
    exact h.spawnLimited hs.2
  | spawn clearCancelOnExit => exact h.spawnLimited hs
  | cancel =>
    simp only [step, Option.ite_none_left_eq_some] at hs
    obtain ⟨-, hs⟩ := hs
    split at hs
    · cases hs
      exact h.cancel (hok ‹_›)
    · cases hs
      exact h.withRow _ s.artefacts
  | slot k =>
    refine h.move hs (by decide) fun r _ _ a _ ha hw => ?_
    unfold Harmless at hw ⊢
    split at hw <;> simp_all
  | check k =>
    simp only [step] at hs
    split at hs
    · rename_i hreq
      obtain ⟨t, ht, rfl⟩ := Option.map_eq_some_iff.mp hs
      obtain ⟨a, ha, hp, -⟩ := move_eq ht
      exact h.settleMove (by simp) (h.observed (hok hreq) ha (by simp [hp, Phase.Registered])) ht
        (by decide)
    · rename_i hreq
      refine h.move hs (by decide) fun r hr hp => ?_
      have hkept := h.kept r hr
      simp [Request.Kept, hp, hreq] at hkept
  | write k stage =>
    obtain ⟨t, ht, rfl⟩ := Option.map_eq_some_iff.mp hs
    have ht' : Sound t := h.move ht id fun r _ _ a _ ha hw => by simpa [← ha] using hw
    exact ht'.withRow _ t.artefacts
  | observe k =>
    simp only [step, Option.ite_none_right_eq_some] at hs
    obtain ⟨hreq, hs⟩ := hs
    obtain ⟨t, ht, rfl⟩ := Option.map_eq_some_iff.mp hs
    obtain ⟨a, ha, hp, -⟩ := move_eq ht
    have ht' := h.settleMove (by simp)
      (h.observed (hok hreq) ha (by simp [hp, Phase.Registered])) ht (by decide)
    exact ht'.withRow _ t.artefacts
  | finish k =>
    refine h.move hs (by decide) fun r _ _ a _ ha hw => ?_
    unfold Harmless at hw ⊢
    split at hw <;> simp_all
  | unregister k =>
    obtain ⟨t, ht, rfl⟩ := Option.map_eq_some_iff.mp hs
    exact h.unregister ht
  | resync k =>
    obtain ⟨t, ht, rfl⟩ := Option.map_eq_some_iff.mp hs
    exact h.resync ht hok
  | clearCancel k =>
    obtain ⟨t, ht, hs⟩ := Option.map_eq_some_iff.mp hs
    split at hs
    · subst hs
      exact h.clearCancel ht ‹_›
    · subst hs
      exact h.leaveRound ht ‹_›

/-- Nothing is lost between the runs of a project as long as nothing falls into the window of a
task that leaves. -/
theorem nothingLost_along (h : Along step OutsideWindow (start project artefacts) es) :
    Always step NothingLost (start project artefacts) es :=
  (always_of_step (fun _ _ _ hs hok h => sound_step h hs hok) sound_start h).mono
    fun _ h => h.toNothingLost

/-- A cancelled run and the next one, which starts when the first has left. -/
theorem nothingLost_next : Always step NothingLost
    (start ⟨.created, false, none, none⟩ ⟨true, 0, 0, 0⟩)
    [.run, .slot 0, .check 0, .write 0 .planning, .cancel, .observe 0, .finish 0, .unregister 0,
      .resync 0, .clearCancel 0, .run, .slot 1, .check 1, .finish 1] :=
  nothingLost_along (by decide)

/-- A run fails, the next one is started and cancelled while the first is still leaving: the
first takes the status from under the second, and drops its cancel request. -/
theorem not_nothingLost_window : ¬ ∀ (project : Project) (artefacts : Artefacts)
    (es : List Event), Always step NothingLost (start project artefacts) es := by
  intro h
  have hrun : run step (start ⟨.created, false, none, none⟩ ⟨false, 0, 0, 0⟩)
      [.run, .slot 0, .check 0, .write 0 .planning, .finish 0, .unregister 0, .run, .cancel,
        .resync 0, .clearCancel 0] =
      some ⟨⟨.created, false, none, none⟩, ⟨false, 0, 0, 0⟩, true, false,
        [⟨.gone, true⟩, ⟨.waiting, true⟩], [⟨1, .discarded 0⟩], [0]⟩ := by decide
  have hkept := ((h _ _ _).last hrun).kept ⟨1, .discarded 0⟩ (by simp)
  simp [Request.Kept] at hkept

end RownRg.ExitWindow

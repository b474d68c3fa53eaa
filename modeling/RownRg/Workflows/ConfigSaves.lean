import RownRg.Lib.Runs
import RownRg.Projects.ConfigMerge
import RownRg.Workflows.Runner

/-! Forms saved while a project runs, is cancelled and is opened again. -/

open PyText

namespace RownRg.Workflows

open Projects Derive SectionPlan Generation Outlines Runs

/-- The value of a stage. -/
def stageValue : ProjectStage → Text
  | .created => "created".toList
  | .planning => "planning".toList
  | .researching => "researching".toList
  | .indexing => "indexing".toList
  | .writing => "writing".toList
  | .reviewing => "reviewing".toList
  | .completed => "completed".toList
  | .archived => "archived".toList
  | .cancelled => "cancelled".toList

def stages : List ProjectStage :=
  [.created, .planning, .researching, .indexing, .writing, .reviewing, .completed, .archived,
    .cancelled]

/-- The stage with this value, if there is one; `none` where the value cannot be in a set. -/
def stageOf? : Json → Option (Option ProjectStage)
  | .str t => some (stages.find? fun stage => stageValue stage = t)
  | .arr _ => none
  | .obj _ => none
  | _ => some none

/-- The stage a cancelled project stood on, from its config. -/
def stoodOn (status : ProjectStage) (config : Config) : Option ProjectStage :=
  if status = .cancelled then
    (stageOf? ((config.get cancelledFromKey).orElse (.str (stageValue .created)))).map
      (·.getD .created)
  else some status

/-- The stage a stopped project takes up again, from its config; `none` where reading raises. -/
def stateFromConfig (status : ProjectStage) (config : Config) : Option ProjectStage :=
  (stageOf? (config.get resumeFromKey)).bind fun resumeFrom =>
    (stoodOn (resumeFrom.getD status) config).map fun status =>
      if status = .writing then .indexing
      else if status = .indexing then .researching
      else status

/-- A project under its runner, with its config. -/
structure Configured where
  runner : Runner
  config : Config

/-- The runner with the stages that the config names. -/
def Configured.loaded (m : Configured) : Runner :=
  { m.runner with
    project := { m.runner.project with
      cancelledFrom := (stageOf? (m.config.get cancelledFromKey)).join
      resumeFrom := (stageOf? (m.config.get resumeFromKey)).join } }

/-- The stage from which the next run starts; `none` where the run fails on the config. -/
def Configured.nextStage (m : Configured) : Option ProjectStage :=
  (stateFromConfig m.runner.project.status m.config).map (normalizeResumeStage m.runner.reviews)

/-- A key written where the stage under it is another one. -/
def storeStage (key : Text) (before after : Option ProjectStage) (config : Config) : Config :=
  match after with
  | some stage => if before = after then config else config.set key (.str (stageValue stage))
  | none => config

/-- What an event of the runner writes: where a cancelled project stood, and where an opened one
goes on. -/
def Configured.store (m : Configured) (r : Runner) : Configured where
  runner := r
  config :=
    storeStage cancelledFromKey m.loaded.project.cancelledFrom r.project.cancelledFrom
      (storeStage resumeFromKey m.loaded.project.resumeFrom r.project.resumeFrom m.config)

/-- A full run opens: it takes the resume point out of the config. -/
def Configured.openRun (m : Configured) : Configured :=
  match stateFromConfig m.runner.project.status m.config with
  | none => { m with runner := leave m.loaded true }
  | some _ => {
      runner := executeRun m.loaded
      config :=
        if (m.config.get resumeFromKey).truthy then m.config.pop resumeFromKey else m.config }

namespace ConfigSaves

/-- A form that is saved, another write of the server, or an event of the runner. -/
inductive Event where
  | save (fresh : Nat → Uuid) (incoming : Config)
  | write (key : Text) (value : Option Json)
  | base (e : Workflows.Event)

def Event.isSave : Event → Bool
  | .save _ _ => true
  | _ => false

/-- Whether an event opens a full run. -/
def opensRun (r : Runner) : Workflows.Event → Bool
  | .slot =>
    match r.job with
    | some (.queued .full) => !r.cancelRequested
    | _ => false
  | _ => false

/-- One event; `none` where a guard refuses it or the request raises. -/
def step (repr : Json → Text) (m : Configured) : Event → Option Configured
  | .save fresh incoming =>
    if m.runner.project.status = .archived then none
    else (mergeConfigUpdate repr fresh (some m.config) incoming).map fun config =>
      { m with config }
  | .write key value =>
    if key = resumeFromKey ∨ key = cancelledFromKey then none
    else
      match value with
      | some x => some { m with config := m.config.set key x }
      | none => some { m with config := m.config.pop key }
  | .base e =>
    if opensRun m.runner e then some m.openRun
    else (Workflows.step m.loaded e).map m.store

/-- Every form that is saved is harmless where it is saved. -/
def SavesHarmless (repr : Json → Text) (m : Configured) (e : Event) (_ : Configured) : Prop :=
  ∀ fresh incoming, e = .save fresh incoming → Harmless repr m.config incoming

/-- The same runner over configs that name the same stages. -/
structure Agrees (m m' : Configured) : Prop where
  runner : m.runner = m'.runner
  resume : m.config.lookup resumeFromKey = m'.config.lookup resumeFromKey
  cancelled : m.config.lookup cancelledFromKey = m'.config.lookup cancelledFromKey

variable {repr : Json → Text} {m m' t : Configured} {es : List Event} {config config' : Config}
  {status : ProjectStage}

theorem resumeFrom_ne_cancelledFrom : resumeFromKey ≠ cancelledFromKey := by decide

theorem stateFromConfig_congr (hr : config.lookup resumeFromKey = config'.lookup resumeFromKey)
    (hc : config.lookup cancelledFromKey = config'.lookup cancelledFromKey) :
    stateFromConfig status config = stateFromConfig status config' := by
  have hresume : config.get resumeFromKey = config'.get resumeFromKey :=
    congrArg (Option.getD · Json.null) hr
  have hcancelled : config.get cancelledFromKey = config'.get cancelledFromKey :=
    congrArg (Option.getD · Json.null) hc
  simp only [stateFromConfig, stoodOn, hresume, hcancelled]

theorem stageOf?_orElse {x : Json} {stage : Option ProjectStage}
    (h : stageOf? (x.orElse (.str (stageValue .created))) = some stage) :
    stage.getD .created = (stageOf? x).join.getD .created := by
  by_cases hx : x.truthy
  · rw [Json.orElse, if_pos hx] at h
    rw [h]
    rfl
  · rw [Json.orElse, if_neg hx] at h
    have hcreated : stage = some .created := by
      rw [← Option.some.inj h]
      decide
    have hnone : (stageOf? x).join = none := by
      cases x with
      | str t =>
        obtain rfl : t = [] := by simpa [Json.truthy] using hx
        decide
      | null => rfl
      | bool b => rfl
      | num n => rfl
      | arr xs => rfl
      | obj fs => rfl
    rw [hcreated, hnone]
    rfl

/-- Where the config can be read, the runner reads the same stage from it. -/
theorem stateFromConfig_loaded {stage : ProjectStage}
    (h : stateFromConfig m.runner.project.status m.config = some stage) :
    stateFromProject m.loaded.project = stage := by
  obtain ⟨resumeFrom, hresume, h⟩ := Option.bind_eq_some_iff.mp h
  obtain ⟨status, hstatus, rfl⟩ := Option.map_eq_some_iff.mp h
  have hloaded : m.loaded.project.resumeFrom = resumeFrom := congrArg Option.join hresume
  have hstood : (if resumeFrom.getD m.runner.project.status = .cancelled then
      m.loaded.project.cancelledFrom.getD .created
        else resumeFrom.getD m.runner.project.status) = status := by
    unfold stoodOn at hstatus
    split at hstatus
    · rename_i hc
      obtain ⟨named, hnamed, rfl⟩ := Option.map_eq_some_iff.mp hstatus
      rw [if_pos hc]
      exact (stageOf?_orElse hnamed).symm
    · rename_i hc
      rw [if_neg hc]
      exact Option.some.inj hstatus
  rw [← hstood, ← hloaded]
  rfl

/-- The next run of the runner starts from the stage that is read from the config. -/
theorem startStage_loaded {stage : ProjectStage} (h : m.nextStage = some stage) :
    startStage m.loaded = stage := by
  obtain ⟨named, hnamed, rfl⟩ := Option.map_eq_some_iff.mp h
  rw [startStage, stateFromConfig_loaded hnamed]
  rfl

theorem Agrees.nextStage (h : Agrees m m') : m.nextStage = m'.nextStage := by
  rw [Configured.nextStage, Configured.nextStage, h.runner,
    stateFromConfig_congr h.resume h.cancelled]

theorem Agrees.loaded (h : Agrees m m') : m.loaded = m'.loaded := by
  have hresume : m.config.get resumeFromKey = m'.config.get resumeFromKey :=
    congrArg (Option.getD · Json.null) h.resume
  have hcancelled : m.config.get cancelledFromKey = m'.config.get cancelledFromKey :=
    congrArg (Option.getD · Json.null) h.cancelled
  rw [Configured.loaded, Configured.loaded, h.runner, hresume, hcancelled]

variable {key k : Text} {before after : Option ProjectStage}

theorem lookup_storeStage_ne (h : k ≠ key) :
    (storeStage key before after config).lookup k = config.lookup k := by
  unfold storeStage
  split
  · split
    · rfl
    · exact Config.lookup_set_ne h
  · rfl

theorem lookup_storeStage_congr (h : config.lookup key = config'.lookup key) :
    (storeStage key before after config).lookup key =
      (storeStage key before after config').lookup key := by
  unfold storeStage
  split
  · split
    · exact h
    · rw [Config.lookup_set_self, Config.lookup_set_self]
  · exact h

theorem Agrees.store (h : Agrees m m') (r : Runner) : Agrees (m.store r) (m'.store r) := by
  refine ⟨rfl, ?_, ?_⟩
  · simp only [Configured.store, h.loaded]
    rw [lookup_storeStage_ne resumeFrom_ne_cancelledFrom,
      lookup_storeStage_ne resumeFrom_ne_cancelledFrom]
    exact lookup_storeStage_congr h.resume
  · simp only [Configured.store, h.loaded]
    refine lookup_storeStage_congr ?_
    rw [lookup_storeStage_ne (Ne.symm resumeFrom_ne_cancelledFrom),
      lookup_storeStage_ne (Ne.symm resumeFrom_ne_cancelledFrom), h.cancelled]

theorem Agrees.openRun (h : Agrees m m') : Agrees m.openRun m'.openRun := by
  have hget : m.config.get resumeFromKey = m'.config.get resumeFromKey :=
    congrArg (Option.getD · Json.null) h.resume
  have hstate : stateFromConfig m'.runner.project.status m.config =
      stateFromConfig m'.runner.project.status m'.config :=
    stateFromConfig_congr h.resume h.cancelled
  unfold Configured.openRun
  rw [h.runner, hstate, h.loaded, hget]
  split
  · exact ⟨rfl, h.resume, h.cancelled⟩
  · refine ⟨rfl, ?_, ?_⟩
    · split
      · rw [Config.lookup_pop_self, Config.lookup_pop_self]
      · exact h.resume
    · split
      · rw [Config.lookup_pop_ne (Ne.symm resumeFrom_ne_cancelledFrom),
          Config.lookup_pop_ne (Ne.symm resumeFrom_ne_cancelledFrom), h.cancelled]
      · exact h.cancelled

/-- A harmless save leaves the stages that the config names. -/
theorem Agrees.save {fresh : Nat → Uuid} {incoming : Config}
    (h : Agrees m m') (hs : step repr m (.save fresh incoming) = some t)
    (hok : Harmless repr m.config incoming) : Agrees t m' := by
  simp only [step, Option.ite_none_left_eq_some] at hs
  obtain ⟨saved, hsaved, rfl⟩ := Option.map_eq_some_iff.mp hs.2
  have hserver := server_of_harmless hsaved hok
  exact ⟨h.runner, (hserver _ (by decide)).trans h.resume,
    (hserver _ (by decide)).trans h.cancelled⟩

/-- Every other event goes on alike. -/
theorem Agrees.step {e : Event} (h : Agrees m m') (hs : ConfigSaves.step repr m e = some t)
    (he : e.isSave = false) : ∃ t', ConfigSaves.step repr m' e = some t' ∧ Agrees t t' := by
  cases e with
  | save fresh incoming => cases he
  | write key value =>
    simp only [ConfigSaves.step, Option.ite_none_left_eq_some, not_or] at hs
    obtain ⟨⟨hr, hc⟩, hs⟩ := hs
    simp only [ConfigSaves.step, if_neg (not_or.mpr ⟨hr, hc⟩)]
    cases value with
    | some x =>
      cases hs
      refine ⟨_, rfl, h.runner, ?_, ?_⟩
      · rw [Config.lookup_set_ne (Ne.symm hr), Config.lookup_set_ne (Ne.symm hr), h.resume]
      · rw [Config.lookup_set_ne (Ne.symm hc), Config.lookup_set_ne (Ne.symm hc), h.cancelled]
    | none =>
      cases hs
      refine ⟨_, rfl, h.runner, ?_, ?_⟩
      · rw [Config.lookup_pop_ne (Ne.symm hr), Config.lookup_pop_ne (Ne.symm hr), h.resume]
      · rw [Config.lookup_pop_ne (Ne.symm hc), Config.lookup_pop_ne (Ne.symm hc), h.cancelled]
  | base e =>
    simp only [ConfigSaves.step, h.runner] at hs ⊢
    split at hs
    · rename_i hopens
      cases hs
      rw [if_pos hopens]
      exact ⟨_, rfl, h.openRun⟩
    · rename_i hopens
      rw [if_neg hopens]
      obtain ⟨r, hr, rfl⟩ := Option.map_eq_some_iff.mp hs
      rw [h.loaded] at hr
      exact ⟨_, by rw [hr]; rfl, h.store r⟩

theorem Agrees.refl (m : Configured) : Agrees m m := ⟨rfl, rfl, rfl⟩

/-- The stage from which the next run starts is the one it would start from without the saves. -/
theorem nextStage_without_saves (h : Along (step repr) (SavesHarmless repr) m es)
    (hr : run (step repr) m es = some t) :
    ∃ t', run (step repr) m (es.filter fun e => !e.isSave) = some t' ∧
      t.nextStage = t'.nextStage := by
  have unseen : ∀ s e u s', step repr s e = some u → e.isSave → SavesHarmless repr s e u →
      Agrees s s' → Agrees u s' := by
    intro s e u s' hs he hok hR
    cases e with
    | save fresh incoming => exact hR.save hs (hok fresh incoming rfl)
    | write key value => cases he
    | base e => cases he
  obtain ⟨t', ht', hagree⟩ := run_without Event.isSave unseen
    (fun _ _ _ _ hs he hR => hR.step hs he) (Agrees.refl m) h hr
  exact ⟨t', ht', hagree.nextStage⟩

/-- A save keeps the server's state exactly when its form is harmless, and in a run whose saves
are harmless the next run starts where it would start without them. -/
theorem keepsServerState_iff (repr : Json → Text) :
    (∀ (fresh : Nat → Uuid) (current : Option Config) (incoming saved : Config),
      mergeConfigUpdate repr fresh current incoming = some saved →
      (∀ o ∈ readOutline repr (incoming.get outlineKey), NewTo fresh o) →
        (KeepsServerState repr (current.getD .empty) incoming saved ↔
          Harmless repr (current.getD .empty) incoming)) ∧
      ∀ (m t : Configured) (es : List Event), Along (step repr) (SavesHarmless repr) m es →
        run (step repr) m es = some t →
          ∃ t', run (step repr) m (es.filter fun e => !e.isSave) = some t' ∧
            t.nextStage = t'.nextStage := by
  refine ⟨fun fresh current incoming saved h hnew => ?_, fun m t es => nextStage_without_saves⟩
  have hsome : mergeConfigUpdate repr fresh (some (current.getD .empty)) incoming =
      mergeConfigUpdate repr fresh current incoming := by
    cases current <;> rfl
  exact keepsServerState_iff_harmless (hsome.trans h) hnew

/-- The config of a completed report. -/
def completedConfig : Config := ⟨[("depth".toList, .str "full".toList)], by decide⟩

/-- A report whose gates were answered, completed. -/
def completedReport : Configured where
  runner := {
    project := ⟨.completed, true, none, none⟩
    artefacts := ⟨true, 3, 9, 2⟩
    reviews := [⟨.sourcePool, some (.decided .other)⟩, ⟨.designBrief, some (.decided .other)⟩]
    job := none
    cancelRequested := false
    reached := .completed }
  config := completedConfig

/-- The config after the report was opened again. -/
def reopenedConfig : Config :=
  completedConfig.set resumeFromKey (.str (stageValue .researching))

/-- A form opened after the report changes nothing. -/
theorem keepsServerState_reopened :
    (∃ saved, mergeConfigUpdate (fun _ => []) drawn (some reopenedConfig) reopenedConfig = some saved ∧
      KeepsServerState (fun _ => []) reopenedConfig reopenedConfig saved) ∧
      ∃ t, run (step fun _ => []) completedReport [.base .reopen, .save drawn reopenedConfig] = some t ∧
        ∃ t', run (step fun _ => []) completedReport [.base .reopen] = some t' ∧
          t.nextStage = t'.nextStage := by
  obtain ⟨hone, hrun⟩ := keepsServerState_iff fun _ => []
  have hsame : sameOutline reopenedConfig reopenedConfig := by decide
  have hok : Harmless (fun _ => []) reopenedConfig reopenedConfig :=
    ⟨rfl, fun _ _ h => h, fun _ _ _ h => h, fun h => by simp [hsame] at h⟩
  have hnew : ∀ o ∈ readOutline (fun _ => []) (reopenedConfig.get outlineKey), NewTo drawn o := by
    intro o ho i s hs
    obtain rfl : [] = o := Option.some.inj ho
    cases hs
  refine ⟨⟨_, rfl, (hone drawn (some reopenedConfig) reopenedConfig _ rfl hnew).mpr hok⟩, ?_⟩
  refine ⟨_, rfl, hrun completedReport _ [.base .reopen, .save drawn reopenedConfig] ?_ rfl⟩
  intro t ht
  refine ⟨(fun _ _ h => by cases h), fun u hu => ⟨fun fresh incoming h => ?_, trivial⟩⟩
  obtain rfl := Option.some.inj ht
  obtain ⟨rfl, rfl⟩ := Event.save.inj h
  exact hok

/-- A form that was opened before the report takes the resume point away: the next run goes
straight to the assembly. -/
theorem not_keepsServerState_reopened :
    (¬ ∀ (repr : Json → Text) (fresh : Nat → Uuid) (current : Option Config)
      (incoming saved : Config), mergeConfigUpdate repr fresh current incoming = some saved →
        (∀ o ∈ readOutline repr (incoming.get outlineKey), NewTo fresh o) →
          KeepsServerState repr (current.getD .empty) incoming saved) ∧
      ¬ ∀ (repr : Json → Text) (m t : Configured) (es : List Event),
        run (step repr) m es = some t →
          ∃ t', run (step repr) m (es.filter fun e => !e.isSave) = some t' ∧
            t.nextStage = t'.nextStage := by
  constructor
  · intro h
    have hnew : ∀ o ∈ readOutline (fun _ => []) (completedConfig.get outlineKey), NewTo drawn o := by
      intro o ho i s hs
      obtain rfl : [] = o := Option.some.inj ho
      cases hs
    have hkept := (h (fun _ => []) drawn (some reopenedConfig) completedConfig _ rfl hnew).server
      resumeFromKey (by decide)
    exact absurd (congrArg Option.isSome hkept) (by decide)
  · intro h
    obtain ⟨t', ht', hsame⟩ := h (fun _ => []) completedReport _
      [.base .reopen, .save drawn completedConfig] rfl
    obtain rfl := Option.some.inj ht'
    exact absurd hsame (by decide)

end ConfigSaves

end RownRg.Workflows

import Mathlib.Data.Rat.Defs
import Mathlib.Logic.Function.Basic
import RownRg.Lib.LossyQueue
import RownRg.Lib.Runs
import RownRg.Lib.Scan

/-! The progress of the projects: the messages to the open sockets, and the steps under way. -/

open PyText Regex LossyQueue Runs

namespace RownRg.Progress

/-- The messages of `ws-messages.ts` that the server sends. -/
inductive Message where
  | phase (phase status : Text)
  | step (phase step status : Text) (etaSeconds : Option Int)
  | cost (tokensUsed : Int) (costUsd : ℚ)
  | checkpoint (checkpointId : Text) (level : Nat)
  | error (code message : Text)
  deriving DecidableEq

/-- `_QUEUE_MAX` -/
def queueMax : Nat := 512

/-- `_ACTIVE_STEPS_CAP` -/
def activeStepsCap : Nat := 12

/-- `_COUNTER_RE` -/
def counterRe : Regex Unit := cat [plus digit, chr '/', plus digit, star (noneOf ['\n']), textEnd]

/-- A label without its counter and what follows it. -/
def family (step : Text) : Text := counterRe.sub (fun _ => []) step

/-- A label with a counter. -/
def Counts (step : Text) : Prop := family step ≠ step

instance (step : Text) : Decidable (Counts step) := inferInstanceAs (Decidable (_ ≠ _))

/-- The subscribed queues of each project, the queues that were made, by their numbers and with what
their sockets have sent, the last step message and the steps under way. -/
structure State (π : Type) where
  subs : π → List Nat
  readers : List (Reader Message)
  lastSteps : π → Option Message
  activeSteps : π → List (Text × Text)

inductive Event (π : Type) where
  | subscribe (projectId : π)
  | unsubscribe (projectId : π) (queue : Nat)
  | receive (queue : Nat)
  | emitPhase (projectId : π) (phase status : Text)
  | emitStep (projectId : π) (phase step status : Text) (etaSeconds : Option Int)
  | emitCost (projectId : π) (tokensUsed : Int) (costUsd : ℚ)
  | emitCheckpoint (projectId : π) (checkpointId : Text) (level : Nat)
  | emitError (projectId : π) (code message : Text)

variable {π : Type} [DecidableEq π]

def initial : State π := ⟨fun _ => [], [], fun _ => none, fun _ => []⟩

def started : Text := "started".toList
def completed : Text := "completed".toList

def subscribe (s : State π) (projectId : π) : State π := { s with
  readers := s.readers ++ [⟨[], []⟩]
  subs := Function.update s.subs projectId (s.subs projectId ++ [s.readers.length]) }

def unsubscribe (s : State π) (projectId : π) (queue : Nat) : State π :=
  { s with subs := Function.update s.subs projectId ((s.subs projectId).filter (· ≠ queue)) }

def publish (s : State π) (projectId : π) (message : Message) : State π :=
  { s with readers := s.readers.mapIdx fun n r =>
      if n ∈ s.subs projectId then r.apply queueMax (.put message) else r }

/-- The steps that a start leaves: the next tick of a counter takes the place of the others. -/
def leaves (steps : List (Text × Text)) (k : Text × Text) : List (Text × Text) :=
  if Counts k.2 then steps.filter fun x => ¬ (x.1 = k.1 ∧ family x.2 = family k.2) else steps

/-- The steps under way once another has started. -/
def startStep (steps : List (Text × Text)) (k : Text × Text) : List (Text × Text) :=
  let steps := leaves steps k
  if steps.length < activeStepsCap then if k ∈ steps then steps else steps ++ [k] else steps

def emitPhase (s : State π) (projectId : π) (phase status : Text) : State π :=
  let s :=
    if status = completed then { s with
      lastSteps := Function.update s.lastSteps projectId none
      activeSteps := Function.update s.activeSteps projectId
        ((s.activeSteps projectId).filter fun k => k.1 ≠ phase) }
    else s
  publish s projectId (.phase phase status)

def emitStep (s : State π) (projectId : π) (phase step status : Text) (etaSeconds : Option Int) :
    State π :=
  let message := .step phase step status etaSeconds
  let steps := s.activeSteps projectId
  publish { s with
    lastSteps := Function.update s.lastSteps projectId (some message)
    activeSteps := Function.update s.activeSteps projectId
      (if status = started then startStep steps (phase, step)
      else steps.filter fun k => k ≠ (phase, step)) } projectId message

/-- One event; a socket waits for a message. -/
def step (s : State π) : Event π → Option (State π)
  | .subscribe p => some (subscribe s p)
  | .unsubscribe p n => some (unsubscribe s p n)
  | .receive n => do
    let r ← s.readers[n]?
    if r.queue.isEmpty then none else return { s with readers := s.readers.set n r.take }
  | .emitPhase p phase status => some (emitPhase s p phase status)
  | .emitStep p phase step status eta => some (emitStep s p phase step status eta)
  | .emitCost p tokens cost => some (publish s p (.cost tokens cost))
  | .emitCheckpoint p id level => some (publish s p (.checkpoint id level))
  | .emitError p code message => some (publish s p (.error code message))

/-! What a subscriber hears. -/

def messageOf : Event π → Option (π × Message)
  | .emitPhase p phase status => some (p, .phase phase status)
  | .emitStep p phase step status eta => some (p, .step phase step status eta)
  | .emitCost p tokens cost => some (p, .cost tokens cost)
  | .emitCheckpoint p id level => some (p, .checkpoint id level)
  | .emitError p code message => some (p, .error code message)
  | _ => none

/-- Whether a subscription is still on after an event. -/
def stays (p : π) (n : Nat) (live : Bool) : Event π → Bool
  | .unsubscribe p' n' => live && !(p' = p && n' = n)
  | _ => live

/-- What an event does to the queue of a subscription. -/
def opAt (p : π) (n : Nat) (live : Bool) (e : Event π) : List (Op Message) :=
  match e with
  | .receive n' => if n' = n then [.take] else []
  | e =>
    match messageOf e with
    | some (p', m) => if live ∧ p' = p then [.put m] else []
    | none => []

def opsOf (p : π) (n : Nat) : Bool → List (Event π) → List (Op Message)
  | _, [] => []
  | live, e :: es => opAt p n live e ++ opsOf p n (stays p n live e) es

/-- The messages of its project from a subscription on, until it ends. -/
def heard (p : π) (n : Nat) (es : List (Event π)) : List Message := puts (opsOf p n true es)

/-- The numbers of the subscribed queues are of queues that were made. -/
def Made (s : State π) : Prop := ∀ p, ∀ n ∈ s.subs p, n < s.readers.length

/-- A queue is the one of a subscription, with what happened to it since. -/
structure Subscribed (p : π) (n : Nat) (live : Bool) (ops : List (Op Message)) (s : State π) :
    Prop where
  reader : s.readers[n]? = some (after queueMax ops)
  subs : ∀ p', n ∈ s.subs p' ↔ live ∧ p' = p

variable {s t : State π} {e : Event π} {es pre post : List (Event π)} {p p' : π} {n : Nat}
  {live : Bool} {ops : List (Op Message)} {m : Message}

omit [DecidableEq π] in
theorem publish_spec (s : State π) (p : π) (m : Message) :
    (publish s p m).subs = s.subs ∧ (publish s p m).activeSteps = s.activeSteps ∧
      (publish s p m).readers.length = s.readers.length := by
  simp [publish]

/-- A step makes a queue, ends a subscription, takes a message out, or publishes one. -/
theorem step_cases (h : step s e = some t) :
    (∃ p, e = .subscribe p ∧ t = subscribe s p) ∨
    (∃ p n, e = .unsubscribe p n ∧ t = unsubscribe s p n) ∨
    (∃ n r, e = .receive n ∧ s.readers[n]? = some r ∧ t = { s with readers := s.readers.set n r.take }) ∨
    ∃ p m, messageOf e = some (p, m) ∧ t.subs = s.subs ∧ t.readers = (publish s p m).readers := by
  cases e with
  | subscribe p => exact .inl ⟨p, rfl, (Option.some.inj h).symm⟩
  | unsubscribe p n => exact .inr (.inl ⟨p, n, rfl, (Option.some.inj h).symm⟩)
  | receive n =>
    obtain ⟨r, hr, h⟩ := Option.bind_eq_some_iff.mp h
    split at h
    · cases h
    · cases h
      exact .inr (.inr (.inl ⟨n, r, rfl, hr, rfl⟩))
  | emitPhase p phase status =>
    cases h
    refine .inr (.inr (.inr ⟨p, _, rfl, ?_, ?_⟩)) <;> simp only [emitPhase] <;> split <;> rfl
  | emitStep p phase step status eta =>
    cases h
    exact .inr (.inr (.inr ⟨p, _, rfl, rfl, rfl⟩))
  | emitCost p tokens cost =>
    cases h
    exact .inr (.inr (.inr ⟨p, _, rfl, rfl, rfl⟩))
  | emitCheckpoint p id level =>
    cases h
    exact .inr (.inr (.inr ⟨p, _, rfl, rfl, rfl⟩))
  | emitError p code message =>
    cases h
    exact .inr (.inr (.inr ⟨p, _, rfl, rfl, rfl⟩))

theorem mem_subs_subscribe (s : State π) (p q : π) (n : Nat) :
    n ∈ (subscribe s p).subs q ↔ n ∈ s.subs q ∨ q = p ∧ n = s.readers.length := by
  by_cases h : q = p
  · subst h
    simp [subscribe]
  · simp [subscribe, h]

theorem mem_subs_unsubscribe (s : State π) (p q : π) (n k : Nat) :
    k ∈ (unsubscribe s p n).subs q ↔ k ∈ s.subs q ∧ ¬ (q = p ∧ k = n) := by
  by_cases h : q = p
  · subst h
    simp [unsubscribe]
  · simp [unsubscribe, h]

omit [DecidableEq π] in
theorem getElem?_publish (s : State π) (p : π) (m : Message) (n : Nat) :
    (publish s p m).readers[n]? = s.readers[n]?.map fun r =>
      if n ∈ s.subs p then r.apply queueMax (.put m) else r := by
  simp [publish]

theorem made_step (h : Made s) (hstep : step s e = some t) : Made t := by
  obtain ⟨p, rfl, rfl⟩ | ⟨p, n, rfl, rfl⟩ | ⟨n, r, rfl, -, rfl⟩ | ⟨p, m, -, hsubs, hreaders⟩ :=
    step_cases hstep
  · intro q k hk
    have hlen : (subscribe s p).readers.length = s.readers.length + 1 := by simp [subscribe]
    rcases (mem_subs_subscribe s p q k).mp hk with hk | ⟨-, rfl⟩
    · have hlt := h q k hk
      omega
    · omega
  · exact fun q k hk => h q k ((mem_subs_unsubscribe s p q n k).mp hk).1
  · intro q k hk
    rw [List.length_set]
    exact h q k hk
  · intro q k hk
    rw [hreaders, (publish_spec s p m).2.2]
    exact h q k (hsubs ▸ hk)

theorem opAt_of_message (p : π) (n : Nat) (live : Bool) (h : messageOf e = some (p', m)) :
    stays p n live e = live ∧ opAt p n live e = if live ∧ p' = p then [.put m] else [] := by
  cases e <;> simp_all [messageOf, stays, opAt]

/-- What one step does to the queue of a subscription. -/
theorem subscribed_step (h : Subscribed p n live ops s) (hstep : step s e = some t) :
    Subscribed p n (stays p n live e) (ops ++ opAt p n live e) t := by
  have hlen : n < s.readers.length := (List.getElem?_eq_some_iff.mp h.reader).1
  obtain ⟨q, rfl, rfl⟩ | ⟨q, k, rfl, rfl⟩ | ⟨k, r, rfl, hr, rfl⟩ | ⟨q, m, hm, hsubs, hreaders⟩ :=
    step_cases hstep
  · refine ⟨?_, fun p' => ?_⟩
    · simp [opAt, messageOf, subscribe, List.getElem?_append_left hlen, h.reader]
    · rw [mem_subs_subscribe, h.subs]
      simp [stays, hlen.ne]
  · refine ⟨by simpa [opAt, messageOf, unsubscribe] using h.reader, fun p' => ?_⟩
    rw [mem_subs_unsubscribe, h.subs]
    by_cases hp' : p' = p
    · subst hp'
      simp only [stays, @eq_comm _ q p', @eq_comm _ k n, and_true, Bool.and_eq_true,
        Bool.not_eq_true', Bool.and_eq_false_iff, decide_eq_false_iff_not, not_and_or]
    · simp [hp']
  · refine ⟨?_, h.subs⟩
    by_cases hk : k = n
    · subst hk
      obtain rfl : r = after queueMax ops := Option.some.inj (hr.symm.trans h.reader)
      simp [opAt, after_concat, Reader.apply, hlen]
    · simp [opAt, hk, h.reader]
  · obtain ⟨hstays, hop⟩ := opAt_of_message p n live hm
    rw [hstays, hop]
    refine ⟨?_, fun p' => by rw [hsubs, h.subs]⟩
    rw [hreaders, getElem?_publish, h.reader, Option.map_some]
    by_cases hlive : live ∧ q = p
    · rw [if_pos ((h.subs q).mpr hlive), if_pos hlive, after_concat]
    · rw [if_neg fun hn => hlive ((h.subs q).mp hn), if_neg hlive, List.append_nil]

theorem subscribed_run (h : Subscribed p n live ops s) (hrun : run step s es = some t) :
    t.readers[n]? = some (after queueMax (ops ++ opsOf p n live es)) := by
  induction es generalizing s live ops with
  | nil =>
    cases hrun
    simpa [opsOf] using h.reader
  | cons e es ih =>
    obtain ⟨u, hu, hrun⟩ := Option.bind_eq_some_iff.mp hrun
    rw [opsOf, ← List.append_assoc]
    exact ih (subscribed_step h hu) hrun

theorem made_run (h : run step initial es = some t) : Made t :=
  invariant_run (fun _ _ _ hstep hs => made_step hs hstep)
    (fun _ _ hn => absurd hn (by simp [initial])) h

/-- A socket: its queue holds at most 512 messages, the newest of its project since it subscribed;
what it has sent and what waits is of its project, in order, and nothing comes twice; and nothing is
missing exactly where no message found the queue full. -/
theorem subscriber_hears (pre : List (Event π)) (p : π) (post : List (Event π))
    (h : run step initial (pre ++ .subscribe p :: post) = some t) :
    ∃ s r, run step initial pre = some s ∧ t.readers[s.readers.length]? = some r ∧
      r.queue.length ≤ queueMax ∧ r.queue <:+ heard p s.readers.length post ∧
      (r.taken ++ r.queue).Sublist (heard p s.readers.length post) ∧
      (r.taken ++ r.queue = heard p s.readers.length post ↔
        Roomy queueMax (opsOf p s.readers.length true post)) := by
  obtain ⟨s, u, hs, hu, hpost⟩ := run_split h
  obtain rfl := Option.some.inj hu
  have hmade := made_run hs
  have hsub : Subscribed p s.readers.length true [] (subscribe s p) := by
    refine ⟨by simp [subscribe, after], fun q => ?_⟩
    rw [mem_subs_subscribe]
    have hnot : s.readers.length ∉ s.subs q := fun hmem => (hmade q _ hmem).false
    simp [hnot]
  have hcap : 0 < queueMax := by decide
  exact ⟨s, _, hs, subscribed_run hsub hpost, length_queue hcap _, queue_suffix hcap _,
    taken_sublist hcap _, lossless_iff hcap _⟩

/-- A socket that came later, and messages of its project and of another. -/
theorem subscriber_hears_own : ∃ t s r,
    run step initial ([.subscribe 1] ++ .subscribe 0 :: [.emitCost 0 5 1, .emitCost 1 7 2, .receive 1,
      .emitCost 0 9 3]) = some t ∧
    run step (initial : State Nat) [.subscribe 1] = some s ∧
    t.readers[s.readers.length]? = some r ∧ r.taken = [.cost 5 1] ∧ r.queue = [.cost 9 3] ∧
    (r.taken ++ r.queue).Sublist (heard 0 s.readers.length
      [.emitCost 0 5 1, .emitCost 1 7 2, .receive 1, .emitCost 0 9 3]) := by
  obtain ⟨s, r, hs, hr, -, -, hsub, -⟩ := subscriber_hears [.subscribe 1] 0
    [.emitCost 0 5 1, .emitCost 1 7 2, .receive 1, .emitCost 0 9 3] rfl
  obtain rfl := Option.some.inj hs
  obtain rfl := Option.some.inj hr
  exact ⟨_, _, _, rfl, rfl, rfl, rfl, rfl, hsub⟩

/-! The steps under way. -/

/-- What ends a step, or what takes its place: its own end, the end of its phase, or the next tick of
the same counter. -/
def Closes (p : π) (k : Text × Text) : Event π → Prop
  | .emitPhase p' phase status => p' = p ∧ status = completed ∧ phase = k.1
  | .emitStep p' phase step status _ =>
    p' = p ∧ if status = started then Counts step ∧ k.1 = phase ∧ family k.2 = family step
      else k = (phase, step)
  | _ => False

/-- A start of the step that finds a free place. -/
def Opens (p : π) (k : Text × Text) (s : State π) (e : Event π) : Prop :=
  ∃ eta, e = .emitStep p k.1 k.2 started eta ∧ (leaves (s.activeSteps p) k).length < activeStepsCap

variable {k x : Text × Text} {steps : List (Text × Text)}

theorem mem_leaves : x ∈ leaves steps k ↔
    x ∈ steps ∧ ¬ (Counts k.2 ∧ x.1 = k.1 ∧ family x.2 = family k.2) := by
  unfold leaves
  by_cases h : Counts k.2
  · simp [h, or_iff_not_imp_left]
  · simp [h]

theorem leaves_sublist (steps : List (Text × Text)) (k : Text × Text) :
    (leaves steps k).Sublist steps := by
  unfold leaves
  split
  · exact List.filter_sublist
  · exact List.Sublist.refl _

theorem startStep_cases (steps : List (Text × Text)) (k : Text × Text) :
    (startStep steps k = leaves steps k ∧
      (k ∈ leaves steps k ∨ ¬ (leaves steps k).length < activeStepsCap)) ∨
    startStep steps k = leaves steps k ++ [k] ∧ k ∉ leaves steps k ∧
      (leaves steps k).length < activeStepsCap := by
  unfold startStep
  by_cases hroom : (leaves steps k).length < activeStepsCap
  · by_cases hmem : k ∈ leaves steps k <;> simp [hroom, hmem]
  · simp [hroom]

theorem mem_startStep : x ∈ startStep steps k ↔
    x ∈ leaves steps k ∨ x = k ∧ (leaves steps k).length < activeStepsCap := by
  obtain ⟨h, hmem | hfull⟩ | ⟨h, -, hroom⟩ := startStep_cases steps k
  · rw [h]
    exact ⟨.inl, fun hx => hx.elim id fun hk => hk.1 ▸ hmem⟩
  · rw [h]
    exact ⟨.inl, fun hx => hx.elim id fun hk => absurd hk.2 hfull⟩
  · simp [h, hroom]

theorem length_startStep (h : steps.length ≤ activeStepsCap) :
    (startStep steps k).length ≤ activeStepsCap := by
  obtain ⟨heq, -⟩ | ⟨heq, -, hroom⟩ := startStep_cases steps k
  · rw [heq]
    exact (leaves_sublist steps k).length_le.trans h
  · rw [heq, List.length_append]
    exact hroom

theorem nodup_startStep (h : steps.Nodup) : (startStep steps k).Nodup := by
  obtain ⟨heq, -⟩ | ⟨heq, hnew, -⟩ := startStep_cases steps k
  · rw [heq]
    exact h.sublist (leaves_sublist steps k)
  · rw [heq]
    refine List.nodup_append.mpr ⟨h.sublist (leaves_sublist steps k), by simp, ?_⟩
    rintro a ha b hb rfl
    exact hnew (List.mem_singleton.mp hb ▸ ha)

/-- What an event makes of the steps of a project. -/
def stepsAfter (p : π) (steps : List (Text × Text)) : Event π → List (Text × Text)
  | .emitPhase p' phase status =>
    if p' = p ∧ status = completed then steps.filter fun k => k.1 ≠ phase else steps
  | .emitStep p' phase step status _ =>
    if p' = p then
      if status = started then startStep steps (phase, step)
      else steps.filter fun k => k ≠ (phase, step)
    else steps
  | _ => steps

theorem activeSteps_step (p : π) (hstep : step s e = some t) :
    t.activeSteps p = stepsAfter p (s.activeSteps p) e := by
  cases e with
  | subscribe q =>
    cases hstep
    rfl
  | unsubscribe q n =>
    cases hstep
    rfl
  | receive n =>
    obtain ⟨r, -, h⟩ := Option.bind_eq_some_iff.mp hstep
    split at h
    · cases h
    · cases h
      rfl
  | emitPhase q phase status =>
    cases hstep
    simp only [emitPhase, (publish_spec _ _ _).2.1, stepsAfter]
    by_cases hq : q = p
    · subst hq
      split <;> simp_all
    · split <;> simp_all [eq_comm]
  | emitStep q phase step status eta =>
    cases hstep
    simp only [emitStep, (publish_spec _ _ _).2.1, stepsAfter, Function.update_apply]
    by_cases hq : q = p
    · subst hq
      simp
    · rw [if_neg hq, if_neg (Ne.symm hq)]
  | emitCost q tokens cost =>
    cases hstep
    rfl
  | emitCheckpoint q id level =>
    cases hstep
    rfl
  | emitError q code message =>
    cases hstep
    rfl

/-- A step under way stays so until it is closed; another is under way where it opens. -/
theorem active_step (p : π) (k : Text × Text) (hstep : step s e = some t) :
    k ∈ t.activeSteps p ↔ k ∈ s.activeSteps p ∧ ¬ Closes p k e ∨ Opens p k s e := by
  rw [activeSteps_step p hstep]
  cases e with
  | emitPhase q phase status =>
    have hnot : ¬ Opens p k s (.emitPhase q phase status) := by
      rintro ⟨eta, h, -⟩
      cases h
    rw [or_iff_left hnot]
    by_cases h : q = p ∧ status = completed
    · simp only [stepsAfter, Closes, if_pos h, List.mem_filter, decide_eq_true_eq]
      simp only [h, true_and, ne_comm]
    · simp only [stepsAfter, Closes, if_neg h]
      exact ⟨fun hk => ⟨hk, fun hc => h ⟨hc.1, hc.2.1⟩⟩, fun hk => hk.1⟩
  | emitStep q phase step status eta =>
    by_cases hopen : q = p ∧ status = started
    · obtain ⟨rfl, rfl⟩ := hopen
      have hopens : Opens q k s (.emitStep q phase step started eta) ↔
          k = (phase, step) ∧ (leaves (s.activeSteps q) (phase, step)).length < activeStepsCap := by
        constructor
        · rintro ⟨eta, h, hroom⟩
          cases h
          exact ⟨rfl, hroom⟩
        · rintro ⟨rfl, hroom⟩
          exact ⟨eta, rfl, hroom⟩
      rw [hopens]
      simp only [stepsAfter, if_true, mem_startStep, mem_leaves, Closes, true_and]
    · have hnot : ¬ Opens p k s (.emitStep q phase step status eta) := by
        rintro ⟨eta, h, -⟩
        cases h
        exact hopen ⟨rfl, rfl⟩
      rw [or_iff_left hnot]
      by_cases hq : q = p
      · have hst : status ≠ started := fun hst => hopen ⟨hq, hst⟩
        simp [stepsAfter, Closes, hq, hst]
      · simp [stepsAfter, Closes, hq]
  | _ => simp [stepsAfter, Closes, Opens]

theorem active_run (p : π) (k : Text × Text) (hrun : run step s es = some t) :
    k ∈ t.activeSteps p ↔ (k ∈ s.activeSteps p ∧ ∀ e ∈ es, ¬ Closes p k e) ∨
      ∃ pre e post u, es = pre ++ e :: post ∧ run step s pre = some u ∧ Opens p k u e ∧
        ∀ e' ∈ post, ¬ Closes p k e' := by
  induction es generalizing s with
  | nil =>
    cases hrun
    simp
  | cons e es ih =>
    obtain ⟨u, hu, hrun⟩ := Option.bind_eq_some_iff.mp hrun
    rw [ih hrun, active_step p k hu]
    constructor
    · rintro (⟨⟨hk, hnot⟩ | hopens, hes⟩ | ⟨pre, e', post, v, rfl, hv, hopens, hpost⟩)
      · exact .inl ⟨hk, List.forall_mem_cons.mpr ⟨hnot, hes⟩⟩
      · exact .inr ⟨[], e, es, s, rfl, rfl, hopens, hes⟩
      · exact .inr ⟨e :: pre, e', post, v, rfl, by rw [Runs.run, hu, Option.bind_some, hv], hopens,
          hpost⟩
    · rintro (⟨hk, hes⟩ | ⟨pre, e', post, v, hsplit, hv, hopens, hpost⟩)
      · obtain ⟨hnot, hes⟩ := List.forall_mem_cons.mp hes
        exact .inl ⟨.inl ⟨hk, hnot⟩, hes⟩
      · cases pre with
        | nil =>
          obtain ⟨rfl, rfl⟩ := List.cons.inj hsplit
          cases hv
          exact .inl ⟨.inr hopens, hpost⟩
        | cons e₁ pre =>
          obtain ⟨rfl, rfl⟩ := List.cons.inj hsplit
          rw [Runs.run, hu, Option.bind_some] at hv
          exact .inr ⟨pre, e', post, v, rfl, hv, hopens, hpost⟩

/-- No more than twelve steps of a project are shown, each once; and a step is shown exactly where it
started with a place free and nothing has closed it since. -/
theorem active_steps (es : List (Event π)) (p : π) (h : run step initial es = some t) :
    (t.activeSteps p).Nodup ∧ (t.activeSteps p).length ≤ activeStepsCap ∧
      ∀ k, k ∈ t.activeSteps p ↔ ∃ pre e post s, es = pre ++ e :: post ∧
        run step initial pre = some s ∧ Opens p k s e ∧ ∀ e' ∈ post, ¬ Closes p k e' := by
  have hkeep : (t.activeSteps p).Nodup ∧ (t.activeSteps p).length ≤ activeStepsCap := by
    refine invariant_run (P := fun s => (s.activeSteps p).Nodup ∧
      (s.activeSteps p).length ≤ activeStepsCap) (fun s e u hu hs => ?_) (by simp [initial]) h
    rw [activeSteps_step p hu]
    unfold stepsAfter
    split
    · split
      · exact ⟨hs.1.filter _, (List.length_filter_le _ _).trans hs.2⟩
      · exact hs
    · split
      · split
        · exact ⟨nodup_startStep hs.1, length_startStep hs.2⟩
        · exact ⟨hs.1.filter _, (List.length_filter_le _ _).trans hs.2⟩
      · exact hs
    · exact hs
  refine ⟨hkeep.1, hkeep.2, fun k => ?_⟩
  rw [active_run p k h]
  simp [initial]

/-- The tick of a counter takes the place of the tick before. -/
def ticks : List (Event Nat) :=
  [.emitStep 0 "writing".toList "절 1/3".toList started none,
    .emitStep 0 "writing".toList "절 2/3".toList started none]

theorem active_steps_tick : ∃ t, run step initial ticks = some t ∧
    t.activeSteps 0 = [("writing".toList, "절 2/3".toList)] ∧ (t.activeSteps 0).Nodup ∧
    (t.activeSteps 0).length ≤ activeStepsCap := by
  refine ⟨_, rfl, ?_, (active_steps ticks 0 rfl).1, (active_steps ticks 0 rfl).2.1⟩
  decide

end RownRg.Progress

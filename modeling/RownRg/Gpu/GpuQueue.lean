import RownRg.Lib.Rounding
import RownRg.Lib.Runs

/-! The queue in front of the GPU: who is let in, who waits, who runs. -/

open PyText Runs

namespace RownRg.Gpu

/-- `_EWMA_ALPHA` -/
def ewmaAlpha : Double := .round (1 / 5)

/-- `_INITIAL_TASK_S` -/
def initialTaskS : Double := .finite (9 / 2)

/-- `_ABSOLUTE_CAP` -/
def absoluteCap : Nat := 256

/-- What a refused request is told. -/
structure GpuBusy where
  inFlight : Int
  estimatedWaitS : Double
  limitS : Double
  deriving DecidableEq

/-- The queue, the free permits of its semaphore, and the requests that are between the two
updates of the counter. -/
structure GpuQueue (ρ : Type) where
  permits : Nat
  concurrency : Nat
  maxWaitS : Double
  inFlight : Int
  avgTaskS : Double
  completed : Nat
  lastWaitMs : Double
  rejected : Nat
  waiting : List ρ
  running : List ρ
  deriving DecidableEq

/-- `GpuQueue.__init__`; the semaphore takes the concurrency as it is. -/
def GpuQueue.init (ρ : Type) (concurrency : Nat) (maxWaitS initialTaskS : Double) : GpuQueue ρ where
  permits := concurrency
  concurrency := max 1 concurrency
  maxWaitS := maxWaitS
  inFlight := 0
  avgTaskS := initialTaskS
  completed := 0
  lastWaitMs := .finite 0
  rejected := 0
  waiting := []
  running := []

variable {ρ : Type} [DecidableEq ρ]

def GpuQueue.estimatedWaitS (q : GpuQueue ρ) : Double :=
  let ahead := max 0 q.inFlight
  .mul (.round (ahead / q.concurrency)) q.avgTaskS

def GpuQueue.tooLong (q : GpuQueue ρ) : Bool :=
  (Double.finite 0).lt q.maxWaitS && q.maxWaitS.lt q.estimatedWaitS

/-- The request is let in or refused; nothing comes between the check and the counter. -/
def GpuQueue.acquire (q : GpuQueue ρ) (r : ρ) : Except GpuBusy Unit × GpuQueue ρ :=
  if q.tooLong || decide ((absoluteCap : Int) ≤ q.inFlight) then
    (.error ⟨q.inFlight, q.estimatedWaitS, q.maxWaitS⟩, { q with rejected := q.rejected + 1 })
  else (.ok (), { q with inFlight := q.inFlight + 1, waiting := q.waiting ++ [r] })

/-- What can happen between two awaits. -/
inductive GpuEvent (ρ : Type) where
  | acquire (r : ρ)
  /-- The semaphore gives a permit to a request that waits for one. -/
  | start (r : ρ) (waitMs : Double)
  /-- The body ends, by itself or with an exception. -/
  | finish (r : ρ) (took : Double)
  /-- A request that still waits is cancelled. -/
  | cancel (r : ρ)
  deriving DecidableEq

def step (q : GpuQueue ρ) : GpuEvent ρ → Option (GpuQueue ρ)
  | .acquire r => some (q.acquire r).2
  | .start r waitMs =>
    if r ∈ q.waiting ∧ 0 < q.permits then
      some { q with
        permits := q.permits - 1
        lastWaitMs := waitMs
        waiting := q.waiting.erase r
        running := q.running ++ [r] }
    else none
  | .finish r took =>
    if r ∈ q.running then
      some { q with
        permits := q.permits + 1
        inFlight := q.inFlight - 1
        avgTaskS := .add (.mul ewmaAlpha took) (.mul (.sub (.finite 1) ewmaAlpha) q.avgTaskS)
        completed := q.completed + 1
        running := q.running.erase r }
    else none
  | .cancel r =>
    if r ∈ q.waiting then
      some { q with inFlight := q.inFlight - 1, waiting := q.waiting.erase r }
    else none

/-- The books of a queue with so many permits in all. -/
structure Balanced (permits : Nat) (q : GpuQueue ρ) : Prop where
  counted : q.inFlight = q.waiting.length + q.running.length
  permitted : q.permits + q.running.length = permits
  capped : q.inFlight ≤ absoluteCap

variable {q q' : GpuQueue ρ} {permits : Nat} {e : GpuEvent ρ} {es : List (GpuEvent ρ)} {r : ρ}

omit [DecidableEq ρ] in
theorem balanced_init (concurrency : Nat) (maxWaitS initialTaskS : Double) :
    Balanced concurrency (GpuQueue.init ρ concurrency maxWaitS initialTaskS) :=
  ⟨rfl, rfl, by simp [GpuQueue.init, absoluteCap]⟩

omit [DecidableEq ρ] in
theorem balanced_acquire (h : Balanced permits q) (r : ρ) : Balanced permits (q.acquire r).2 := by
  unfold GpuQueue.acquire
  split
  · exact ⟨h.counted, h.permitted, h.capped⟩
  · rename_i hopen
    have hroom : ¬ (absoluteCap : Int) ≤ q.inFlight := by
      intro hfull
      exact hopen (by simp [hfull])
    have hcount := h.counted
    refine ⟨?_, h.permitted, ?_⟩
    · simp
      omega
    · simp only
      omega

/-- Every event keeps the books. -/
theorem balanced_step (hstep : step q e = some q') (h : Balanced permits q) :
    Balanced permits q' := by
  have hcount := h.counted
  have hpermits := h.permitted
  have hcap := h.capped
  cases e with
  | acquire r =>
    obtain rfl := Option.some.inj hstep
    exact balanced_acquire h r
  | start r waitMs =>
    obtain ⟨⟨hr, hfree⟩, hsome⟩ := Option.ite_none_right_eq_some.mp hstep
    obtain rfl := Option.some.inj hsome
    have hlen := List.length_erase_of_mem hr
    have hpos := List.length_pos_of_mem hr
    refine ⟨?_, ?_, hcap⟩
    · simp only [List.length_append, List.length_singleton]
      omega
    · simp only [List.length_append, List.length_singleton]
      omega
  | finish r took =>
    obtain ⟨hr, hsome⟩ := Option.ite_none_right_eq_some.mp hstep
    obtain rfl := Option.some.inj hsome
    have hlen := List.length_erase_of_mem hr
    have hpos := List.length_pos_of_mem hr
    refine ⟨?_, ?_, ?_⟩
    · simp only
      omega
    · simp only
      omega
    · simp only
      omega
  | cancel r =>
    obtain ⟨hr, hsome⟩ := Option.ite_none_right_eq_some.mp hstep
    obtain rfl := Option.some.inj hsome
    have hlen := List.length_erase_of_mem hr
    have hpos := List.length_pos_of_mem hr
    refine ⟨?_, hpermits, ?_⟩
    · simp only
      omega
    · simp only
      omega

theorem balanced_run {concurrency : Nat} {maxWaitS initialTaskS : Double}
    (hrun : run step (GpuQueue.init ρ concurrency maxWaitS initialTaskS) es = some q) :
    Balanced concurrency q :=
  invariant_run (fun _ _ _ hstep h => balanced_step hstep h)
    (balanced_init concurrency maxWaitS initialTaskS) hrun

omit [DecidableEq ρ] in
theorem refused_iff (q : GpuQueue ρ) (r : ρ) : (q.acquire r).1 ≠ .ok () ↔
    (absoluteCap : Int) ≤ q.inFlight ∨ q.tooLong := by
  unfold GpuQueue.acquire
  split
  · rename_i hfull
    simpa [or_comm] using hfull
  · rename_i hopen
    simpa [or_comm] using hopen

/-- In every state of every run the counter is the number of requests that wait or run, both
limits hold, a request is refused at the cap or where a maximum is set and the estimate is above
it, and once all are done everything is back where it began. -/
theorem queue_accounts (concurrency : Nat) (maxWaitS initialTaskS : Double)
    (es : List (GpuEvent ρ)) (q : GpuQueue ρ)
    (hrun : run step (GpuQueue.init ρ concurrency maxWaitS initialTaskS) es = some q) :
    q.inFlight = q.waiting.length + q.running.length ∧
    0 ≤ q.inFlight ∧
    q.running.length ≤ concurrency ∧
    q.inFlight ≤ absoluteCap ∧
    (∀ r, (q.acquire r).1 ≠ .ok () ↔ (absoluteCap : Int) ≤ q.inFlight ∨
      (Double.finite 0).lt q.maxWaitS ∧ q.maxWaitS.lt q.estimatedWaitS) ∧
    (q.waiting = [] → q.running = [] → q.inFlight = 0 ∧ q.permits = concurrency) := by
  have h := balanced_run hrun
  have hcount := h.counted
  have hpermits := h.permitted
  refine ⟨hcount, by omega, by omega, h.capped, fun r => ?_, fun hwaiting hrunning => ?_⟩
  · rw [refused_iff, GpuQueue.tooLong, Bool.and_eq_true]
  · rw [hwaiting, hrunning] at hcount
    rw [hrunning] at hpermits
    exact ⟨by simpa using hcount, by simpa using hpermits⟩

theorem queue_accounts_three :
    let es : List (GpuEvent Nat) :=
      [.acquire 0, .acquire 1, .acquire 2, .start 0 (.finite 0), .cancel 1,
        .finish 0 (.finite 2), .start 2 (.finite 2000), .finish 2 (.finite 1)]
    ∃ q, run step (GpuQueue.init Nat 1 (.finite 30) initialTaskS) es = some q ∧
      q.inFlight = 0 ∧ q.permits = 1 := by
  intro es
  have hends : (run step (GpuQueue.init Nat 1 (.finite 30) initialTaskS) es).any
      (fun q => q.waiting = [] ∧ q.running = []) := by decide +kernel
  obtain ⟨q, hrun, hdone⟩ := (Option.any_eq_true _ _).mp hends
  obtain ⟨hwaiting, hrunning⟩ := of_decide_eq_true hdone
  obtain ⟨-, -, -, -, -, hback⟩ := queue_accounts 1 (.finite 30) initialTaskS es q hrun
  exact ⟨q, hrun, hback hwaiting hrunning⟩

/-- Where no maximum is set the estimate refuses nobody: one request runs for some 4.5 s, the
maximum is 0, and the next one is let in. -/
theorem let_in_without_maximum :
    ¬ ∀ (maxWaitS : Double) (es : List (GpuEvent Nat)) (q : GpuQueue Nat),
      run step (GpuQueue.init Nat 1 maxWaitS initialTaskS) es = some q →
      ∀ r, (q.acquire r).1 ≠ .ok () ↔
        (absoluteCap : Int) ≤ q.inFlight ∨ q.maxWaitS.lt q.estimatedWaitS := by
  intro hrefused
  have hrun : run step (GpuQueue.init Nat 1 (.finite 0) initialTaskS) [.acquire 0] =
      some ((GpuQueue.init Nat 1 (.finite 0) initialTaskS).acquire 0).2 := rfl
  have hin : (((GpuQueue.init Nat 1 (.finite 0) initialTaskS).acquire 0).2.acquire 1).1 =
      .ok () := by decide
  have hlet : (GpuQueue.init Nat 1 (.finite 0) initialTaskS).acquire 0 =
      (.ok (), { GpuQueue.init Nat 1 (.finite 0) initialTaskS with
        inFlight := 1, waiting := [0] }) := if_neg (by decide)
  have hone : Double.round 1 = .finite 1 := by
    simpa using Double.round_of_digits (m := 1) (e := 0) (by omega) (by omega) (by omega)
  have htask : Double.round (9 / 2) = initialTaskS := by
    have hdigits := Double.round_of_digits (m := 9) (e := -1) (by omega) (by omega) (by omega)
    norm_num at hdigits
    exact hdigits
  have hestimate : ((GpuQueue.init Nat 1 (.finite 0) initialTaskS).acquire 0).2.estimatedWaitS =
      initialTaskS := by
    have hmul : Double.mul (.finite 1) initialTaskS = .round (1 * (9 / 2)) := rfl
    rw [hlet]
    simpa [GpuQueue.estimatedWaitS, GpuQueue.init, hone, hmul] using htask
  have hlong : ((GpuQueue.init Nat 1 (.finite 0) initialTaskS).acquire 0).2.maxWaitS.lt
      ((GpuQueue.init Nat 1 (.finite 0) initialTaskS).acquire 0).2.estimatedWaitS := by
    rw [hestimate, hlet]
    norm_num [GpuQueue.init, initialTaskS, Double.lt]
  exact (hrefused _ _ _ hrun 1).mpr (.inr hlong) hin

end RownRg.Gpu

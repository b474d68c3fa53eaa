import Mathlib.Algebra.BigOperators.Group.List.Basic
import Mathlib.Algebra.Order.BigOperators.Group.List
import Mathlib.Tactic.Linarith
import RownRg.Lib.Decimal
import RownRg.Lib.Fallible
import RownRg.Lib.Metering

/-! The limits on the cost of a month: the gate before each real call, and the ledger the calls
are recorded in afterwards. -/

open PyText Fallible Runs Metering

namespace RownRg.QuotaGate

/-- `f"{x:.2f}"` of a decimal -/
def money (x : ℚ) : Text :=
  let cents := roundEven (|x| * 100)
  (if x < 0 then ['-'] else []) ++ ofNat (cents / 100) ++ '.' :: lastDigits 2 cents

structure QuotaExceededError where
  message : Text
  code : Text
  deriving DecidableEq

def exceeded (what : Text) (code : Text) (cost limit : ℚ) : QuotaExceededError :=
  ⟨what ++ " 월 비용 한도 초과: $".toList ++ money cost ++ " / $".toList ++ money limit, code⟩

def checkLimits (orgCost orgLimit : ℚ) (userCost userLimit : Option ℚ) :
    Except QuotaExceededError Unit := do
  require (orgCost < orgLimit) (exceeded "조직".toList "ORG_QUOTA_EXCEEDED".toList orgCost orgLimit)
  match userCost, userLimit with
  | some cost, some limit =>
    require (cost < limit) (exceeded "사용자".toList "USER_QUOTA_EXCEEDED".toList cost limit)
  | _, _ => return

/-- What is left of the month, by the tighter limit. -/
def remainingBudget (orgCost orgLimit : ℚ) (userCost userLimit : Option ℚ) : ℚ :=
  let candidates := match userCost, userLimit with
    | some cost, some limit => min (orgLimit - orgCost) (limit - cost)
    | _, _ => orgLimit - orgCost
  max 0 candidates

inductive Mode where
  | live | record | replay
  deriving DecidableEq

/-- A row of `token_usage`, created in the given month. -/
structure TokenUsage (υ : Type) where
  userId : Option υ
  costUsd : ℚ
  mode : Mode
  createdAt : ℕ

/-- How far a call has come. The gate takes the start of the month and reads the limits and the
sums one after another; the record is a transaction of its own. -/
inductive Stage where
  | asked (monthStart : ℕ)
  | sawOrgLimit (monthStart : ℕ) (orgLimit : ℚ)
  | sawOrgCost (monthStart : ℕ) (orgLimit orgCost : ℚ)
  | sawUserLimit (monthStart : ℕ) (orgLimit orgCost userLimit : ℚ)
  | calling
  | answered (cost : ℚ) (mode : Mode)
  | recording (createdAt : ℕ) (cost : ℚ) (mode : Mode)

structure Call (υ : Type) where
  userId : Option υ
  stage : Stage

/-- The ledger, the calls under way and the limits; an account without a limit is none. -/
structure State (υ : Type) where
  month : ℕ
  usage : List (TokenUsage υ)
  calls : List (Call υ)
  orgLimit : ℚ
  userLimit : υ → Option ℚ

inductive Event (υ : Type) where
  | ask (userId : Option υ)
  | replay (userId : Option υ) (cost : ℚ)
  | proceed (i : ℕ)
  | respond (i : ℕ) (cost : ℚ) (recorded : Bool)
  | drop (i : ℕ)
  | newMonth
  | setOrgLimit (limit : ℚ)
  | setUserLimit (userId : υ) (limit : ℚ)
  | deleteUser (userId : υ)

/-- Whose costs a limit is about. -/
inductive Scope (υ : Type) where
  | org
  | user (userId : υ)

variable {υ : Type} [DecidableEq υ]

def Scope.covers : Scope υ → Option υ → Bool
  | org, _ => true
  | user u, userId => userId == some u

/-- `sum(cost_usd)` of the rows from the month on, of one mode or of all. -/
def costOf (scope : Scope υ) (real : Bool) (monthStart : ℕ) (usage : List (TokenUsage υ)) : ℚ :=
  ((usage.filter fun row => scope.covers row.userId && monthStart ≤ row.createdAt &&
    (!real || row.mode != .replay)).map TokenUsage.costUsd).sum

def State.costSince (s : State υ) (scope : Scope υ) (monthStart : ℕ) : ℚ :=
  costOf scope false monthStart s.usage

/-- What happens to a call that goes on. -/
inductive Progress (υ : Type) where
  | reach (stage : Stage)
  | refused (e : QuotaExceededError)
  | recorded (row : TokenUsage υ)

def decideCall (orgCost orgLimit : ℚ) (userCost userLimit : Option ℚ) : Progress υ :=
  match checkLimits orgCost orgLimit userCost userLimit with
  | .ok () => .reach .calling
  | .error e => .refused e

/-- One step of `enforce` (with `_fetch_usage`) or of `record_usage`; a call waits for the provider
by itself, and a row of a deleted account is not accepted. -/
def progress (s : State υ) (call : Call υ) : Option (Progress υ) :=
  match call.stage with
  | .asked monthStart => some (.reach (.sawOrgLimit monthStart s.orgLimit))
  | .sawOrgLimit monthStart orgLimit =>
    some (.reach (.sawOrgCost monthStart orgLimit (s.costSince .org monthStart)))
  | .sawOrgCost monthStart orgLimit orgCost =>
    match call.userId.bind s.userLimit with
    | none => some (decideCall orgCost orgLimit none none)
    | some userLimit => some (.reach (.sawUserLimit monthStart orgLimit orgCost userLimit))
  | .sawUserLimit monthStart orgLimit orgCost userLimit =>
    match call.userId with
    | none => none
    | some u =>
      some (decideCall orgCost orgLimit (some (s.costSince (.user u) monthStart)) (some userLimit))
  | .calling => none
  | .answered cost mode => some (.reach (.recording s.month cost mode))
  | .recording createdAt cost mode =>
    if call.userId.all fun u => (s.userLimit u).isSome then
      some (.recorded ⟨call.userId, cost, mode, createdAt⟩)
    else none

/-- The provider answers a call; what it answers is kept as a cassette or not. -/
def Call.answer (call : Call υ) (cost : ℚ) (recorded : Bool) : Option (Call υ) :=
  match call.stage with
  | .calling => some ⟨call.userId, .answered cost (if recorded then .record else .live)⟩
  | _ => none

def setLimit (userLimit : υ → Option ℚ) (u : υ) (limit : Option ℚ) : υ → Option ℚ :=
  fun v => if v = u then limit else userLimit v

/-- `ondelete="SET NULL"` -/
def forgetUser (u : υ) (row : TokenUsage υ) : TokenUsage υ :=
  if row.userId = some u then { row with userId := none } else row

/-- One event; `enforced` is `settings.quota_enforcement_enabled`. -/
def step (enforced : Bool) (s : State υ) : Event υ → Option (State υ)
  | .ask userId =>
    let stage := if enforced then .asked s.month else .calling
    some { s with calls := s.calls ++ [⟨userId, stage⟩] }
  | .replay userId cost => some { s with calls := s.calls ++ [⟨userId, .answered cost .replay⟩] }
  | .proceed i => do
    let call ← s.calls[i]?
    match ← progress s call with
    | .reach stage => return { s with calls := s.calls.set i ⟨call.userId, stage⟩ }
    | .refused _ => return { s with calls := s.calls.eraseIdx i }
    | .recorded row => return { s with
        usage := s.usage ++ [row]
        calls := s.calls.eraseIdx i }
  | .respond i cost recorded => do
    let call ← s.calls[i]?
    let answered ← call.answer cost recorded
    return { s with calls := s.calls.set i answered }
  | .drop i => some { s with calls := s.calls.eraseIdx i }
  | .newMonth => some { s with month := s.month + 1 }
  | .setOrgLimit limit => some { s with orgLimit := limit }
  | .setUserLimit u limit =>
    if (s.userLimit u).isSome then some { s with userLimit := setLimit s.userLimit u (some limit) }
    else none
  | .deleteUser u => some { s with
      usage := s.usage.map (forgetUser u)
      userLimit := setLimit s.userLimit u none }

/-! What a limit sees of the calls. -/

/-- Whether a call was let through by what the limit reads, and its cost is not in the ledger. -/
def Stage.spends (scope : Scope υ) : Stage → Bool
  | .sawOrgCost _ limit cost | .sawUserLimit _ limit cost _ =>
    match scope with
    | .org => cost < limit
    | .user _ => false
  | .calling => true
  | .answered _ mode | .recording _ _ mode => mode != .replay
  | _ => false

def Call.counts (scope : Scope υ) (call : Call υ) : Bool :=
  scope.covers call.userId && call.stage.spends scope

/-- What the real calls of this month cost, as recorded. -/
def State.spent (s : State υ) (scope : Scope υ) : ℚ := costOf scope true s.month s.usage

def State.pending (s : State υ) (scope : Scope υ) : ℕ := s.calls.countP (Call.counts scope)

def State.meter (s : State υ) (scope : Scope υ) : Meter ℚ := ⟨s.spent scope, s.pending scope⟩

def State.limit (s : State υ) : Scope υ → Option ℚ
  | .org => some s.orgLimit
  | .user u => s.userLimit u

/-- What a call costs is not negative, and at most `C` where it is real. -/
def Event.Priced (C : ℚ) : Event υ → Prop
  | .replay _ cost => 0 ≤ cost
  | .respond _ cost _ => 0 ≤ cost ∧ cost ≤ C
  | _ => True

/-- A step under a limit of at most `L` that leaves at most `K` calls let through and unrecorded. -/
def Bounded (scope : Scope υ) (L C : ℚ) (K : ℕ) (s : State υ) (e : Event υ) (t : State υ) : Prop :=
  ((s.limit scope).any fun l => l ≤ L) ∧ e.Priced C ∧ t.pending scope ≤ K

/-- What a call has read so far, and what it costs. -/
def Call.Fine (scope : Scope υ) (L C : ℚ) (month : ℕ) (call : Call υ) : Prop :=
  match call.stage with
  | .asked monthStart => monthStart ≤ month
  | .sawOrgLimit monthStart limit => monthStart ≤ month ∧ (scope = .org → limit ≤ L)
  | .sawOrgCost monthStart _ _ => monthStart ≤ month
  | .sawUserLimit monthStart _ _ limit =>
    monthStart ≤ month ∧ ∀ u, scope = .user u → call.userId = some u → limit ≤ L
  | .calling => True
  | .answered cost mode | .recording _ cost mode => 0 ≤ cost ∧ (mode ≠ .replay → cost ≤ C)

structure Sound (scope : Scope υ) (L C : ℚ) (s : State υ) : Prop where
  rows : ∀ row ∈ s.usage, 0 ≤ row.costUsd
  calls : ∀ call ∈ s.calls, call.Fine scope L C s.month

variable {scope : Scope υ} {L C : ℚ} {K : ℕ}

instance (C : ℚ) (e : Event υ) : Decidable (e.Priced C) :=
  match e with
  | .replay _ cost => inferInstanceAs (Decidable (0 ≤ cost))
  | .respond _ cost _ => inferInstanceAs (Decidable (0 ≤ cost ∧ cost ≤ C))
  | .ask _ | .proceed _ | .drop _ | .newMonth | .setOrgLimit _ | .setUserLimit .. | .deleteUser _ =>
    isTrue trivial

instance (s : State υ) (e : Event υ) (t : State υ) : Decidable (Bounded scope L C K s e t) :=
  inferInstanceAs (Decidable (_ ∧ _ ∧ _))

variable {s t : State υ} {e : Event υ} {es : List (Event υ)}
  {call call' : Call υ} {row : TokenUsage υ} {usage : List (TokenUsage υ)} {i m m' : ℕ}
  {stage : Stage} {orgCost orgLimit : ℚ} {userCost userLimit : Option ℚ} {real : Bool}

/-- Nothing is left exactly where the gate refuses. -/
theorem remainingBudget_eq_zero_iff :
    remainingBudget orgCost orgLimit userCost userLimit = 0 ↔
      ∃ e, checkLimits orgCost orgLimit userCost userLimit = .error e := by
  have horg : orgCost < orgLimit ∨ orgLimit ≤ orgCost := lt_or_ge _ _
  unfold remainingBudget checkLimits
  rw [max_eq_left_iff]
  rcases horg with h | h
  · simp only [require, h, decide_true, if_true]
    cases userCost with
    | none => simpa [bind, Except.bind, pure, Except.pure] using h
    | some cost =>
      cases userLimit with
      | none => simpa [bind, Except.bind, pure, Except.pure] using h
      | some limit =>
        rw [min_le_iff, sub_nonpos, sub_nonpos]
        by_cases hu : cost < limit
        · simp [bind, Except.bind, hu, not_le.mpr h]
        · simp [bind, Except.bind, hu, not_lt.mp hu]
  · have hleft : orgLimit - orgCost ≤ 0 := by linarith
    refine iff_of_true ?_ ⟨_, by simp only [require, not_lt.mpr h, decide_false]; rfl⟩
    split
    · exact (min_le_left _ _).trans hleft
    · exact hleft

/-! The ledger. -/

theorem costOf_append : costOf scope real m (usage ++ [row]) =
    costOf scope real m usage + if scope.covers row.userId && m ≤ row.createdAt &&
      (!real || row.mode != .replay) then row.costUsd else 0 := by
  unfold costOf
  rw [List.filter_append, List.map_append, List.sum_append, List.filter_singleton]
  congr 1
  cases scope.covers row.userId && m ≤ row.createdAt && (!real || row.mode != .replay) <;> simp

omit [DecidableEq υ] in
theorem sum_filter_le {p q : TokenUsage υ → Bool} (hrows : ∀ row ∈ usage, 0 ≤ row.costUsd)
    (h : ∀ row ∈ usage, p row → q row) :
    ((usage.filter p).map TokenUsage.costUsd).sum ≤ ((usage.filter q).map TokenUsage.costUsd).sum := by
  induction usage with
  | nil => simp
  | cons row rows ih =>
    have ih := ih (fun r hr => hrows r (List.mem_cons_of_mem _ hr))
      fun r hr => h r (List.mem_cons_of_mem _ hr)
    have hrow := hrows row List.mem_cons_self
    have himp := h row List.mem_cons_self
    cases hp : p row with
    | false =>
      cases hq : q row with
      | false => simpa [hp, hq] using ih
      | true =>
        simp only [List.filter_cons, hp, hq, if_true, List.map_cons, List.sum_cons]
        simpa using add_le_add hrow ih
    | true => simpa [hp, himp hp] using ih

/-- A sum over more of the ledger, by the month or by the mode, is no smaller. -/
theorem costOf_mono (hrows : ∀ row ∈ usage, 0 ≤ row.costUsd) (h : m ≤ m') :
    costOf scope true m' usage ≤ costOf scope real m usage := by
  refine sum_filter_le hrows fun row _ hrow => ?_
  simp only [Bool.and_eq_true, decide_eq_true_eq, Bool.not_true, Bool.false_or] at hrow ⊢
  exact ⟨⟨hrow.1.1, h.trans hrow.1.2⟩, by simp [hrow.2]⟩

theorem forgetUser_costUsd (u : υ) (row : TokenUsage υ) :
    (forgetUser u row).costUsd = row.costUsd := by
  unfold forgetUser
  split <;> rfl

/-- Rows that lose their account add nothing to the sum of another. -/
theorem costOf_forgetUser (u : υ) (hrows : ∀ row ∈ usage, 0 ≤ row.costUsd) :
    costOf scope true m (usage.map (forgetUser u)) ≤ costOf scope true m usage := by
  have hcost : TokenUsage.costUsd ∘ forgetUser u = TokenUsage.costUsd :=
    funext (forgetUser_costUsd u)
  unfold costOf
  rw [List.filter_map, List.map_map, hcost]
  refine sum_filter_le hrows fun row _ hrow => ?_
  simp only [Function.comp_apply, forgetUser] at hrow
  split at hrow
  · cases scope <;> simp_all [Scope.covers]
  · exact hrow

/-! One step. -/

omit [DecidableEq υ] in
theorem exists_around {l : List (Call υ)} (h : l[i]? = some call) :
    ∃ pre post, l = pre ++ call :: post ∧ (∀ call', l.set i call' = pre ++ call' :: post) ∧
      l.eraseIdx i = pre ++ post := by
  obtain ⟨hi, rfl⟩ := List.getElem?_eq_some_iff.mp h
  refine ⟨l.take i, l.drop (i + 1), ?_, fun call' => ?_, ?_⟩
  · rw [List.getElem_cons_drop, List.take_append_drop]
  · rw [List.set_eq_take_append_cons_drop, if_pos hi]
  · exact List.eraseIdx_eq_take_drop_succ l i

theorem pending_set (h : s.calls[i]? = some call) :
    (s.calls.set i call').countP (Call.counts scope) + (call.counts scope).toNat =
      s.pending scope + (call'.counts scope).toNat := by
  obtain ⟨pre, post, hcalls, hset, -⟩ := exists_around h
  rw [State.pending, hset, hcalls]
  simp only [List.countP_append, List.countP_cons, Bool.toNat, Bool.cond_eq_ite]
  omega

theorem pending_eraseIdx (h : s.calls[i]? = some call) :
    (s.calls.eraseIdx i).countP (Call.counts scope) + (call.counts scope).toNat =
      s.pending scope := by
  obtain ⟨pre, post, hcalls, -, herase⟩ := exists_around h
  rw [State.pending, herase, hcalls]
  simp only [List.countP_append, List.countP_cons, Bool.toNat, Bool.cond_eq_ite]
  omega

omit [DecidableEq υ] in
theorem Call.Fine.mono (h : call.Fine scope L C m) (hm : m ≤ m') : call.Fine scope L C m' := by
  obtain ⟨userId, stage⟩ := call
  cases stage with
  | asked monthStart => exact Nat.le_trans h hm
  | sawOrgLimit monthStart limit => exact ⟨h.1.trans hm, h.2⟩
  | sawOrgCost monthStart limit cost => exact Nat.le_trans h hm
  | sawUserLimit monthStart limit cost userLimit => exact ⟨h.1.trans hm, h.2⟩
  | calling => trivial
  | answered cost mode => exact h
  | recording createdAt cost mode => exact h

omit [DecidableEq υ] in
theorem answer_calling {cost : ℚ} {recorded : Bool}
    (hpriced : (Event.respond (υ := υ) i cost recorded).Priced C)
    (h : call.answer cost recorded = some call') :
    call.stage = .calling ∧ call'.Fine scope L C m ∧ call'.userId = call.userId := by
  unfold Call.answer at h
  split at h
  · rename_i hstage
    cases h
    exact ⟨hstage, ⟨hpriced.1, fun _ => hpriced.2⟩, rfl⟩
  · cases h

omit [DecidableEq υ] in
theorem Sound.set (h : Sound scope L C s) (hfine : call.Fine scope L C s.month) :
    Sound scope L C { s with calls := s.calls.set i call } := by
  refine ⟨h.rows, fun c hc => ?_⟩
  rcases List.mem_or_eq_of_mem_set hc with hc | rfl
  · exact h.calls c hc
  · exact hfine

omit [DecidableEq υ] in
theorem Sound.eraseIdx (h : Sound scope L C s) (i : ℕ) :
    Sound scope L C { s with calls := s.calls.eraseIdx i } :=
  ⟨h.rows, fun c hc => h.calls c (List.mem_of_mem_eraseIdx hc)⟩

theorem checkLimits_ok (h : checkLimits orgCost orgLimit userCost userLimit = .ok ()) :
    orgCost < orgLimit ∧ ∀ cost limit, userCost = some cost → userLimit = some limit →
      cost < limit := by
  obtain ⟨_, horg, h⟩ := bind_eq_ok.1 h
  refine ⟨of_decide_eq_true (require_eq_ok.1 horg), ?_⟩
  rintro cost limit rfl rfl
  exact of_decide_eq_true (require_eq_ok.1 h)

omit [DecidableEq υ] in
theorem decideCall_reach
    (h : decideCall (υ := υ) orgCost orgLimit userCost userLimit = .reach stage) :
    stage = .calling ∧ checkLimits orgCost orgLimit userCost userLimit = .ok () := by
  unfold decideCall at h
  split at h
  · rename_i hok
    cases h
    exact ⟨rfl, hok⟩
  · cases h

/-- What the ledger shows of this month stands in every sum the gate reads. -/
theorem Sound.spent_le (h : Sound scope L C s) (hm : m ≤ s.month) :
    s.spent scope ≤ s.costSince scope m :=
  costOf_mono h.rows hm

/-- A call that goes on is let through only where the sum it reads, with more in it than was spent,
is below the limit. -/
theorem progress_reach (hs : Sound scope L C s) (hcall : call.Fine scope L C s.month)
    (hlimit : (s.limit scope).any fun l => l ≤ L) (h : progress s call = some (.reach stage)) :
    Call.Fine scope L C s.month ⟨call.userId, stage⟩ ∧
      (Call.counts scope ⟨call.userId, stage⟩ → call.counts scope ∨ s.spent scope ≤ L) := by
  obtain ⟨userId, old⟩ := call
  cases old with
  | asked monthStart =>
    simp only [progress, Option.some.injEq, Progress.reach.injEq] at h
    subst h
    refine ⟨⟨hcall, ?_⟩, by simp [Call.counts, Stage.spends]⟩
    rintro rfl
    simpa [State.limit] using hlimit
  | sawOrgLimit monthStart limit =>
    simp only [progress, Option.some.injEq, Progress.reach.injEq] at h
    subst h
    refine ⟨hcall.1, fun hcounts => .inr ?_⟩
    cases scope with
    | org =>
      have hbelow : s.costSince .org monthStart < limit := by
        simpa [Call.counts, Stage.spends, Scope.covers] using hcounts
      exact (hs.spent_le hcall.1).trans (hbelow.le.trans (hcall.2 rfl))
    | user u => simp [Call.counts, Stage.spends] at hcounts
  | sawOrgCost monthStart limit cost =>
    simp only [progress] at h
    split at h
    · rename_i hnone
      obtain ⟨rfl, hok⟩ := decideCall_reach (Option.some.inj h)
      refine ⟨trivial, fun hcounts => .inl ?_⟩
      cases scope with
      | org => simpa [Call.counts, Stage.spends, Scope.covers] using (checkLimits_ok hok).1
      | user u =>
        have huser : userId = some u := by
          simpa [Call.counts, Scope.covers, Stage.spends] using hcounts
        rw [huser, Option.bind_some] at hnone
        simp [State.limit, hnone] at hlimit
    · rename_i userLimit hsome
      simp only [Option.some.injEq, Progress.reach.injEq] at h
      subst h
      refine ⟨⟨hcall, ?_⟩, fun hcounts => .inl hcounts⟩
      rintro u rfl rfl
      rw [Option.bind_some] at hsome
      simpa [State.limit, hsome] using hlimit
  | sawUserLimit monthStart limit cost userLimit =>
    cases userId with
    | none => cases h
    | some u =>
      obtain ⟨rfl, hok⟩ := decideCall_reach (Option.some.inj h)
      obtain ⟨horg, huser⟩ := checkLimits_ok hok
      refine ⟨trivial, fun hcounts => ?_⟩
      cases scope with
      | org => exact .inl (by simpa [Call.counts, Stage.spends, Scope.covers] using horg)
      | user v =>
        obtain rfl : u = v := by simpa [Call.counts, Scope.covers, Stage.spends] using hcounts
        have hlow := huser _ _ rfl rfl
        exact .inr ((hs.spent_le hcall.1).trans (hlow.le.trans (hcall.2 u rfl rfl)))
  | calling => cases h
  | answered cost mode =>
    simp only [progress, Option.some.injEq, Progress.reach.injEq] at h
    subst h
    exact ⟨hcall, fun hcounts => .inl hcounts⟩
  | recording createdAt cost mode =>
    simp only [progress] at h
    split at h <;> cases h

theorem progress_recorded (h : progress s call = some (.recorded row)) :
    call.stage = .recording row.createdAt row.costUsd row.mode ∧ row.userId = call.userId := by
  obtain ⟨userId, stage⟩ := call
  cases stage with
  | asked monthStart => simp [progress] at h
  | sawOrgLimit monthStart limit => simp [progress] at h
  | sawOrgCost monthStart limit cost =>
    simp only [progress] at h
    split at h
    · unfold decideCall at h
      split at h <;> cases h
    · cases h
  | sawUserLimit monthStart limit cost userLimit =>
    cases userId with
    | none => cases h
    | some u =>
      simp only [progress, decideCall] at h
      split at h <;> cases h
  | calling => cases h
  | answered cost mode => simp [progress] at h
  | recording createdAt cost mode =>
    simp only [progress] at h
    split at h
    · cases h
      exact ⟨rfl, rfl⟩
    · cases h

/-- A row that is written adds no more to what was spent than its call could cost. -/
theorem spent_record (scope : Scope υ) (hcall : call.Fine scope L C s.month)
    (h : progress s call = some (.recorded row)) :
    0 ≤ row.costUsd ∧ ∃ c, c ≤ (if call.counts scope then C else 0) ∧
      costOf scope true s.month (s.usage ++ [row]) = s.spent scope + c := by
  obtain ⟨hstage, huser⟩ := progress_recorded h
  obtain ⟨hpos, hle⟩ : 0 ≤ row.costUsd ∧ (row.mode ≠ .replay → row.costUsd ≤ C) := by
    simpa only [Call.Fine, hstage] using hcall
  refine ⟨hpos, _, ?_, costOf_append⟩
  simp only [Call.counts, hstage, Stage.spends, huser, Bool.not_true, Bool.false_or]
  cases hcovers : scope.covers call.userId with
  | false => simp
  | true =>
    by_cases hmode : row.mode = .replay
    · simp [hmode]
    · have hC := hle hmode
      simp only [Bool.true_and, bne_iff_ne, ne_eq, hmode, not_false_eq_true, if_true]
      split
      · exact hC
      · exact hpos.trans hC

/-- A new call that was not let through yet. -/
theorem ask_meter (call : Call υ) (hs : Sound scope L C s) (hfine : call.Fine scope L C s.month)
    (hcounts : call.counts scope = false) :
    Sound scope L C { s with calls := s.calls ++ [call] } ∧
      State.meter { s with calls := s.calls ++ [call] } scope = s.meter scope := by
  refine ⟨⟨hs.rows, fun c hc => ?_⟩, ?_⟩
  · rcases List.mem_append.mp hc with hc | hc
    · exact hs.calls c hc
    · exact List.mem_singleton.mp hc ▸ hfine
  · simp [State.meter, State.spent, State.pending, hcounts]

theorem proceed_meter (hs : Sound scope L C s) (hlimit : (s.limit scope).any fun l => l ≤ L)
    (h : step true s (.proceed i) = some t) :
    Sound scope L C t ∧ Change L C (s.meter scope) (t.meter scope) := by
  obtain ⟨call, hi, h⟩ := Option.bind_eq_some_iff.mp h
  obtain ⟨next, hnext, h⟩ := Option.bind_eq_some_iff.mp h
  have hcall := hs.calls call (List.mem_of_getElem? hi)
  cases next with
  | reach stage =>
    cases h
    obtain ⟨hfine, hlow⟩ := progress_reach hs hcall hlimit hnext
    exact ⟨hs.set hfine, .of_toNat (pending_set hi) hlow⟩
  | refused e =>
    cases h
    exact ⟨hs.eraseIdx i, .lower le_rfl (List.eraseIdx_sublist s.calls i).countP_le⟩
  | recorded row =>
    cases h
    obtain ⟨hpos, c, hc, hspent⟩ := spent_record scope hcall hnext
    refine ⟨⟨fun r hr => ?_, (hs.eraseIdx i).calls⟩, ?_⟩
    · rcases List.mem_append.mp hr with hr | hr
      · exact hs.rows r hr
      · exact List.mem_singleton.mp hr ▸ hpos
    · have hcharge := Change.charge (L := L) (m := s.meter scope) (pending_eraseIdx hi) hc
      simpa only [State.meter, State.spent, State.pending, hspent] using hcharge

/-- Every step is a change of the meter that a limit reads. -/
theorem step_meter (hs : Sound scope L C s) (hok : Bounded scope L C K s e t)
    (h : step true s e = some t) :
    Sound scope L C t ∧ Change L C (s.meter scope) (t.meter scope) := by
  obtain ⟨hlimit, hpriced, -⟩ := hok
  cases e with
  | ask userId =>
    cases h
    obtain ⟨hsound, hmeter⟩ := ask_meter ⟨userId, .asked s.month⟩ hs
      (show s.month ≤ s.month from le_rfl) (by simp [Call.counts, Stage.spends])
    exact ⟨hsound, hmeter ▸ .refl⟩
  | replay userId cost =>
    cases h
    obtain ⟨hsound, hmeter⟩ := ask_meter ⟨userId, .answered cost .replay⟩ hs
      ⟨hpriced, by simp⟩ (by simp [Call.counts, Stage.spends])
    exact ⟨hsound, hmeter ▸ .refl⟩
  | proceed i => exact proceed_meter hs hlimit h
  | respond i cost recorded =>
    obtain ⟨call, hi, h⟩ := Option.bind_eq_some_iff.mp h
    obtain ⟨answered, hanswer, h⟩ := Option.bind_eq_some_iff.mp h
    cases h
    obtain ⟨hstage, hfine, huser⟩ := answer_calling hpriced hanswer
    refine ⟨hs.set hfine, .of_toNat (pending_set hi) fun hcounts => .inl ?_⟩
    simp only [Call.counts, Bool.and_eq_true] at hcounts ⊢
    exact ⟨huser ▸ hcounts.1, by rw [hstage]; rfl⟩
  | drop i =>
    cases h
    refine ⟨hs.eraseIdx i, .lower le_rfl ?_⟩
    exact (List.eraseIdx_sublist s.calls i).countP_le
  | newMonth =>
    cases h
    refine ⟨⟨hs.rows, fun call hcall => ?_⟩, .lower (costOf_mono hs.rows (Nat.le_succ _)) le_rfl⟩
    exact (hs.calls call hcall).mono (Nat.le_succ _)
  | setOrgLimit limit =>
    cases h
    exact ⟨⟨hs.rows, hs.calls⟩, .refl⟩
  | setUserLimit u limit =>
    simp only [step] at h
    split at h
    · cases h
      exact ⟨⟨hs.rows, hs.calls⟩, .refl⟩
    · cases h
  | deleteUser u =>
    cases h
    refine ⟨⟨fun row hrow => ?_, hs.calls⟩, .lower (costOf_forgetUser u hs.rows) le_rfl⟩
    obtain ⟨old, hold, rfl⟩ := List.mem_map.mp hrow
    rw [forgetUser_costUsd]
    exact hs.rows old hold

/-- However the calls interleave, and whatever becomes of the limit below `L`: what the real calls
of a month cost, as recorded, passes the limit by at most the price of the calls that were let
through together. -/
theorem spending_bounded (hC : 0 ≤ C) (hcalls : s.calls = [])
    (hrows : ∀ row ∈ s.usage, 0 ≤ row.costUsd) (hstart : s.spent scope ≤ L + K * C)
    (h : Along (step true) (Bounded scope L C K) s es) :
    Always (step true) (fun s => s.spent scope ≤ L + K * C) s es := by
  have hsound : Sound scope L C s := ⟨hrows, by simp [hcalls]⟩
  have hwithin : Within L C K (s.meter scope) := by
    simpa [Within, State.meter, State.pending, hcalls] using hstart
  have keep : ∀ s (e : Event υ) t, step true s e = some t → Bounded scope L C K s e t →
      Sound scope L C s →
      Sound scope L C t ∧ Change L C (s.meter scope) (t.meter scope) ∧ (t.meter scope).pending ≤ K := by
    intro s e t ht hok hs
    obtain ⟨hsound, hchange⟩ := step_meter hs hok ht
    exact ⟨hsound, hchange, hok.2.2⟩
  have hbound := always_recorded_le (fun s => s.meter scope) hC keep hsound hwithin h
  exact hbound.mono fun s hs => (nsmul_eq_mul K C) ▸ hs

/-- Two calls of one account are let through together and pass its limit of one. -/
def together : List (Event ℕ) :=
  [.ask (some 0), .ask (some 0), .proceed 0, .proceed 0, .proceed 0, .proceed 1, .proceed 1,
    .proceed 1, .proceed 0, .proceed 1, .respond 0 1 true, .respond 1 1 false, .proceed 0,
    .proceed 1, .proceed 1, .proceed 0]

theorem spending_bounded_together :
    Always (step true) (fun s => s.spent (.user 0) ≤ 1 + 2 * 1)
      ⟨0, [], [], 10, fun _ => some 1⟩ together ∧
    ((run (step true) ⟨0, [], [], 10, fun _ => some 1⟩ together).any fun s =>
      s.spent (.user 0) = 2 ∧ s.calls.length = 0) := by
  have hrun : Along (step true) (Bounded (.user 0) 1 1 2) ⟨0, [], [], 10, fun _ => some 1⟩ together ∧
      ((run (step true) ⟨0, [], [], 10, fun _ => some 1⟩ together).any fun s =>
        s.spent (.user 0) = 2 ∧ s.calls.length = 0) := by with_unfolding_all decide
  exact ⟨spending_bounded (by norm_num) rfl (by simp) (by norm_num [State.spent, costOf]) hrun.1,
    hrun.2⟩

end RownRg.QuotaGate

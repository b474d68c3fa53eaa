import Mathlib.Data.Int.Order.Basic
import Mathlib.Data.List.AList
import Mathlib.Data.List.Induction
import RownRg.Lib.Text

/-! Failed logins, counted for each address in a window of time. -/

open PyText

namespace RownRg.Auth

/-- `MAX_FAILURES` -/
def maxFailures : Nat := 10

/-- `WINDOW`, in microseconds. -/
def window : Int := 300000000

/-- `_MAX_TRACKED_IPS` -/
def maxTrackedIps : Nat := 10000

/-- `_failures` -/
abbrev Failures := AList fun _ : Text => List Int

/-- A deque once its front is popped up to the cutoff. -/
def popExpired (cutoff : Int) (dq : List Int) : List Int := dq.dropWhile (· < cutoff)

def isBlocked (now : Int) (ip : Text) (failures : Failures) : Bool × Failures :=
  if ip.isEmpty then (false, failures)
  else
    match failures.lookup ip with
    | none => (false, failures)
    | some dq =>
      let dq := popExpired (now - window) dq
      if dq.isEmpty then (false, failures.erase ip)
      else (decide (maxFailures ≤ dq.length), failures.insert ip dq)

/-- `not dq or dq[-1] < cutoff` -/
def isStale (cutoff : Int) (dq : List Int) : Bool := dq.getLast?.all (· < cutoff)

def sweep (cutoff : Int) (failures : Failures) : Failures :=
  let stale := (failures.entries.filter fun e => isStale cutoff e.2).map (·.1)
  stale.foldl (fun failures ip => failures.erase ip) failures

/-- More than `tracked` addresses are swept first. -/
def recordFailure (tracked : Nat) (now : Int) (ip : Text) (failures : Failures) : Failures :=
  if ip.isEmpty then failures
  else
    let cutoff := now - window
    let failures := if tracked < failures.keys.length then sweep cutoff failures else failures
    failures.insert ip (popExpired cutoff ((failures.lookup ip).getD []) ++ [now])

def reset (ip : Text) (failures : Failures) : Failures := failures.erase ip

inductive LimiterCall where
  | isBlocked (ip : Text)
  | recordFailure (ip : Text)
  | sweep
  | reset (ip : Text)
  | clear
  deriving DecidableEq

/-- A call at its time. -/
def limiterStep (tracked : Nat) (failures : Failures) : Int × LimiterCall → Failures
  | (now, .isBlocked ip) => (isBlocked now ip failures).2
  | (now, .recordFailure ip) => recordFailure tracked now ip failures
  | (now, .sweep) => sweep (now - window) failures
  | (_, .reset ip) => reset ip failures
  | (_, .clear) => ∅

def limiter (tracked : Nat) (calls : List (Int × LimiterCall)) : Failures :=
  calls.foldl (limiterStep tracked) ∅

/-! The whole history. -/

/-- The failures of one address since its last reset, with one more call; without an address
none is recorded. -/
def recordedStep (ip : Text) (times : List Int) : Int × LimiterCall → List Int
  | (now, .recordFailure ip') => if ip' = ip ∧ ip ≠ [] then times ++ [now] else times
  | (_, .reset ip') => if ip' = ip then [] else times
  | (_, .clear) => []
  | (_, .isBlocked _) | (_, .sweep) => times

def recorded (ip : Text) (calls : List (Int × LimiterCall)) : List Int :=
  calls.foldl (recordedStep ip) []

/-- The times that lie in the window. -/
def recent (now : Int) (times : List Int) : List Int := times.filter (now - window ≤ ·)

/-- The calls come one after the other, and the last one before now. -/
def Clocked (calls : List (Int × LimiterCall)) (now : Int) : Prop :=
  (calls.map Prod.fst ++ [now]).Pairwise (· ≤ ·)

instance decidableClocked (calls : List (Int × LimiterCall)) (now : Int) :
    Decidable (Clocked calls now) :=
  inferInstanceAs (Decidable (List.Pairwise _ _))

variable {failures : Failures} {calls : List (Int × LimiterCall)} {ip ip' : Text}
  {now later cutoff : Int} {dq times : List Int} {tracked : Nat} {c : Int × LimiterCall}

/-! What the window shows of a deque. -/

theorem recent_popExpired (h : now ≤ later) (dq : List Int) :
    recent later (popExpired (now - window) dq) = recent later dq := by
  induction dq with
  | nil => rfl
  | cons t dq ih =>
    by_cases ht : t < now - window
    · have hout : ¬ later - window ≤ t := by omega
      have hpop : popExpired (now - window) (t :: dq) = popExpired (now - window) dq := by
        simp [popExpired, ht]
      have hrest : recent later (t :: dq) = recent later dq :=
        List.filter_cons_of_neg fun h => hout (of_decide_eq_true h)
      rw [hpop, hrest, ih]
    · have hpop : popExpired (now - window) (t :: dq) = t :: dq := by simp [popExpired, ht]
      rw [hpop]

/-- In the order of time the front of the deque holds all that has expired. -/
theorem popExpired_eq_recent (h : dq.Pairwise (· ≤ ·)) :
    popExpired (now - window) dq = recent now dq := by
  induction dq with
  | nil => rfl
  | cons t dq ih =>
    obtain ⟨hfirst, hsorted⟩ := List.pairwise_cons.mp h
    by_cases ht : t < now - window
    · have hpop : popExpired (now - window) (t :: dq) = popExpired (now - window) dq := by
        simp [popExpired, ht]
      have hout : ¬ now - window ≤ t := by omega
      have hrest : recent now (t :: dq) = recent now dq :=
        List.filter_cons_of_neg fun h => hout (of_decide_eq_true h)
      rw [hpop, ih hsorted, hrest]
    · have hall : ∀ u ∈ t :: dq, now - window ≤ u := by
        intro u hu
        rcases List.mem_cons.mp hu with rfl | hu
        · omega
        · have hle := hfirst u hu
          omega
      have hpop : popExpired (now - window) (t :: dq) = t :: dq := by simp [popExpired, ht]
      rw [hpop, recent, List.filter_eq_self.mpr fun u hu => by simpa using hall u hu]

theorem recent_stale (h : dq.Pairwise (· ≤ ·)) (hstale : isStale (now - window) dq)
    (hlater : now ≤ later) : recent later dq = [] := by
  rw [recent, List.filter_eq_nil_iff]
  intro t ht hin
  have hin : later - window ≤ t := by simpa using hin
  obtain ⟨last, hlast⟩ : ∃ last, dq.getLast? = some last :=
    ⟨_, List.getLast?_eq_some_getLast (List.ne_nil_of_mem ht)⟩
  have hexpired : last < now - window := by simpa [isStale, hlast] using hstale
  have hle : t ≤ last := by
    obtain ⟨front, rfl⟩ := List.getLast?_eq_some_iff.mp hlast
    rcases List.mem_append.mp ht with hfront | hend
    · exact (List.pairwise_append.mp h).2.2 t hfront last List.mem_cons_self
    · exact (List.mem_singleton.mp hend).le
  omega

/-! The deques as a function of the address. -/

def dequeOf (failures : Failures) (ip : Text) : List Int := (failures.lookup ip).getD []

@[simp] theorem dequeOf_empty (ip : Text) : dequeOf ∅ ip = [] := rfl

theorem dequeOf_insert (failures : Failures) (ip ip' : Text) (dq : List Int) :
    dequeOf (failures.insert ip' dq) ip = if ip = ip' then dq else dequeOf failures ip := by
  by_cases h : ip = ip'
  · subst h
    rw [if_pos rfl, dequeOf, AList.lookup_insert]
    rfl
  · rw [if_neg h, dequeOf, AList.lookup_insert_ne h, dequeOf]

theorem dequeOf_erase (failures : Failures) (ip ip' : Text) :
    dequeOf (failures.erase ip') ip = if ip = ip' then [] else dequeOf failures ip := by
  by_cases h : ip = ip'
  · subst h
    rw [if_pos rfl, dequeOf, AList.lookup_erase]
    rfl
  · rw [if_neg h, dequeOf, AList.lookup_erase_ne h, dequeOf]

theorem dequeOf_eraseAll (ips : List Text) (failures : Failures) (ip : Text) :
    dequeOf (ips.foldl (fun failures ip => failures.erase ip) failures) ip =
      if ip ∈ ips then [] else dequeOf failures ip := by
  induction ips generalizing failures with
  | nil => simp
  | cons ip' ips ih =>
    rw [List.foldl_cons, ih, dequeOf_erase]
    by_cases hmem : ip ∈ ips
    · simp [hmem]
    · simp [hmem]

/-- A sweep takes a whole deque or leaves it. -/
theorem dequeOf_sweep (cutoff : Int) (failures : Failures) (ip : Text) :
    dequeOf (sweep cutoff failures) ip = dequeOf failures ip ∨
      isStale cutoff (dequeOf failures ip) ∧ dequeOf (sweep cutoff failures) ip = [] := by
  rw [sweep, dequeOf_eraseAll]
  by_cases hmem : ip ∈ (failures.entries.filter fun e => isStale cutoff e.2).map (·.1)
  · right
    refine ⟨?_, if_pos hmem⟩
    obtain ⟨⟨ip', dq⟩, he, rfl⟩ := List.mem_map.mp hmem
    obtain ⟨hentry, hstale⟩ := List.mem_filter.mp he
    have hlookup : failures.lookup ip' = some dq := AList.mem_lookup_iff.mpr hentry
    rw [dequeOf, hlookup]
    exact hstale
  · exact .inl (if_neg hmem)

/-! The deque of an address is the end of its history, and shows the same of it in every window
from now on. -/

structure Remembers (now : Int) (dq times : List Int) : Prop where
  tail : dq <:+ times
  shown : ∀ later, now ≤ later → recent later dq = recent later times

theorem Remembers.mono (h : Remembers now dq times) (hle : now ≤ later) :
    Remembers later dq times :=
  ⟨h.tail, fun t ht => h.shown t (hle.trans ht)⟩

theorem Remembers.pop (h : Remembers now dq times) :
    Remembers now (popExpired (now - window) dq) times :=
  ⟨(List.dropWhile_suffix _).trans h.tail, fun later hlater => by
    rw [recent_popExpired hlater, h.shown later hlater]⟩

theorem Remembers.push (h : Remembers now dq times) (t : Int) :
    Remembers now (dq ++ [t]) (times ++ [t]) := by
  constructor
  · obtain ⟨front, rfl⟩ := h.tail
    exact ⟨front, by rw [List.append_assoc]⟩
  · intro later hlater
    have hdq := h.shown later hlater
    simp only [recent] at hdq ⊢
    rw [List.filter_append, List.filter_append, hdq]

theorem Remembers.forget (h : Remembers now dq times) (hsorted : times.Pairwise (· ≤ ·))
    (hstale : isStale (now - window) dq) : Remembers now [] times := by
  refine ⟨List.nil_suffix, fun later hlater => ?_⟩
  rw [← h.shown later hlater, recent_stale (hsorted.sublist h.tail.sublist) hstale hlater]
  rfl

theorem Remembers.sweep (h : Remembers now (dequeOf failures ip) times)
    (hsorted : times.Pairwise (· ≤ ·)) :
    Remembers now (dequeOf (sweep (now - window) failures) ip) times := by
  rcases dequeOf_sweep (now - window) failures ip with hkeep | ⟨hstale, hgone⟩
  · rw [hkeep]
    exact h
  · rw [hgone]
    exact h.forget hsorted hstale

/-! One call. -/

theorem dequeOf_isBlocked (now : Int) (ip ip' : Text) (failures : Failures) :
    dequeOf (isBlocked now ip' failures).2 ip = dequeOf failures ip ∨
      dequeOf (isBlocked now ip' failures).2 ip =
        popExpired (now - window) (dequeOf failures ip) := by
  unfold isBlocked
  split
  · exact .inl rfl
  · cases hlookup : failures.lookup ip' with
    | none => exact .inl rfl
    | some dq =>
      by_cases h : ip = ip'
      · subst h
        right
        have hdq : dequeOf failures ip = dq := by rw [dequeOf, hlookup, Option.getD_some]
        simp only
        split
        · rename_i hempty
          rw [dequeOf_erase, if_pos rfl, hdq, List.isEmpty_iff.mp hempty]
        · rw [dequeOf_insert, if_pos rfl, hdq]
      · left
        simp only
        split
        · rw [dequeOf_erase, if_neg h]
        · rw [dequeOf_insert, if_neg h]

theorem Remembers.record (h : Remembers now (dequeOf failures ip) times)
    (hsorted : times.Pairwise (· ≤ ·)) (hip : ip ≠ []) :
    Remembers now (dequeOf (recordFailure tracked now ip failures) ip) (times ++ [now]) := by
  have hne : ip.isEmpty = false := by simpa using hip
  rw [recordFailure, hne]
  simp only [Bool.false_eq_true, if_false]
  rw [dequeOf_insert, if_pos rfl]
  refine Remembers.push (?_ : Remembers now (popExpired (now - window) (dequeOf _ ip)) times) now
  refine Remembers.pop ?_
  split
  · exact h.sweep hsorted
  · exact h

theorem Remembers.recordOther (h : Remembers now (dequeOf failures ip) times)
    (hsorted : times.Pairwise (· ≤ ·)) (hip : ip' ≠ ip) :
    Remembers now (dequeOf (recordFailure tracked now ip' failures) ip) times := by
  unfold recordFailure
  split
  · exact h
  · simp only
    rw [dequeOf_insert, if_neg (Ne.symm hip)]
    split
    · exact h.sweep hsorted
    · exact h

theorem dequeOf_noAddress (tracked : Nat) (now : Int) (failures : Failures) :
    recordFailure tracked now [] failures = failures := rfl

/-- The times of a history are those of its calls. -/
theorem mem_recorded (h : now ∈ recorded ip calls) : now ∈ calls.map Prod.fst := by
  induction calls using List.reverseRecOn with
  | nil => cases h
  | append_singleton calls c ih =>
    obtain ⟨t, call⟩ := c
    rw [recorded, List.foldl_append, List.foldl_cons, List.foldl_nil, ← recorded] at h
    rw [List.map_append, List.mem_append]
    cases call with
    | recordFailure ip' =>
      simp only [recordedStep] at h
      split at h
      · rcases List.mem_append.mp h with h | h
        · exact .inl (ih h)
        · exact .inr h
      · exact .inl (ih h)
    | reset ip' =>
      simp only [recordedStep] at h
      split at h
      · cases h
      · exact .inl (ih h)
    | clear => cases h
    | isBlocked ip' => exact .inl (ih h)
    | sweep => exact .inl (ih h)

theorem sorted_recorded (h : (calls.map Prod.fst).Pairwise (· ≤ ·)) :
    (recorded ip calls).Pairwise (· ≤ ·) := by
  induction calls using List.reverseRecOn with
  | nil => exact List.Pairwise.nil
  | append_singleton calls c ih =>
    obtain ⟨t, call⟩ := c
    rw [List.map_append, List.pairwise_append] at h
    have hbefore := ih h.1
    rw [recorded, List.foldl_append, List.foldl_cons, List.foldl_nil, ← recorded]
    cases call with
    | recordFailure ip' =>
      simp only [recordedStep]
      split
      · refine List.pairwise_append.mpr ⟨hbefore, List.pairwise_singleton _ _, fun u hu v hv => ?_⟩
        exact h.2.2 u (mem_recorded hu) v hv
      · exact hbefore
    | reset ip' =>
      simp only [recordedStep]
      split
      · exact List.Pairwise.nil
      · exact hbefore
    | clear => exact List.Pairwise.nil
    | isBlocked ip' => exact hbefore
    | sweep => exact hbefore

/-- A call changes the deque of an address as it changes the history. -/
theorem remembers_step {times : List Int} (c : Int × LimiterCall)
    (h : Remembers c.1 (dequeOf failures ip) times) (hsorted : times.Pairwise (· ≤ ·)) :
    Remembers c.1 (dequeOf (limiterStep tracked failures c) ip) (recordedStep ip times c) := by
  obtain ⟨now, call⟩ := c
  cases call with
  | isBlocked ip' =>
    rcases dequeOf_isBlocked now ip ip' failures with hkeep | hpop
    · rw [limiterStep, hkeep]
      exact h
    · rw [limiterStep, hpop]
      exact h.pop
  | recordFailure ip' =>
    by_cases hip : ip' = ip
    · subst hip
      by_cases hempty : ip' = []
      · subst hempty
        simpa [recordedStep, limiterStep, dequeOf_noAddress] using h
      · rw [recordedStep, if_pos ⟨rfl, hempty⟩]
        exact h.record hsorted hempty
    · rw [recordedStep, if_neg fun hsame => hip hsame.1]
      exact h.recordOther hsorted hip
  | sweep => exact h.sweep hsorted
  | reset ip' =>
    rw [limiterStep, reset, dequeOf_erase, recordedStep]
    by_cases hip : ip' = ip
    · rw [if_pos hip.symm, if_pos hip]
      exact ⟨List.suffix_refl _, fun _ _ => rfl⟩
    · rw [if_neg (Ne.symm hip), if_neg hip]
      exact h
  | clear => exact ⟨List.suffix_refl _, fun _ _ => rfl⟩

/-- The state after any calls is a faithful image of the history. -/
theorem remembers_limiter (h : Clocked calls now) (tracked : Nat) (ip : Text) :
    Remembers now (dequeOf (limiter tracked calls) ip) (recorded ip calls) := by
  induction calls using List.reverseRecOn generalizing now with
  | nil => exact ⟨List.suffix_refl _, fun _ _ => rfl⟩
  | append_singleton calls c ih =>
    have hall : (calls.map Prod.fst ++ [c.1] ++ [now]).Pairwise (· ≤ ·) := by
      simpa [Clocked] using h
    obtain ⟨hbefore, -, hnow⟩ := List.pairwise_append.mp hall
    have hsorted : (recorded ip calls).Pairwise (· ≤ ·) :=
      sorted_recorded (List.pairwise_append.mp hbefore).1
    have hle : c.1 ≤ now := hnow c.1 (by simp) now List.mem_cons_self
    have hstep : Remembers c.1 (dequeOf (limiterStep tracked (limiter tracked calls) c) ip)
        (recordedStep ip (recorded ip calls) c) := remembers_step c (ih hbefore) hsorted
    rw [limiter, recorded, List.foldl_append, List.foldl_append]
    exact hstep.mono hle

/-! The answers. -/

theorem isBlocked_eq (now : Int) (ip : Text) (failures : Failures) :
    (isBlocked now ip failures).1 =
      (decide (ip ≠ []) &&
        decide (maxFailures ≤ (popExpired (now - window) (dequeOf failures ip)).length)) := by
  unfold isBlocked
  by_cases hip : ip = []
  · simp [hip]
  · have hne : ip.isEmpty = false := by simpa using hip
    rw [hne]
    simp only [Bool.false_eq_true, if_false]
    cases hlookup : failures.lookup ip with
    | none => simp [dequeOf, hlookup, popExpired, maxFailures]
    | some dq =>
      have hdq : dequeOf failures ip = dq := by rw [dequeOf, hlookup, Option.getD_some]
      simp only [hdq]
      split
      · rename_i hempty
        simp [List.isEmpty_iff.mp hempty, maxFailures]
      · simp [hip]

theorem recorded_noAddress (calls : List (Int × LimiterCall)) : recorded [] calls = [] := by
  induction calls using List.reverseRecOn with
  | nil => rfl
  | append_singleton calls c ih =>
    obtain ⟨t, call⟩ := c
    rw [recorded, List.foldl_append, List.foldl_cons, List.foldl_nil, ← recorded, ih]
    cases call <;> simp [recordedStep]

/-- The calls without those that sweep. -/
def unswept (calls : List (Int × LimiterCall)) : List (Int × LimiterCall) :=
  calls.filter fun c => c.2 ≠ .sweep

theorem recorded_unswept (ip : Text) (calls : List (Int × LimiterCall)) :
    recorded ip (unswept calls) = recorded ip calls := by
  induction calls using List.reverseRecOn with
  | nil => rfl
  | append_singleton calls c ih =>
    obtain ⟨t, call⟩ := c
    rw [unswept, List.filter_append, ← unswept, recorded, List.foldl_append, ← recorded, ih,
      recorded, recorded, List.foldl_append]
    cases call <;> rfl

theorem Clocked.unswept (h : Clocked calls now) : Clocked (unswept calls) now := by
  refine h.sublist (List.Sublist.append ?_ (List.Sublist.refl _))
  exact List.filter_sublist.map Prod.fst

theorem blocked_of_history (h : Clocked calls now) (tracked : Nat) (ip : Text) :
    (isBlocked now ip (limiter tracked calls)).1 =
      decide (maxFailures ≤ (recent now (recorded ip calls)).length) := by
  have hmem := remembers_limiter h tracked ip
  have hsorted : (recorded ip calls).Pairwise (· ≤ ·) :=
    sorted_recorded (List.pairwise_append.mp h).1
  rw [isBlocked_eq, popExpired_eq_recent (hsorted.sublist hmem.tail.sublist),
    hmem.shown now le_rfl]
  by_cases hip : ip = []
  · subst hip
    rw [recorded_noAddress]
    simp [recent, maxFailures]
  · simp [hip]

/-- An address is blocked exactly when as many of its failures lie in the window as are allowed
at most, and the sweeps change no answer. -/
theorem limiter_counts (tracked tracked' : Nat) (h : Clocked calls now) (ip : Text) :
    ((isBlocked now ip (limiter tracked calls)).1 ↔
      maxFailures ≤ (recent now (recorded ip calls)).length) ∧
    (isBlocked now ip (limiter tracked calls)).1 =
      (isBlocked now ip (limiter tracked' (unswept calls))).1 := by
  rw [blocked_of_history h, blocked_of_history h.unswept, recorded_unswept]
  exact ⟨by simp, rfl⟩

theorem limiter_counts_tenFailures :
    ((isBlocked 60 "10.0.0.1".toList (limiter maxTrackedIps
      ((List.replicate 10 (50, .recordFailure "10.0.0.1".toList)) ++ [(55, .sweep)]))).1 ↔
      maxFailures ≤ (recent 60 (recorded "10.0.0.1".toList
        ((List.replicate 10 (50, .recordFailure "10.0.0.1".toList)) ++ [(55, .sweep)]))).length) ∧
    (isBlocked 60 "10.0.0.1".toList (limiter maxTrackedIps
      ((List.replicate 10 (50, .recordFailure "10.0.0.1".toList)) ++ [(55, .sweep)]))).1 =
      (isBlocked 60 "10.0.0.1".toList (limiter maxTrackedIps (unswept
        ((List.replicate 10 (50, .recordFailure "10.0.0.1".toList)) ++ [(55, .sweep)])))).1 :=
  limiter_counts maxTrackedIps maxTrackedIps (by decide) "10.0.0.1".toList

end RownRg.Auth

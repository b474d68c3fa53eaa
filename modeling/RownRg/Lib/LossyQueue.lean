import Mathlib.Data.List.Induction

/-! A bounded queue that makes room for the newest message by dropping the oldest: what its reader
gets of what was put in. -/
namespace LossyQueue

variable {μ : Type}

/-- A queue, and what its reader has taken from it. -/
structure Reader (μ : Type) where
  queue : List μ
  taken : List μ

inductive Op (μ : Type) where
  | put (m : μ)
  | take

/-- Puts a message in; a full queue drops its oldest one first. -/
def put (cap : ℕ) (q : List μ) (m : μ) : List μ :=
  if q.length < cap then q ++ [m]
  else if q.tail.length < cap then q.tail ++ [m] else q.tail

def Reader.take (r : Reader μ) : Reader μ :=
  match r.queue with
  | [] => r
  | m :: q => ⟨q, r.taken ++ [m]⟩

def Reader.apply (cap : ℕ) (r : Reader μ) : Op μ → Reader μ
  | .put m => { r with queue := put cap r.queue m }
  | .take => r.take

def after (cap : ℕ) (ops : List (Op μ)) : Reader μ := ops.foldl (Reader.apply cap) ⟨[], []⟩

/-- The messages put in. -/
def puts (ops : List (Op μ)) : List μ :=
  ops.filterMap fun op => match op with
    | .put m => some m
    | .take => none

/-- Every message finds a free place. -/
def Roomy (cap : ℕ) (ops : List (Op μ)) : Prop :=
  ∀ pre m post, ops = pre ++ .put m :: post → (after cap pre).queue.length < cap

variable {cap : ℕ} {q : List μ} {ops : List (Op μ)} {op : Op μ} {m : μ} {r : Reader μ}

theorem after_concat (cap : ℕ) (ops : List (Op μ)) (op : Op μ) :
    after cap (ops ++ [op]) = (after cap ops).apply cap op := by
  simp [after]

theorem puts_concat_put (ops : List (Op μ)) (m : μ) : puts (ops ++ [.put m]) = puts ops ++ [m] := by
  simp [puts]

theorem puts_concat_take (ops : List (Op μ)) : puts (ops ++ [.take]) = puts ops := by
  simp [puts]

theorem take_cases (r : Reader μ) :
    r.take = r ∨ ∃ m q, r.queue = m :: q ∧ r.take = ⟨q, r.taken ++ [m]⟩ := by
  unfold Reader.take
  split
  · exact .inl rfl
  · rename_i m q hq
    exact .inr ⟨m, q, hq, rfl⟩

/-- A full queue has a free place once its oldest message is gone. -/
theorem put_full (hcap : 0 < cap) (hq : q.length ≤ cap) (h : ¬ q.length < cap) :
    put cap q m = q.tail ++ [m] := by
  rw [put, if_neg h, if_pos (by rw [List.length_tail]; omega)]

theorem length_put (hcap : 0 < cap) (hq : q.length ≤ cap) : (put cap q m).length ≤ cap := by
  by_cases h : q.length < cap
  · rw [put, if_pos h, List.length_append]
    exact h
  · rw [put_full hcap hq h, List.length_append, List.length_tail]
    simp
    omega

theorem length_queue (hcap : 0 < cap) (ops : List (Op μ)) : (after cap ops).queue.length ≤ cap := by
  induction ops using List.reverseRecOn with
  | nil => exact Nat.zero_le cap
  | append_singleton ops op ih =>
    rw [after_concat]
    cases op with
    | put m => exact length_put hcap ih
    | take =>
      rw [Reader.apply]
      obtain h | ⟨m, q, hq, h⟩ := take_cases (after cap ops)
      · rw [h]
        exact ih
      · rw [h]
        rw [hq] at ih
        exact Nat.le_of_succ_le ih

/-- The queue holds the newest messages. -/
theorem queue_suffix (hcap : 0 < cap) (ops : List (Op μ)) : (after cap ops).queue <:+ puts ops := by
  induction ops using List.reverseRecOn with
  | nil => exact List.suffix_refl []
  | append_singleton ops op ih =>
    rw [after_concat]
    cases op with
    | put m =>
      rw [puts_concat_put]
      by_cases h : (after cap ops).queue.length < cap
      · rw [Reader.apply, put, if_pos h]
        exact List.suffix_append_self_iff.mpr ih
      · rw [Reader.apply, put_full hcap (length_queue hcap ops) h]
        exact List.suffix_append_self_iff.mpr ((List.tail_suffix _).trans ih)
    | take =>
      rw [puts_concat_take]
      rw [Reader.apply]
      obtain h | ⟨m, q, hq, h⟩ := take_cases (after cap ops)
      · rw [h]
        exact ih
      · rw [h]
        rw [hq] at ih
        exact (List.suffix_cons m q).trans ih

/-- What the reader has and what waits for it came in this order; nothing comes twice. -/
theorem taken_sublist (hcap : 0 < cap) (ops : List (Op μ)) :
    ((after cap ops).taken ++ (after cap ops).queue).Sublist (puts ops) := by
  induction ops using List.reverseRecOn with
  | nil => exact List.Sublist.refl []
  | append_singleton ops op ih =>
    rw [after_concat]
    cases op with
    | put m =>
      rw [puts_concat_put]
      by_cases h : (after cap ops).queue.length < cap
      · rw [Reader.apply, put, if_pos h, ← List.append_assoc]
        exact ih.append (List.Sublist.refl [m])
      · rw [Reader.apply, put_full hcap (length_queue hcap ops) h, ← List.append_assoc]
        refine List.Sublist.append ?_ (List.Sublist.refl [m])
        exact ((List.Sublist.refl _).append (List.tail_sublist _)).trans ih
    | take =>
      rw [puts_concat_take]
      rw [Reader.apply]
      obtain h | ⟨m, q, hq, h⟩ := take_cases (after cap ops)
      · rw [h]
        exact ih
      · rw [h]
        rw [hq] at ih
        simpa using ih

theorem roomy_concat : Roomy cap (ops ++ [op]) ↔
    Roomy cap ops ∧ ∀ m, op = .put m → (after cap ops).queue.length < cap := by
  constructor
  · intro h
    refine ⟨fun pre m post hops => h pre m (post ++ [op]) (by simp [hops]), ?_⟩
    rintro m rfl
    exact h ops m [] rfl
  · rintro ⟨h, hlast⟩ pre m post hops
    rcases List.eq_nil_or_concat post with rfl | ⟨post', op', rfl⟩
    · obtain ⟨rfl, hop⟩ := List.append_inj' hops rfl
      exact hlast m (List.singleton_inj.mp hop)
    · rw [List.concat_eq_append, ← List.cons_append, ← List.append_assoc] at hops
      obtain ⟨rfl, -⟩ := List.append_inj' hops rfl
      exact h pre m post' rfl

/-- Nothing is lost exactly where every message found a free place. -/
theorem lossless_iff (hcap : 0 < cap) (ops : List (Op μ)) :
    (after cap ops).taken ++ (after cap ops).queue = puts ops ↔ Roomy cap ops := by
  induction ops using List.reverseRecOn with
  | nil => exact iff_of_true rfl fun pre m post h => by simp at h
  | append_singleton ops op ih =>
    rw [roomy_concat, after_concat, ← ih]
    cases op with
    | put m =>
      rw [puts_concat_put]
      by_cases h : (after cap ops).queue.length < cap
      · rw [Reader.apply, put, if_pos h, ← List.append_assoc, List.append_left_inj]
        exact ⟨fun heq => ⟨heq, fun _ _ => h⟩, fun heq => heq.1⟩
      · refine iff_of_false (fun heq => ?_) fun hroomy => h (hroomy.2 m rfl)
        -- the queue has dropped a message, so that what is left is shorter
        have hlen := congrArg List.length heq
        have hle := (taken_sublist hcap ops).length_le
        rw [Reader.apply, put_full hcap (length_queue hcap ops) h] at hlen
        simp only [List.length_append, List.length_tail, List.length_singleton] at hlen hle
        omega
    | take =>
      rw [puts_concat_take]
      rw [Reader.apply]
      have hsame : (after cap ops).take.taken ++ (after cap ops).take.queue =
          (after cap ops).taken ++ (after cap ops).queue := by
        obtain h | ⟨m, q, hq, h⟩ := take_cases (after cap ops)
        · rw [h]
        · rw [h, hq]
          simp
      rw [hsame]
      exact ⟨fun heq => ⟨heq, fun _ hop => by cases hop⟩, fun heq => heq.1⟩

end LossyQueue

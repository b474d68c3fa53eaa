import RownRg.Lib.Dedup
import RownRg.Lib.Graph
import RownRg.Sections.Store

/-! The order in which a batch of sections is written again. -/

open PyText Relation Circles FirstSeen RownRg.BuildsOn

namespace RownRg.Sections

/-- The targets, in whatever order a set gives them. -/
structure TargetSet where
  ids : List Uuid
  distinct : ids.Nodup

variable {plan : List SectionPlan} {targets : TargetSet} {deps : Uuid → List Uuid} {a b : Uuid}
  {todo out base remaining taken stuck : List Uuid} {n : Nat}

/-- `pos_of[sid]`: of two sections with one id the later one counts. -/
def posOf (plan : List SectionPlan) (sid : Uuid) : Option (Nat × Nat) :=
  (plan.reverse.find? (·.sectionId = sid)).map fun p => (p.chapterNumber, p.sectionNumber)

/-- The keys of `pos_of`. -/
def planIds (plan : List SectionPlan) : List Uuid := (plan.map (·.sectionId)).eraseDups

/-- `ids_by_ch.get(chapter, [])` -/
def idsByChapter (plan : List SectionPlan) (chapter : Nat) : List Uuid :=
  (planIds plan).filter fun sid => (posOf plan sid).any (·.1 = chapter)

/-- `id_by_pos.get((chapter, section))`: of two ids in one place the later one counts. -/
def idByPos (plan : List SectionPlan) (chapter sectionNumber : Nat) : Option Uuid :=
  (planIds plan).reverse.find? fun sid => posOf plan sid = some (chapter, sectionNumber)

def candidates (plan : List SectionPlan) (ref : BuildsOnRef) : List Uuid :=
  match ref.sectionNumber with
  | none => idsByChapter plan ref.chapter
  | some n => (idByPos plan ref.chapter n).toList

/-- The targets that a section of the batch builds on. -/
def batchDeps (plan : List SectionPlan) (targets : TargetSet) (p : SectionPlan) : List Uuid :=
  p.buildsOn.flatMap fun token =>
    match parseRef token with
    | none => []
    | some ref =>
      (candidates plan ref).filter fun c => c ∈ targets.ids && c ≠ p.sectionId

/-- `deps[sid]` -/
def depsOfTarget (plan : List SectionPlan) (targets : TargetSet) (sid : Uuid) : List Uuid :=
  ((plan.reverse.find? (·.sectionId = sid)).map (batchDeps plan targets)).getD []

/-- One pass over a copy of what remains: each section whose dependencies are placed is taken. -/
def takePass (deps : Uuid → List Uuid) :
    List Uuid → List Uuid → List Uuid → List Uuid × List Uuid
  | [], out, remaining => (out, remaining)
  | sid :: todo, out, remaining =>
    if (deps sid).all (· ∈ out) then takePass deps todo (out ++ [sid]) (remaining.erase sid)
    else takePass deps todo out remaining

/-- The passes, until nothing remains or a pass takes nothing. -/
def takeAll (deps : Uuid → List Uuid) : Nat → List Uuid → List Uuid → List Uuid
  | 0, remaining, out => out ++ remaining
  | n + 1, remaining, out =>
    if remaining.isEmpty then out
    else
      let (out, rest) := takePass deps remaining out remaining
      if rest.length = remaining.length then out ++ rest else takeAll deps n rest out

/-- The targets of the plan, in the order of the outline. -/
def targetsInPlan (plan : List SectionPlan) (targets : TargetSet) : List Uuid :=
  (plan.filter (·.sectionId ∈ targets.ids)).map (·.sectionId)

def rewriteOrder (plan : List SectionPlan) (targets : TargetSet) : List Uuid :=
  let base := targetsInPlan plan targets
  let leftovers := targets.ids.filter (· ∉ base)
  takeAll (depsOfTarget plan targets) base.length base [] ++ leftovers

/-! What the order is for. -/

/-- A reference of the first section leads to the second, or to its chapter. -/
def BuildsOn (plan : List SectionPlan) (a b : Uuid) : Prop :=
  ∃ p ∈ plan, p.sectionId = a ∧
    ∃ token ∈ p.buildsOn, ∃ ref, parseRef token = some ref ∧ b ∈ candidates plan ref

/-- The dependencies inside the batch. -/
def Waits (plan : List SectionPlan) (targets : TargetSet) (a b : Uuid) : Prop :=
  BuildsOn plan a b ∧ a ∈ targets.ids ∧ b ∈ targets.ids ∧ a ≠ b

/-- Each target once, and behind what it builds on, unless the two are on one circle. -/
def Ordered (plan : List SectionPlan) (targets : TargetSet) (out : List Uuid) : Prop :=
  (out.Nodup ∧ ∀ x, x ∈ out ↔ x ∈ targets.ids) ∧
    ∀ a b, Waits plan targets a b → ¬ TransGen (Waits plan targets) b a → [b, a].Sublist out

/-! The passes. -/

/-- Whatever is taken stands behind its dependencies. -/
def Topological (deps : Uuid → List Uuid) (out : List Uuid) : Prop :=
  ∀ x a y, out = x ++ a :: y → deps a ⊆ x

theorem Topological.concat (h : Topological deps out) (ha : deps a ⊆ out) :
    Topological deps (out ++ [a]) := by
  intro x b y heq
  rcases List.eq_nil_or_concat' y with rfl | ⟨y, c, rfl⟩
  · obtain ⟨rfl, hb⟩ := List.append_inj' heq rfl
    obtain rfl : a = b := (List.cons.inj hb).1
    exact ha
  · have hcut : out = x ++ b :: y ∧ [a] = [c] := by
      refine List.append_inj' (?_ : out ++ [a] = (x ++ b :: y) ++ [c]) rfl
      rw [heq, List.append_assoc, List.cons_append]
    exact h x b y hcut.1

/-- What one pass leaves: nothing is lost, the rest keeps its order, and where nothing was taken
everything waits. -/
theorem takePass_spec (htop : Topological deps out) (htodo : todo.Subperm remaining) :
    ∃ more rest, takePass deps todo out remaining = (out ++ more, rest) ∧
      rest.Sublist remaining ∧ (more ++ rest).Perm remaining ∧ Topological deps (out ++ more) ∧
      (more = [] → rest = remaining ∧ ∀ a ∈ todo, ¬ deps a ⊆ out) := by
  induction todo generalizing out remaining with
  | nil =>
    exact ⟨[], remaining, by simp [takePass], .refl _, .refl _, by simpa using htop, by simp⟩
  | cons a todo ih =>
    rw [takePass]
    by_cases ha : deps a ⊆ out
    · rw [if_pos (by simpa [List.all_eq_true] using fun b hb => ha hb)]
      have hmem : a ∈ remaining := htodo.subset List.mem_cons_self
      have hless : todo.Subperm (remaining.erase a) := by
        have h := htodo.erase a
        rwa [List.erase_cons_head] at h
      obtain ⟨more, rest, heq, hsub, hperm, htopo, -⟩ := ih (htop.concat ha) hless
      refine ⟨a :: more, rest, ?_, hsub.trans List.erase_sublist,
        (hperm.cons a).trans (List.perm_cons_erase hmem).symm, ?_, by simp⟩
      · rw [heq, List.append_assoc, List.singleton_append]
      · rwa [List.append_assoc, List.singleton_append] at htopo
    · have hfail : ¬ ((deps a).all (· ∈ out)) = true := by
        intro hall
        refine ha fun b hb => ?_
        simpa using List.all_eq_true.mp hall b hb
      rw [if_neg hfail]
      obtain ⟨more, rest, heq, hsub, hperm, htopo, hstuck⟩ :=
        ih htop ((List.sublist_cons_self a todo).subperm.trans htodo)
      refine ⟨more, rest, heq, hsub, hperm, htopo, fun hmore => ?_⟩
      obtain ⟨hrest, hwait⟩ := hstuck hmore
      refine ⟨hrest, fun b hb => ?_⟩
      rcases List.mem_cons.mp hb with rfl | hb
      · exact ha
      · exact hwait b hb

/-- What the passes give: first what can be taken, then what waits for itself, in its order. -/
theorem takeAll_spec (hn : remaining.length ≤ n) (htop : Topological deps out) :
    ∃ more stuck, takeAll deps n remaining out = out ++ more ++ stuck ∧ stuck.Sublist remaining ∧
      (more ++ stuck).Perm remaining ∧ Topological deps (out ++ more) ∧
      ∀ a ∈ stuck, ¬ deps a ⊆ out ++ more := by
  induction n generalizing remaining out with
  | zero =>
    obtain rfl := List.eq_nil_of_length_eq_zero (Nat.le_zero.mp hn)
    exact ⟨[], [], by simp [takeAll], .slnil, .nil, by simpa using htop, by simp⟩
  | succ n ih =>
    cases remaining with
    | nil => exact ⟨[], [], by simp [takeAll], .slnil, .nil, by simpa using htop, by simp⟩
    | cons sid todo =>
      obtain ⟨more, rest, heq, hsub, hperm, htopo, hstuck⟩ :=
        takePass_spec htop (List.Subperm.refl (sid :: todo))
      have hlen := hperm.length_eq
      rw [List.length_append] at hlen
      rw [takeAll, List.isEmpty_cons, if_neg Bool.false_ne_true, heq]
      simp only
      by_cases hsame : rest.length = (sid :: todo).length
      · have hmore : more = [] := List.eq_nil_of_length_eq_zero (by omega)
        subst hmore
        obtain ⟨hrest, hwait⟩ := hstuck rfl
        rw [if_pos hsame]
        refine ⟨[], rest, rfl, hsub, hperm, htopo, ?_⟩
        rw [hrest, List.append_nil]
        exact hwait
      · rw [if_neg hsame]
        have hshort : rest.length ≤ n := by
          have hle := hsub.length_le
          simp only [List.length_cons] at hle hsame hn
          omega
        obtain ⟨more', stuck, heq', hsub', hperm', htopo', hwait⟩ := ih hshort htopo
        refine ⟨more ++ more', stuck, ?_, hsub'.trans hsub, ?_, ?_, ?_⟩
        · rw [heq', List.append_assoc out]
        · rw [List.append_assoc]
          exact (hperm'.append_left more).trans hperm
        · rwa [← List.append_assoc]
        · rwa [← List.append_assoc]

/-! The dependencies that the code reads are those of the batch. -/

theorem mem_planIds : a ∈ planIds plan ↔ ∃ p ∈ plan, p.sectionId = a := by
  rw [planIds, List.mem_eraseDups, List.mem_map]

theorem planned_of_candidate {ref : BuildsOnRef} (h : b ∈ candidates plan ref) :
    ∃ q ∈ plan, q.sectionId = b := by
  unfold candidates at h
  cases hs : ref.sectionNumber with
  | none =>
    rw [hs] at h
    exact mem_planIds.1 (List.mem_filter.mp h).1
  | some n =>
    rw [hs] at h
    have hfind : idByPos plan ref.chapter n = some b := by simpa using h
    exact mem_planIds.1 (List.mem_reverse.mp (List.mem_of_find?_eq_some hfind))

/-- With every id at one section, the last section of an id is that section. -/
theorem find?_last {p : SectionPlan} (hp : p ∈ plan)
    (honly : ∀ q ∈ plan, q.sectionId = p.sectionId → q = p) :
    plan.reverse.find? (·.sectionId = p.sectionId) = some p := by
  cases hfind : plan.reverse.find? (·.sectionId = p.sectionId) with
  | none => exact absurd (List.find?_eq_none.mp hfind p (List.mem_reverse.mpr hp)) (by simp)
  | some q =>
    have hid : q.sectionId = p.sectionId := by simpa using List.find?_some hfind
    rw [honly q (List.mem_reverse.mp (List.mem_of_find?_eq_some hfind)) hid]

/-- In a plan without repetitions a reference leads to the sections at the place it names. -/
theorem mem_candidates {plan : DistinctPlan} {ref : BuildsOnRef} :
    b ∈ candidates plan.sections ref ↔ ∃ q ∈ plan.sections, q.sectionId = b ∧
      ref.chapter = q.chapterNumber ∧ ∀ n ∈ ref.sectionNumber, n = q.sectionNumber := by
  have hpos : ∀ q ∈ plan.sections,
      posOf plan.sections q.sectionId = some (q.chapterNumber, q.sectionNumber) := by
    intro q hq
    rw [posOf, find?_last hq fun p hp h => List.inj_on_of_nodup_map plan.ids hp hq h]
    rfl
  unfold candidates
  cases hs : ref.sectionNumber with
  | none =>
    simp only [idsByChapter, List.mem_filter, mem_planIds]
    constructor
    · rintro ⟨⟨q, hq, rfl⟩, hch⟩
      rw [hpos q hq] at hch
      exact ⟨q, hq, rfl, by simpa using Eq.symm (by simpa using hch), by simp⟩
    · rintro ⟨q, hq, rfl, hch, -⟩
      refine ⟨⟨q, hq, rfl⟩, ?_⟩
      rw [hpos q hq]
      simp [hch]
  | some n =>
    simp only [Option.mem_toList, Option.mem_def]
    constructor
    · intro hfind
      obtain ⟨q, hq, rfl⟩ :=
        mem_planIds.1 (List.mem_reverse.mp (List.mem_of_find?_eq_some hfind))
      have hplace : posOf plan.sections q.sectionId = some (ref.chapter, n) := by
        simpa using List.find?_some hfind
      rw [hpos q hq] at hplace
      obtain ⟨hch, hsec⟩ := Prod.mk.inj (Option.some.inj hplace)
      refine ⟨q, hq, rfl, hch.symm, fun m hm => ?_⟩
      obtain rfl : n = m := Option.some.inj hm
      exact hsec.symm
    · rintro ⟨q, hq, rfl, hch, hsec⟩
      have hn : n = q.sectionNumber := hsec n rfl
      have hplace : posOf plan.sections q.sectionId = some (ref.chapter, n) := by
        rw [hpos q hq, hch, hn]
      cases hfind : idByPos plan.sections ref.chapter n with
      | none =>
        refine absurd (List.find?_eq_none.mp hfind q.sectionId ?_) (by simp [hplace])
        exact List.mem_reverse.mpr (mem_planIds.2 ⟨q, hq, rfl⟩)
      | some c =>
        obtain ⟨p, hp, rfl⟩ :=
          mem_planIds.1 (List.mem_reverse.mp (List.mem_of_find?_eq_some hfind))
        have hplace' : posOf plan.sections p.sectionId = some (ref.chapter, n) := by
          simpa using List.find?_some hfind
        rw [hpos p hp, ← hplace, hpos q hq] at hplace'
        rw [List.inj_on_of_nodup_map plan.positions hp hq (Option.some.inj hplace')]

/-- A target stands at one section, where the plan names no target twice. -/
theorem target_unique (h : (targetsInPlan plan targets).Nodup) {p q : SectionPlan}
    (hp : p ∈ plan) (hq : q ∈ plan) (hid : p.sectionId = q.sectionId)
    (htarget : q.sectionId ∈ targets.ids) : p = q :=
  List.inj_on_of_nodup_map h (List.mem_filter.mpr ⟨hp, by simpa [hid] using htarget⟩)
    (List.mem_filter.mpr ⟨hq, by simpa using htarget⟩) hid

theorem mem_batchDeps {p : SectionPlan} : b ∈ batchDeps plan targets p ↔ b ∈ targets.ids ∧
    b ≠ p.sectionId ∧ ∃ token ∈ p.buildsOn, ∃ ref, parseRef token = some ref ∧
      b ∈ candidates plan ref := by
  rw [batchDeps, List.mem_flatMap]
  constructor
  · rintro ⟨token, htoken, hb⟩
    cases href : parseRef token with
    | none =>
      rw [href] at hb
      cases hb
    | some ref =>
      rw [href] at hb
      obtain ⟨hmem, hkeep⟩ := List.mem_filter.mp hb
      simp only [Bool.and_eq_true, decide_eq_true_eq] at hkeep
      exact ⟨hkeep.1, hkeep.2, token, htoken, ref, href, hmem⟩
  · rintro ⟨htarget, hne, token, htoken, ref, href, hmem⟩
    refine ⟨token, htoken, ?_⟩
    rw [href]
    exact List.mem_filter.mpr ⟨hmem, by simp [htarget, hne]⟩

theorem mem_depsOfTarget (hnodup : (targetsInPlan plan targets).Nodup) (ha : a ∈ targets.ids) :
    b ∈ depsOfTarget plan targets a ↔ Waits plan targets a b := by
  constructor
  · intro hb
    unfold depsOfTarget at hb
    cases hfind : plan.reverse.find? (·.sectionId = a) with
    | none =>
      rw [hfind] at hb
      cases hb
    | some p =>
      rw [hfind] at hb
      obtain ⟨htarget, hne, href⟩ := mem_batchDeps.1 hb
      have hp : p.sectionId = a := by simpa using List.find?_some hfind
      exact ⟨⟨p, List.mem_reverse.mp (List.mem_of_find?_eq_some hfind), hp, href⟩, ha, htarget,
        fun h => hne (h.symm.trans hp.symm)⟩
  · rintro ⟨⟨p, hp, rfl, href⟩, -, htarget, hne⟩
    rw [depsOfTarget, find?_last hp fun q hq h => target_unique hnodup hq hp h ha]
    exact mem_batchDeps.2 ⟨htarget, hne.symm, href⟩

theorem mem_targetsInPlan :
    a ∈ targetsInPlan plan targets ↔ a ∈ targets.ids ∧ ∃ p ∈ plan, p.sectionId = a := by
  simp only [targetsInPlan, List.mem_map, List.mem_filter, decide_eq_true_eq]
  constructor
  · rintro ⟨p, ⟨hp, hid⟩, rfl⟩
    exact ⟨hid, p, hp, rfl⟩
  · rintro ⟨hid, p, hp, rfl⟩
    exact ⟨p, ⟨hp, hid⟩, rfl⟩

theorem Waits.mem (h : Waits plan targets a b) :
    a ∈ targetsInPlan plan targets ∧ b ∈ targetsInPlan plan targets := by
  obtain ⟨⟨p, hp, hid, _, _, ref, _, hcand⟩, ha, hb, -⟩ := h
  exact ⟨mem_targetsInPlan.2 ⟨ha, p, hp, hid⟩,
    mem_targetsInPlan.2 ⟨hb, planned_of_candidate hcand⟩⟩

/-! What is taken leads to no circle, what is stuck leads to one. -/

theorem clear_of_taken (hnodup : (targetsInPlan plan targets).Nodup)
    (htop : Topological (depsOfTarget plan targets) taken)
    (htargets : ∀ a ∈ taken, a ∈ targets.ids) (ha : a ∈ taken) :
    Clear (Waits plan targets) a := by
  have hfront : ∀ x y, taken = x ++ y → ∀ a ∈ x, Clear (Waits plan targets) a := by
    intro x
    induction x using List.reverseRecOn with
    | nil => simp
    | append_singleton x b ih =>
      intro y heq a ha
      rw [List.append_assoc, List.singleton_append] at heq
      have hx := ih _ heq
      rcases List.mem_append.mp ha with ha | ha
      · exact hx a ha
      · obtain rfl := List.mem_singleton.mp ha
        have htarget := htargets a (by rw [heq]; simp)
        exact clear_of_next fun c hc => hx c (htop x a y heq ((mem_depsOfTarget hnodup htarget).mpr hc))
  exact hfront taken [] (List.append_nil taken).symm a ha

theorem not_clear_of_stuck (hnodup : (targetsInPlan plan targets).Nodup)
    (hperm : (taken ++ stuck).Perm (targetsInPlan plan targets))
    (hwait : ∀ a ∈ stuck, ¬ depsOfTarget plan targets a ⊆ taken) :
    ∀ a ∈ stuck, ¬ Clear (Waits plan targets) a := by
  refine not_clear_of_next fun a ha => ?_
  have hbase : a ∈ targetsInPlan plan targets := hperm.subset (List.mem_append_right _ ha)
  obtain ⟨b, hb, hout⟩ : ∃ b ∈ depsOfTarget plan targets a, b ∉ taken := by
    by_contra hall
    push Not at hall
    exact hwait a ha hall
  have hedge := (mem_depsOfTarget hnodup (mem_targetsInPlan.1 hbase).1).mp hb
  rcases List.mem_append.mp (hperm.symm.subset hedge.mem.2) with h | h
  · exact absurd h hout
  · exact ⟨b, h, hedge⟩

/-- The order is right exactly when the plan names no target twice and what leads to a circle
already stands in the plan in the order of its dependencies. -/
theorem ordered_iff (plan : List SectionPlan) (targets : TargetSet) :
    Ordered plan targets (rewriteOrder plan targets) ↔ (targetsInPlan plan targets).Nodup ∧
      ∀ a b, Waits plan targets a b → ¬ TransGen (Waits plan targets) b a →
        ¬ Clear (Waits plan targets) b → [b, a].Sublist (targetsInPlan plan targets) := by
  have hstart : Topological (depsOfTarget plan targets) [] := by
    intro x a y heq
    cases x <;> cases heq
  obtain ⟨taken, stuck, heq, hsub, hperm, htop, hwait⟩ :=
    takeAll_spec (le_refl (targetsInPlan plan targets).length) hstart
  rw [List.nil_append] at heq htop hwait
  have hout : rewriteOrder plan targets =
      taken ++ stuck ++ targets.ids.filter (· ∉ targetsInPlan plan targets) := by
    rw [← heq]
    rfl
  have htakenOut : (taken ++ stuck).Sublist (rewriteOrder plan targets) := by
    rw [hout]
    exact List.sublist_append_left _ _
  have hstuckOut : stuck.Sublist (rewriteOrder plan targets) :=
    (List.sublist_append_right taken stuck).trans htakenOut
  have hbase : Ordered plan targets (rewriteOrder plan targets) →
      (targetsInPlan plan targets).Nodup := fun h =>
    hperm.nodup_iff.mp (h.1.1.sublist htakenOut)
  have htargets : ∀ a ∈ taken, a ∈ targets.ids := fun a ha =>
    (mem_targetsInPlan.1 (hperm.subset (List.mem_append_left _ ha))).1
  have hplace : (targetsInPlan plan targets).Nodup → ∀ b ∈ targetsInPlan plan targets,
      ¬ Clear (Waits plan targets) b → b ∈ stuck := by
    intro hnodup b hb hno
    rcases List.mem_append.mp (hperm.symm.subset hb) with h | h
    · exact absurd (clear_of_taken hnodup htop htargets h) hno
    · exact h
  constructor
  · intro h
    have hnodup := hbase h
    refine ⟨hnodup, fun a b hab hback hno => ?_⟩
    have hb := hplace hnodup b hab.mem.2 hno
    have ha := hplace hnodup a hab.mem.1 fun hc => hno (hc.next hab)
    exact (pair_sublist hstuckOut h.1.1 ha hb (h.2 a b hab hback)).trans hsub
  · rintro ⟨hnodup, h⟩
    refine ⟨⟨?_, fun x => ?_⟩, fun a b hab hback => ?_⟩
    · rw [hout]
      refine List.nodup_append.mpr
        ⟨hperm.nodup_iff.mpr hnodup, targets.distinct.filter _, ?_⟩
      rintro x hx y hy rfl
      have hno := (List.mem_filter.mp hy).2
      simp only [decide_eq_true_eq] at hno
      exact hno (hperm.subset hx)
    · rw [hout, List.mem_append, hperm.mem_iff, List.mem_filter]
      by_cases hx : x ∈ targetsInPlan plan targets
      · simp [hx, (mem_targetsInPlan.1 hx).1]
      · simp [hx]
    · refine List.Sublist.trans ?_ htakenOut
      by_cases hno : Clear (Waits plan targets) b
      · have hb : b ∈ taken := by
          rcases List.mem_append.mp (hperm.symm.subset hab.mem.2) with hb | hb
          · exact hb
          · exact absurd hno (not_clear_of_stuck hnodup hperm hwait b hb)
        rcases List.mem_append.mp (hperm.symm.subset hab.mem.1) with ha | ha
        · obtain ⟨x, y, hsplit⟩ := List.append_of_mem ha
          have hbx := htop x a y hsplit ((mem_depsOfTarget hnodup hab.2.1).mpr hab)
          refine List.Sublist.trans ?_ (List.sublist_append_left taken stuck)
          rw [hsplit]
          exact (List.singleton_sublist.mpr hbx).append
            (List.singleton_sublist.mpr List.mem_cons_self)
        · exact (List.singleton_sublist.mpr hb).append (List.singleton_sublist.mpr ha)
      · have hb := hplace hnodup b hab.mem.2 hno
        have ha := hplace hnodup a hab.mem.1 fun hc => hno (hc.next hab)
        exact (pair_sublist hsub hnodup ha hb (h a b hab hback hno)).trans
          (List.sublist_append_right taken stuck)

/-- The first section builds on the second, which waits for the third and the third for it. -/
def downstreamPlan : List SectionPlan := [
    ⟨⟨"000000000000000000000000000000d1".toList, by decide, by decide⟩, 1, 1, "전망".toList, [], [],
      [], [], [], ["1.2".toList], none, none⟩,
    ⟨⟨"000000000000000000000000000000d2".toList, by decide, by decide⟩, 1, 2, "현황".toList, [], [],
      [], [], [], ["1.3".toList], none, none⟩,
    ⟨⟨"000000000000000000000000000000d3".toList, by decide, by decide⟩, 1, 3, "배경".toList, [], [],
      [], [], [], ["1.2".toList], none, none⟩]

def downstreamTargets : TargetSet where
  ids := downstreamPlan.map (·.sectionId)
  distinct := by decide

theorem not_ordered_downstream : ¬ ∀ plan targets, Ordered plan targets
    (rewriteOrder plan targets) := by
  intro h
  let first : Uuid := ⟨"000000000000000000000000000000d1".toList, by decide, by decide⟩
  let second : Uuid := ⟨"000000000000000000000000000000d2".toList, by decide, by decide⟩
  have hnodup : (targetsInPlan downstreamPlan downstreamTargets).Nodup := by decide
  have hdeps : ∀ a b, Waits downstreamPlan downstreamTargets a b →
      b ∈ depsOfTarget downstreamPlan downstreamTargets a := fun a b hab =>
    (mem_depsOfTarget hnodup hab.2.1).mpr hab
  have hwaits : Waits downstreamPlan downstreamTargets first second :=
    (mem_depsOfTarget hnodup (by decide)).mp (by decide)
  -- Nothing builds on the first section.
  have hfree : ∀ a, ¬ Waits downstreamPlan downstreamTargets a first := by
    intro a ha
    have hall : ∀ a ∈ downstreamTargets.ids,
        first ∉ depsOfTarget downstreamPlan downstreamTargets a := by decide
    exact hall a ha.2.1 (hdeps a first ha)
  have hback : ¬ TransGen (Waits downstreamPlan downstreamTargets) second first := by
    intro hpath
    obtain ⟨a, -, ha⟩ := TransGen.tail'_iff.mp hpath
    exact hfree a ha
  have hpair := (h downstreamPlan downstreamTargets).2 first second hwaits hback
  revert hpair
  decide

end RownRg.Sections

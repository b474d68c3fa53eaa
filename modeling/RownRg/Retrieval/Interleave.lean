import Mathlib.Order.Lattice
import RownRg.Lib.Dedup
import RownRg.Lib.Json

/-! The hits of several queries merged by turns. -/

open PyText

namespace RownRg.Retrieval

/-- A retrieved chunk with its score. -/
structure Hit (ι σ : Type) where
  chunkId : ι
  content : Text
  sourceId : ι
  chunkIndex : Int
  metadata : Json
  score : σ

variable {ι σ : Type} [DecidableEq ι] [LinearOrder σ] {best : ι → Option (Hit ι σ)}
  {lists : List (List (Hit ι σ))} {hits turns out : List (Hit ι σ)} {hit : Hit ι σ} {seen : List ι}
  {limit r : Nat}

/-- One turn of the loop that fills `best`. -/
def keepBest (best : ι → Option (Hit ι σ)) (hit : Hit ι σ) : ι → Option (Hit ι σ) :=
  match best hit.chunkId with
  | none => Function.update best hit.chunkId (some hit)
  | some prev => if prev.score < hit.score then Function.update best hit.chunkId (some hit) else best

def bestOf (lists : List (List (Hit ι σ))) : ι → Option (Hit ι σ) :=
  lists.flatten.foldl keepBest fun _ => none

/-- The hits in the order in which their turn comes: the first of every list, the second, and so
on. -/
def turnsOf (lists : List (List (Hit ι σ))) : List (Hit ι σ) :=
  let depth := (lists.map List.length).max?.getD 0
  (List.range depth).flatMap fun rank => lists.filterMap (·[rank]?)

/-- The loop over the turns. A chunk that `best` does not know is a `KeyError`. -/
def takeTurns (best : ι → Option (Hit ι σ)) (limit : Nat) :
    List (Hit ι σ) → List ι → List (Hit ι σ) → Option (List (Hit ι σ))
  | [], _, picked => some picked
  | hit :: turns, seen, picked =>
    if hit.chunkId ∈ seen then takeTurns best limit turns seen picked
    else do
      let top ← best hit.chunkId
      let picked := picked ++ [top]
      if limit ≤ picked.length then some picked
      else takeTurns best limit turns (seen ++ [hit.chunkId]) picked

def interleaveByQuery (lists : List (List (Hit ι σ))) (limit : Nat) : Option (List (Hit ι σ)) :=
  takeTurns (bestOf lists) limit (turnsOf lists) [] []

/-! The best hit of every chunk. -/

/-- `best` holds the best of the hits read so far, and nothing else. -/
structure Best (read : List (Hit ι σ)) (best : ι → Option (Hit ι σ)) : Prop where
  known : ∀ hit ∈ read, ∃ top, best hit.chunkId = some top
  origin : ∀ id top, best id = some top → top ∈ read ∧ top.chunkId = id
  top : ∀ id top, best id = some top → ∀ hit ∈ read, hit.chunkId = id → hit.score ≤ top.score

theorem best_keepBest {read : List (Hit ι σ)} (h : Best read best) (hit : Hit ι σ) :
    Best (read ++ [hit]) (keepBest best hit) := by
  have hcases : (keepBest best hit = Function.update best hit.chunkId (some hit) ∧
        ∀ prev, best hit.chunkId = some prev → prev.score < hit.score) ∨
      (keepBest best hit = best ∧ ∃ prev, best hit.chunkId = some prev ∧ hit.score ≤ prev.score) := by
    unfold keepBest
    split
    · rename_i hnone
      exact .inl ⟨rfl, fun prev hprev => by simp [hnone] at hprev⟩
    · rename_i prev hprev
      split
      · rename_i hlt
        refine .inl ⟨rfl, fun prev' hprev' => ?_⟩
        obtain rfl : prev = prev' := Option.some.inj (hprev.symm.trans hprev')
        exact hlt
      · rename_i hlt
        exact .inr ⟨rfl, prev, hprev, not_lt.mp hlt⟩
  rcases hcases with ⟨heq, hbeaten⟩ | ⟨heq, prev, hprev, hle⟩
  · rw [heq]
    refine ⟨fun a ha => ?_, fun id top htop => ?_, fun id top htop a ha hid => ?_⟩
    · by_cases hid : a.chunkId = hit.chunkId
      · exact ⟨hit, by rw [hid, Function.update_self]⟩
      · rw [Function.update_of_ne hid]
        rcases List.mem_append.mp ha with ha | ha
        · exact h.known a ha
        · exact absurd (congrArg Hit.chunkId (List.mem_singleton.mp ha)) hid
    · by_cases hid : id = hit.chunkId
      · subst hid
        rw [Function.update_self] at htop
        obtain rfl := Option.some.inj htop
        exact ⟨by simp, rfl⟩
      · rw [Function.update_of_ne hid] at htop
        obtain ⟨hmem, hkey⟩ := h.origin id top htop
        exact ⟨List.mem_append_left _ hmem, hkey⟩
    · by_cases hne : id = hit.chunkId
      · subst hne
        rw [Function.update_self] at htop
        obtain rfl := Option.some.inj htop
        rcases List.mem_append.mp ha with ha | ha
        · obtain ⟨prev, hprev⟩ := h.known a ha
          rw [hid] at hprev
          exact (h.top _ prev hprev a ha hid).trans (hbeaten prev hprev).le
        · rw [List.mem_singleton.mp ha]
      · rw [Function.update_of_ne hne] at htop
        rcases List.mem_append.mp ha with ha | ha
        · exact h.top id top htop a ha hid
        · rw [List.mem_singleton.mp ha] at hid
          exact absurd hid.symm hne
  · rw [heq]
    refine ⟨fun a ha => ?_, fun id top htop => ?_, fun id top htop a ha hid => ?_⟩
    · rcases List.mem_append.mp ha with ha | ha
      · exact h.known a ha
      · rw [List.mem_singleton.mp ha]
        exact ⟨prev, hprev⟩
    · obtain ⟨hmem, hkey⟩ := h.origin id top htop
      exact ⟨List.mem_append_left _ hmem, hkey⟩
    · rcases List.mem_append.mp ha with ha | ha
      · exact h.top id top htop a ha hid
      · obtain rfl := List.mem_singleton.mp ha
        rw [hid] at hprev
        obtain rfl : top = prev := Option.some.inj (htop.symm.trans hprev)
        exact hle

theorem best_bestOf (lists : List (List (Hit ι σ))) : Best lists.flatten (bestOf lists) := by
  have hrun : ∀ (hits : List (Hit ι σ)) {read best}, Best read best →
      Best (read ++ hits) (hits.foldl keepBest best) := by
    intro hits
    induction hits with
    | nil =>
      intro read best h
      simpa using h
    | cons hit hits ih =>
      intro read best h
      have hnext := ih (best_keepBest h hit)
      rwa [List.append_assoc] at hnext
  have hstart : Best ([] : List (Hit ι σ)) fun _ => none :=
    ⟨by simp, by simp, by simp⟩
  simpa [bestOf] using hrun lists.flatten hstart

/-! The turns. -/

/-- The first `n` rounds. -/
def rounds (lists : List (List (Hit ι σ))) (n : Nat) : List (Hit ι σ) :=
  (List.range n).flatMap fun rank => lists.filterMap (·[rank]?)

omit [DecidableEq ι] [LinearOrder σ] in
theorem length_rounds (lists : List (List (Hit ι σ))) (n : Nat) :
    (rounds lists n).length ≤ n * lists.length := by
  induction n with
  | zero => simp [rounds]
  | succ n ih =>
    have hround := List.length_filterMap_le (·[n]?) lists
    rw [rounds, List.range_succ, List.flatMap_append, List.length_append, Nat.succ_mul]
    unfold rounds at ih
    simpa using Nat.add_le_add ih hround

omit [DecidableEq ι] [LinearOrder σ] in
theorem mem_rounds {n : Nat} :
    hit ∈ rounds lists n ↔ ∃ rank < n, ∃ hits ∈ lists, hits[rank]? = some hit := by
  simp [rounds]

omit [DecidableEq ι] [LinearOrder σ] in
theorem turnsOf_eq (hr : hits ∈ lists) (h : hits[r]? = some hit) :
    ∃ rest, turnsOf lists = rounds lists (r + 1) ++ rest := by
  obtain ⟨hlt, -⟩ := List.getElem?_eq_some_iff.mp h
  have hmem : hits.length ∈ lists.map List.length := List.mem_map_of_mem hr
  obtain ⟨depth, hdepth⟩ := Option.isSome_iff_exists.mp (List.isSome_max?_of_mem hmem)
  have hle : hits.length ≤ depth := by
    have hmax := (List.max?_eq_some_iff.mp hdepth).2
    exact hmax _ hmem
  obtain ⟨k, rfl⟩ : ∃ k, depth = r + 1 + k := ⟨depth - (r + 1), by omega⟩
  refine ⟨((List.range k).map (r + 1 + ·)).flatMap fun rank => lists.filterMap (·[rank]?), ?_⟩
  simp only [turnsOf, hdepth, Option.getD_some, rounds, List.range_add, List.flatMap_append]

omit [DecidableEq ι] [LinearOrder σ] in
/-- Every hit has its turn. -/
theorem mem_turnsOf : hit ∈ turnsOf lists ↔ hit ∈ lists.flatten := by
  constructor
  · intro h
    obtain ⟨rank, -, hits, hmem, hat⟩ := mem_rounds.1 (show hit ∈ rounds lists _ from h)
    exact List.mem_flatten.mpr ⟨hits, hmem, List.mem_of_getElem? hat⟩
  · intro h
    obtain ⟨hits, hmem, hhit⟩ := List.mem_flatten.mp h
    obtain ⟨r, hat⟩ := List.mem_iff_getElem?.mp hhit
    obtain ⟨rest, heq⟩ := turnsOf_eq hmem hat
    rw [heq]
    exact List.mem_append_left _ (mem_rounds.2 ⟨r, by omega, hits, hmem, hat⟩)

/-! The loop: it takes the distinct chunks in the order of their turns until the limit. -/

omit [LinearOrder σ] in
theorem takeTurns_eq (hknown : ∀ hit ∈ turns, ∃ top, best hit.chunkId = some top ∧
      top.chunkId = hit.chunkId) {picked : List (Hit ι σ)}
    (hseen : picked.map (·.chunkId) = seen) (hnodup : seen.Nodup) (hroom : seen.length < limit)
    (hbest : ∀ hit ∈ picked, best hit.chunkId = some hit) :
    ∃ out, takeTurns best limit turns seen picked = some out ∧
      out.map (·.chunkId) = ((seen ++ turns.map (·.chunkId)).eraseDups).take limit ∧
      ∀ hit ∈ out, best hit.chunkId = some hit := by
  induction turns generalizing seen picked with
  | nil =>
    refine ⟨picked, rfl, ?_, hbest⟩
    rw [List.map_nil, List.append_nil, FirstSeen.of_nodup hnodup, List.take_of_length_le hroom.le,
      hseen]
  | cons hit turns ih =>
    have hrest : ∀ hit ∈ turns, ∃ top, best hit.chunkId = some top ∧ top.chunkId = hit.chunkId :=
      fun a ha => hknown a (List.mem_cons_of_mem _ ha)
    by_cases hmem : hit.chunkId ∈ seen
    · obtain ⟨out, hout, hids, htop⟩ := ih hrest hseen hnodup hroom hbest
      refine ⟨out, ?_, ?_, htop⟩
      · rw [takeTurns, if_pos hmem, hout]
      · rw [hids, List.map_cons, List.eraseDups_append, List.eraseDups_append,
          List.cons_removeAll, if_neg (by simpa using hmem)]
    · obtain ⟨top, htop, hkey⟩ := hknown hit List.mem_cons_self
      have hseen' : (picked ++ [top]).map (·.chunkId) = seen ++ [hit.chunkId] := by
        simp [hseen, hkey]
      have hnodup' : (seen ++ [hit.chunkId]).Nodup := by
        rw [← List.concat_eq_append]
        exact (List.nodup_concat _ _).mpr ⟨hmem, hnodup⟩
      have hbest' : ∀ a ∈ picked ++ [top], best a.chunkId = some a := by
        intro a ha
        rcases List.mem_append.mp ha with ha | ha
        · exact hbest a ha
        · rw [List.mem_singleton.mp ha, hkey, htop]
      have hlength : (picked ++ [top]).length = (seen ++ [hit.chunkId]).length := by
        rw [← hseen', List.length_map]
      have hturn : takeTurns best limit (hit :: turns) seen picked =
          if limit ≤ (picked ++ [top]).length then some (picked ++ [top])
          else takeTurns best limit turns (seen ++ [hit.chunkId]) (picked ++ [top]) := by
        rw [takeTurns, if_neg hmem, htop]
        rfl
      have hsplit : seen ++ (hit :: turns).map (·.chunkId) =
          seen ++ [hit.chunkId] ++ turns.map (·.chunkId) := by
        simp
      rw [hturn, hsplit]
      by_cases hfull : limit ≤ (picked ++ [top]).length
      · refine ⟨picked ++ [top], if_pos hfull, ?_, hbest'⟩
        have hlen : limit = (seen ++ [hit.chunkId]).length := by
          rw [hlength] at hfull
          simp only [List.length_append, List.length_cons, List.length_nil] at hfull ⊢
          omega
        rw [List.eraseDups_append, FirstSeen.of_nodup hnodup', hlen, List.take_left, hseen']
      · obtain ⟨out, hout, hids, htops⟩ := ih hrest hseen' hnodup' (by omega) hbest'
        exact ⟨out, by rw [if_neg hfull, hout], hids, htops⟩

/-- What the merge takes: the chunks of the hits in the order of their turns, each once. -/
theorem interleaveByQuery_eq (lists : List (List (Hit ι σ))) (hlimit : 1 ≤ limit) :
    ∃ out, interleaveByQuery lists limit = some out ∧
      out.map (·.chunkId) = ((turnsOf lists).map (·.chunkId)).eraseDups.take limit ∧
      ∀ hit ∈ out, bestOf lists hit.chunkId = some hit := by
  have hb := best_bestOf lists
  have hknown : ∀ hit ∈ turnsOf lists, ∃ top, bestOf lists hit.chunkId = some top ∧
      top.chunkId = hit.chunkId := by
    intro hit hhit
    obtain ⟨top, htop⟩ := hb.known hit (mem_turnsOf.1 hhit)
    exact ⟨top, htop, (hb.origin _ _ htop).2⟩
  exact takeTurns_eq hknown rfl List.nodup_nil hlimit (by simp)

/-- The merge keeps distinct chunks, as many as the limit and the hits allow, each as its best
hit, and the upper ranks of every list. -/
theorem interleaveByQuery_fair (lists : List (List (Hit ι σ))) (hlimit : 1 ≤ limit) :
    ∃ out, interleaveByQuery lists limit = some out ∧
      (out.map (·.chunkId)).Nodup ∧
      out.length = min limit (lists.flatten.map (·.chunkId)).eraseDups.length ∧
      (∀ hit ∈ out, hit ∈ lists.flatten ∧
        ∀ other ∈ lists.flatten, other.chunkId = hit.chunkId → other.score ≤ hit.score) ∧
      ∀ r, (r + 1) * lists.length ≤ limit → ∀ hits ∈ lists, ∀ hit, hits[r]? = some hit →
        hit.chunkId ∈ out.map (·.chunkId) := by
  obtain ⟨out, hout, hids, hbest⟩ := interleaveByQuery_eq lists hlimit
  refine ⟨out, hout, ?_, ?_, fun hit hhit => ?_, fun r hr hits hmem hit hat => ?_⟩
  · rw [hids]
    exact (FirstSeen.nodup _).sublist (List.take_sublist _ _)
  · have hsame : ((turnsOf lists).map (·.chunkId)).eraseDups.length =
        (lists.flatten.map (·.chunkId)).eraseDups.length := by
      refine List.Perm.length_eq ((List.perm_ext_iff_of_nodup (FirstSeen.nodup _)
        (FirstSeen.nodup _)).mpr fun id => ?_)
      simp only [List.mem_eraseDups, List.mem_map, mem_turnsOf]
    rw [← List.length_map (f := fun hit : Hit ι σ => hit.chunkId), hids, List.length_take, hsame]
  · obtain ⟨hread, -⟩ := (best_bestOf lists).origin _ _ (hbest hit hhit)
    exact ⟨hread, (best_bestOf lists).top _ _ (hbest hit hhit)⟩
  · obtain ⟨rest, heq⟩ := turnsOf_eq hmem hat
    have hshort : ((rounds lists (r + 1)).map (·.chunkId)).eraseDups.length ≤ limit :=
      (FirstSeen.sublist _).length_le.trans (by
        rw [List.length_map]
        exact (length_rounds lists (r + 1)).trans hr)
    have hfirst : hit.chunkId ∈ ((rounds lists (r + 1)).map (·.chunkId)).eraseDups :=
      List.mem_eraseDups.mpr (List.mem_map_of_mem
        (mem_rounds.2 ⟨r, by omega, hits, hmem, hat⟩))
    rw [hids, heq, List.map_append, List.eraseDups_append, List.take_append]
    exact List.mem_append_left _ (by rwa [List.take_of_length_le hshort])

/-- A chunk that both queries find comes once, with the better of its scores. -/
theorem interleaveByQuery_fair_shared :
    ∃ out, interleaveByQuery [[(⟨1, [], 7, 0, .null, 3⟩ : Hit Nat Nat)],
        [⟨1, [], 7, 0, .null, 5⟩, ⟨2, [], 7, 1, .null, 4⟩]] 2 = some out ∧
      (out.map (·.chunkId)).Nodup ∧ out.length = min 2 [1, 2].length ∧
      ∀ hit ∈ out, hit.chunkId = 1 → 5 ≤ hit.score := by
  obtain ⟨out, hout, hnodup, hlength, hbest, -⟩ := interleaveByQuery_fair
    [[(⟨1, [], 7, 0, .null, 3⟩ : Hit Nat Nat)],
      [⟨1, [], 7, 0, .null, 5⟩, ⟨2, [], 7, 1, .null, 4⟩]] (show 1 ≤ 2 by decide)
  exact ⟨out, hout, hnodup, hlength, fun hit hhit hid =>
    (hbest hit hhit).2 ⟨1, [], 7, 0, .null, 5⟩ (by simp) hid.symm⟩

end RownRg.Retrieval

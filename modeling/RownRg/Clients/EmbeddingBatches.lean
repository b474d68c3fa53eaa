import Mathlib.Data.List.Sort
import RownRg.Lib.Fallible
import RownRg.Lib.Text

/-! Embedding a list of texts: the cache first, then what it misses in batches, every vector back to
the place of its text. -/

open PyText

namespace RownRg.Embedding

structure EmbeddingResult (ν : Type) where
  embedding : List ν
  text : Text
  cached : Bool

inductive EmbedError where
  /-- `IndexError` -/
  | noIndex (i : Nat)
  /-- `AssertionError` -/
  | unfilled
  /-- `RuntimeError` -/
  | noFallback (reason : Text)
  /-- `ValueError` of `zip` or of `range` -/
  | lengths
  | noStep
  /-- what is wrong with a response -/
  | badPayload
  | badCount (got expected : Nat)
  | badVector (i : Nat)
  | status (code : Nat)
  | transport
  | failed
  deriving DecidableEq

/-- `MAX_INPUT_CHARS` -/
def maxInputChars : Nat := 4000

def clampText (t : Text) : Text := if t.length > maxInputChars then t.take maxInputChars else t

/-- `clamp_input` -/
def clampInput (texts : List Text) : List Text := texts.map clampText

/-- What `load` gives for every text. -/
abbrev Cache (ν : Type) := Text → Option (List ν)

def Cache.store {ν : Type} (cache : Cache ν) (t : Text) (vec : List ν) : Cache ν :=
  fun s => if s = t then some vec else cache s

/-- `encode` is one forward pass. -/
structure LocalClient (ν : Type) where
  maxCharsPerBatch : Int
  encode : List Text → List (List ν)

structure BatchState where
  batches : List (List Text)
  current : List Text
  currentChars : Nat

def addToBatch (maxChars : Int) (st : BatchState) (text : Text) : BatchState :=
  let st :=
    if !st.current.isEmpty && ((st.currentChars + text.length : Nat) : Int) > maxChars then
      ⟨st.batches ++ [st.current], [], 0⟩
    else st
  ⟨st.batches, st.current ++ [text], st.currentChars + text.length⟩

def makeDynamicBatches (texts : List Text) (maxChars : Int) : List (List Text) :=
  let st := texts.foldl (addToBatch maxChars) ⟨[], [], 0⟩
  if st.current.isEmpty then st.batches else st.batches ++ [st.current]

variable {ν : Type}

/-- The results found so far, and the places and the texts that the cache misses. -/
structure Lookup (ν : Type) where
  results : List (Option (EmbeddingResult ν))
  missIndices : List Nat
  missTexts : List Text

def lookUp (cache : Cache ν) (st : Lookup ν) (x : (Text × Text) × Nat) : Lookup ν :=
  match cache x.1.2 with
  | some vec => { st with results := st.results.set x.2 (some ⟨vec, x.1.1, true⟩) }
  | none =>
    { st with missIndices := st.missIndices ++ [x.2], missTexts := st.missTexts ++ [x.1.2] }

/-- `xs[i]` -/
def item {α : Type} (xs : List α) (i : Nat) : Except EmbedError α :=
  match xs[i]? with
  | none => .error (.noIndex i)
  | some x => .ok x

structure Filling (ν : Type) where
  results : List (Option (EmbeddingResult ν))
  cache : Cache ν
  cursor : Nat

def fillSlot (texts : List Text) (missIndices : List Nat) (vectors : List (List ν))
    (st : Filling ν) (x : Text × Nat) : Except EmbedError (Filling ν) := do
  let vec ← item vectors x.2
  let idx ← item missIndices (st.cursor + x.2)
  let orig ← item texts idx
  return { st with
    cache := st.cache.store x.1 vec
    results := st.results.set idx (some ⟨vec, orig, false⟩) }

def fillBatch (c : LocalClient ν) (texts : List Text) (missIndices : List Nat) (st : Filling ν)
    (chunk : List Text) : Except EmbedError (Filling ν) := do
  let st ← chunk.zipIdx.foldlM (fillSlot texts missIndices (c.encode chunk)) st
  return { st with cursor := st.cursor + chunk.length }

/-- The places of the misses, the shortest text first. -/
def paddingOrder (missTexts : List Text) : List Nat :=
  (List.range missTexts.length).insertionSort fun i j =>
    (missTexts.getD i []).length ≤ (missTexts.getD j []).length

/-- The results in the order of the texts, and the cache with what was computed. -/
def embedBatch (c : LocalClient ν) (cache : Cache ν) (texts : List Text) (sortForPadding : Bool) :
    Except EmbedError (List (EmbeddingResult ν) × Cache ν) := do
  if texts.isEmpty then return ([], cache)
  let found := ((texts.zip (clampInput texts)).zipIdx).foldl (lookUp cache)
    ⟨List.replicate texts.length none, [], []⟩
  let order := paddingOrder found.missTexts
  let missTexts :=
    if sortForPadding then order.map (found.missTexts.getD · []) else found.missTexts
  let missIndices :=
    if sortForPadding then order.map (found.missIndices.getD · 0) else found.missIndices
  let st ← (makeDynamicBatches missTexts c.maxCharsPerBatch).foldlM (fillBatch c texts missIndices)
    ⟨found.results, cache, 0⟩
  if st.results.all (·.isSome) then return (st.results.filterMap id, st.cache)
  else .error .unfilled

/-! Batches. -/

variable {enc : Text → List ν} {c : LocalClient ν} {cache : Cache ν} {texts ts done more : List Text}
  {results : List (Option (EmbeddingResult ν))} {missIndices is : List Nat} {t : Text} {i k : Nat}
  {pending pending' : Nat → Prop} {st : Filling ν}

/-- Batching keeps the texts and their order. -/
theorem flatten_makeDynamicBatches (texts : List Text) (maxChars : Int) :
    (makeDynamicBatches texts maxChars).flatten = texts := by
  have hstep : ∀ (st : BatchState) (t : Text), (addToBatch maxChars st t).batches.flatten ++
      (addToBatch maxChars st t).current = (st.batches.flatten ++ st.current) ++ [t] := by
    intro st t
    unfold addToBatch
    dsimp only
    split <;> simp
  have hall : ∀ (texts : List Text) (st : BatchState),
      (texts.foldl (addToBatch maxChars) st).batches.flatten ++
        (texts.foldl (addToBatch maxChars) st).current = (st.batches.flatten ++ st.current) ++ texts := by
    intro texts
    induction texts with
    | nil => simp
    | cons t texts ih =>
      intro st
      rw [List.foldl_cons, ih, hstep, List.append_assoc, List.singleton_append]
  have hend := hall texts ⟨[], [], 0⟩
  unfold makeDynamicBatches
  dsimp only
  split
  · rename_i hempty
    rw [List.isEmpty_iff.mp hempty] at hend
    simpa using hend
  · simpa using hend

/-! Slots. -/

/-- Every vector of the cache is the one that its text has. -/
def Consistent (enc : Text → List ν) (cache : Cache ν) : Prop :=
  ∀ t vec, cache t = some vec → vec = enc t

/-- The result that belongs to a text. -/
def Fits (enc : Text → List ν) (t : Text) (r : EmbeddingResult ν) : Prop :=
  r.embedding = enc (clampText t) ∧ r.text = t

/-- What stands in the slots fits the texts; the empty slots are pending. -/
structure Slots (enc : Text → List ν) (texts : List Text)
    (results : List (Option (EmbeddingResult ν))) (pending : Nat → Prop) : Prop where
  length : results.length = texts.length
  fits : ∀ (i : Nat) (r : EmbeddingResult ν), results[i]? = some (some r) →
    ∃ t, texts[i]? = some t ∧ Fits enc t r
  empty : ∀ i : Nat, results[i]? = some none → pending i

theorem consistent_store (h : Consistent enc cache) (t : Text) :
    Consistent enc (cache.store t (enc t)) := by
  intro s vec hs
  unfold Cache.store at hs
  split at hs
  · rename_i heq
    rw [heq]
    exact (Option.some.inj hs).symm
  · exact h s vec hs

theorem Slots.set {r : EmbeddingResult ν} (h : Slots enc texts results pending)
    (ht : texts[i]? = some t) (hr : Fits enc t r) (hpending : ∀ j, pending j → j ≠ i → pending' j) :
    Slots enc texts (results.set i (some r)) pending' := by
  have hi : i < results.length := by
    rw [h.length]
    exact (List.getElem?_eq_some_iff.mp ht).1
  refine ⟨by rw [List.length_set, h.length], fun j s hs => ?_, fun j hj => ?_⟩
  · by_cases hij : i = j
    · subst hij
      rw [List.getElem?_set_self hi] at hs
      obtain rfl := Option.some.inj (Option.some.inj hs)
      exact ⟨t, ht, hr⟩
    · rw [List.getElem?_set_ne hij] at hs
      exact h.fits j s hs
  · by_cases hij : i = j
    · subst hij
      rw [List.getElem?_set_self hi] at hj
      exact absurd (Option.some.inj hj) (by simp)
    · rw [List.getElem?_set_ne hij] at hj
      exact hpending j (h.empty j hj) (Ne.symm hij)

/-- The text that is to be computed for a place. -/
def Needs (texts : List Text) (i : Nat) (safe : Text) : Prop :=
  ∃ t, texts[i]? = some t ∧ safe = clampText t

theorem needs_drop (h : List.Forall₂ (Needs texts) (missIndices.drop k) (t :: ts)) :
    ∃ i, missIndices[k]? = some i ∧ Needs texts i t ∧
      missIndices.drop k = i :: missIndices.drop (k + 1) ∧
      List.Forall₂ (Needs texts) (missIndices.drop (k + 1)) ts := by
  cases hdrop : missIndices.drop k with
  | nil => rw [hdrop] at h; cases h
  | cons i is =>
    have htail : missIndices.drop (k + 1) = is := by
      rw [← List.drop_drop, hdrop]
      rfl
    have hget : missIndices[k]? = some i := by
      rw [← Nat.add_zero k, ← List.getElem?_drop, hdrop]
      rfl
    rw [hdrop] at h
    cases h with
    | cons hi his => exact ⟨i, hget, hi, by rw [htail], htail ▸ his⟩

/-- Filling a slot fits its text and empties it from the list of what is pending. -/
theorem fillSlot_ok (hslots : Slots enc texts st.results (· ∈ missIndices.drop (st.cursor + k)))
    (hcache : Consistent enc st.cache)
    (hneeds : List.Forall₂ (Needs texts) (missIndices.drop (st.cursor + k)) (t :: ts))
    {vectors : List (List ν)} (hvec : vectors[k]? = some (enc t)) :
    ∃ st', fillSlot texts missIndices vectors st (t, k) = .ok st' ∧ st'.cursor = st.cursor ∧
      Slots enc texts st'.results (· ∈ missIndices.drop (st.cursor + (k + 1))) ∧
      Consistent enc st'.cache ∧
      List.Forall₂ (Needs texts) (missIndices.drop (st.cursor + (k + 1))) ts := by
  obtain ⟨i, hget, ⟨u, hu, rfl⟩, hdrop, hrest⟩ := needs_drop hneeds
  refine ⟨{ st with
    cache := st.cache.store (clampText u) (enc (clampText u))
    results := st.results.set i (some ⟨enc (clampText u), u, false⟩) }, ?_, rfl, ?_, ?_, hrest⟩
  · simp [fillSlot, item, hvec, hget, hu, pure, Except.pure]
  · refine hslots.set hu ⟨rfl, rfl⟩ fun j hj hne => ?_
    rw [hdrop] at hj
    exact (List.mem_cons.mp hj).resolve_left hne
  · exact consistent_store hcache _

/-- The texts of a batch get their vectors one after the other. -/
theorem fillSlots_ok (hslots : Slots enc texts st.results (· ∈ missIndices.drop (st.cursor + done.length)))
    (hcache : Consistent enc st.cache)
    (hneeds : List.Forall₂ (Needs texts) (missIndices.drop (st.cursor + done.length)) (ts ++ more)) :
    ∃ st', (ts.zipIdx done.length).foldlM (fillSlot texts missIndices ((done ++ ts).map enc)) st =
        .ok st' ∧ st'.cursor = st.cursor ∧
      Slots enc texts st'.results (· ∈ missIndices.drop (st.cursor + (done ++ ts).length)) ∧
      Consistent enc st'.cache ∧
      List.Forall₂ (Needs texts) (missIndices.drop (st.cursor + (done ++ ts).length)) more := by
  induction ts generalizing done st with
  | nil =>
    rw [List.append_nil]
    exact ⟨st, rfl, rfl, hslots, hcache, hneeds⟩
  | cons t ts ih =>
    have hvec : ((done ++ t :: ts).map enc)[done.length]? = some (enc t) := by simp
    obtain ⟨mid, hmid, hcursor, hslots', hcache', hneeds'⟩ := fillSlot_ok hslots hcache hneeds hvec
    have hlen : (done ++ [t]).length = done.length + 1 := by simp
    have happend : done ++ [t] ++ ts = done ++ t :: ts := by simp
    have hrest := @ih (done ++ [t]) mid (by rwa [hcursor, hlen]) hcache' (by rwa [hcursor, hlen])
    rw [hlen, happend, hcursor] at hrest
    obtain ⟨st', hst', hcursor', hrest⟩ := hrest
    refine ⟨st', ?_, hcursor', hrest⟩
    rw [List.zipIdx_cons, List.foldlM_cons]
    exact Fallible.bind_eq_ok.mpr ⟨mid, hmid, hst'⟩

theorem fillBatch_ok (henc : ∀ batch, c.encode batch = batch.map enc)
    (hslots : Slots enc texts st.results (· ∈ missIndices.drop st.cursor))
    (hcache : Consistent enc st.cache)
    (hneeds : List.Forall₂ (Needs texts) (missIndices.drop st.cursor) (ts ++ more)) :
    ∃ st', fillBatch c texts missIndices st ts = .ok st' ∧ st'.cursor = st.cursor + ts.length ∧
      Slots enc texts st'.results (· ∈ missIndices.drop st'.cursor) ∧
      Consistent enc st'.cache ∧
      List.Forall₂ (Needs texts) (missIndices.drop st'.cursor) more := by
  obtain ⟨mid, hmid, hcursor, hrest⟩ := @fillSlots_ok ν enc texts ts [] more missIndices st
    (by simpa using hslots) hcache (by simpa using hneeds)
  rw [List.nil_append, ← henc] at hmid
  refine ⟨{ mid with cursor := mid.cursor + ts.length }, ?_, by rw [hcursor], ?_⟩
  · exact Fallible.bind_eq_ok.mpr ⟨mid, hmid, rfl⟩
  · simpa [hcursor] using hrest

theorem fillBatches_ok (henc : ∀ batch, c.encode batch = batch.map enc) {batches : List (List Text)}
    (hslots : Slots enc texts st.results (· ∈ missIndices.drop st.cursor))
    (hcache : Consistent enc st.cache)
    (hneeds : List.Forall₂ (Needs texts) (missIndices.drop st.cursor) batches.flatten) :
    ∃ st', batches.foldlM (fillBatch c texts missIndices) st = .ok st' ∧
      Slots enc texts st'.results (fun _ => False) ∧ Consistent enc st'.cache := by
  induction batches generalizing st with
  | nil =>
    have hnil : missIndices.drop st.cursor = [] := List.forall₂_nil_right_iff.mp hneeds
    rw [hnil] at hslots
    exact ⟨st, rfl, ⟨hslots.length, hslots.fits, fun i hi => by simpa using hslots.empty i hi⟩, hcache⟩
  | cons batch batches ih =>
    obtain ⟨mid, hmid, -, hslots', hcache', hneeds'⟩ := fillBatch_ok henc hslots hcache hneeds
    obtain ⟨st', hst', hrest⟩ := ih hslots' hcache' hneeds'
    refine ⟨st', ?_, hrest⟩
    rw [List.foldlM_cons]
    exact Fallible.bind_eq_ok.mpr ⟨mid, hmid, hst'⟩

/-! The cache. -/

/-- What the look-up has found out about the texts in front of a place. -/
structure LookedUp (enc : Text → List ν) (texts : List Text) (k : Nat) (found : Lookup ν) : Prop where
  slots : Slots enc texts found.results fun i => i ∈ found.missIndices ∨ k ≤ i
  needs : List.Forall₂ (Needs texts) found.missIndices found.missTexts

theorem lookUp_ok {found : Lookup ν} (hcache : Consistent enc cache) (h : LookedUp enc texts k found)
    (ht : texts[k]? = some t) : LookedUp enc texts (k + 1) (lookUp cache found ((t, clampText t), k)) := by
  unfold lookUp
  cases hload : cache (clampText t) with
  | none =>
    refine ⟨⟨h.slots.length, h.slots.fits, fun i hi => ?_⟩, ?_⟩
    · rcases h.slots.empty i hi with hmem | hle
      · exact .inl (List.mem_append_left _ hmem)
      · rcases Nat.eq_or_lt_of_le hle with rfl | hlt
        · exact .inl (List.mem_append_right _ (List.mem_singleton_self _))
        · exact .inr hlt
    · exact List.rel_append h.needs (.cons ⟨t, ht, rfl⟩ .nil)
  | some vec =>
    refine ⟨h.slots.set ht ⟨hcache _ _ hload, rfl⟩ fun j hj hne => ?_, h.needs⟩
    exact hj.imp_right fun hle => by omega

theorem lookUps_ok (hcache : Consistent enc cache) (texts : List Text) :
    LookedUp enc texts texts.length (((texts.zip (clampInput texts)).zipIdx).foldl (lookUp cache)
      ⟨List.replicate texts.length none, [], []⟩) := by
  have hall : ∀ (rest done : List Text) (found : Lookup ν), done ++ rest = texts →
      LookedUp enc texts done.length found → LookedUp enc texts texts.length
        (((rest.zip (clampInput rest)).zipIdx done.length).foldl (lookUp cache) found) := by
    intro rest
    induction rest with
    | nil =>
      rintro done found rfl h
      simpa using h
    | cons t rest ih =>
      intro done found htexts h
      have ht : texts[done.length]? = some t := by simp [← htexts]
      have hstep := lookUp_ok hcache h ht
      have hrest := ih (done ++ [t]) _ (by simpa using htexts) (by simpa using hstep)
      simpa [clampInput] using hrest
  refine hall texts [] _ rfl ⟨⟨by simp, fun i r hr => ?_, fun i _ => .inr (Nat.zero_le i)⟩, .nil⟩
  have hnone := (List.getElem?_eq_some_iff.mp hr).2
  simp at hnone

/-! The order. -/

theorem perm_paddingOrder (ts : List Text) : (paddingOrder ts).Perm (List.range ts.length) :=
  List.perm_insertionSort _ _

theorem forall₂_paddingOrder (h : List.Forall₂ (Needs texts) missIndices ts) :
    List.Forall₂ (Needs texts) ((paddingOrder ts).map (missIndices.getD · 0))
      ((paddingOrder ts).map (ts.getD · [])) := by
  have hlt : ∀ p ∈ paddingOrder ts, p < ts.length := fun p hp =>
    List.mem_range.mp ((perm_paddingOrder ts).mem_iff.mp hp)
  generalize paddingOrder ts = order at hlt
  induction order with
  | nil => exact .nil
  | cons p order ih =>
    obtain ⟨hp, horder⟩ := List.forall_mem_cons.mp hlt
    refine .cons ?_ (ih horder)
    have hp' : p < missIndices.length := by rwa [h.length_eq]
    have hneeds := h.get hp' hp
    simpa [hp, hp'] using hneeds

theorem mem_paddingOrder (h : missIndices.length = ts.length) (hi : i ∈ missIndices) :
    i ∈ (paddingOrder ts).map (missIndices.getD · 0) := by
  obtain ⟨p, hp, rfl⟩ := List.mem_iff_getElem.mp hi
  refine List.mem_map.mpr ⟨p, (perm_paddingOrder ts).mem_iff.mpr ?_, ?_⟩
  · rw [List.mem_range]
    omega
  · simp [hp]

/-! The results. -/

theorem all_of_slots (h : Slots enc texts results fun _ => False) : results.all (·.isSome) := by
  refine List.all_eq_true.mpr fun x hx => ?_
  obtain ⟨i, hi, rfl⟩ := List.mem_iff_getElem.mp hx
  by_contra hnone
  exact h.empty i (by rw [List.getElem?_eq_getElem hi]; simpa using hnone)

theorem results_of_slots (h : Slots enc texts results fun _ => False) :
    List.Forall₂ (Fits enc) texts (results.filterMap id) := by
  induction texts generalizing results with
  | nil =>
    rw [List.eq_nil_of_length_eq_zero h.length]
    exact .nil
  | cons t texts ih =>
    obtain ⟨x, rest, rfl⟩ := List.exists_cons_of_length_eq_add_one h.length
    have hrest : Slots enc texts rest fun _ => False :=
      ⟨by simpa using h.length, fun i r hr => h.fits (i + 1) r hr, fun i hi => h.empty (i + 1) hi⟩
    cases x with
    | none => exact (h.empty 0 rfl).elim
    | some r =>
      obtain ⟨u, hu, hfits⟩ := h.fits 0 r rfl
      obtain rfl := Option.some.inj hu
      exact .cons hfits (ih hrest)

/-- Every text gets its own vector, whatever is in the cache, however the misses are batched and in
whatever order they are computed. -/
theorem embedBatch_fits (henc : ∀ batch, c.encode batch = batch.map enc)
    (hcache : Consistent enc cache) (texts : List Text) (sortForPadding : Bool) :
    ∃ results cache', embedBatch c cache texts sortForPadding = .ok (results, cache') ∧
      List.Forall₂ (Fits enc) texts results ∧ Consistent enc cache' := by
  unfold embedBatch
  split
  · rename_i hempty
    obtain rfl := List.isEmpty_iff.mp hempty
    exact ⟨[], cache, rfl, .nil, hcache⟩
  · have hfound := lookUps_ok hcache texts
    generalize ((texts.zip (clampInput texts)).zipIdx).foldl (lookUp cache)
      ⟨List.replicate texts.length none, [], []⟩ = found at hfound ⊢
    obtain ⟨missTexts, hmissTexts⟩ : ∃ ts, (if sortForPadding then
      (paddingOrder found.missTexts).map (found.missTexts.getD · []) else found.missTexts) = ts :=
        ⟨_, rfl⟩
    obtain ⟨missIndices, hmissIndices⟩ : ∃ is, (if sortForPadding then
      (paddingOrder found.missTexts).map (found.missIndices.getD · 0) else found.missIndices) = is :=
        ⟨_, rfl⟩
    have hneeds : List.Forall₂ (Needs texts) missIndices missTexts ∧
        ∀ i ∈ found.missIndices, i ∈ missIndices := by
      rw [← hmissTexts, ← hmissIndices]
      cases sortForPadding with
      | false => exact ⟨hfound.needs, fun _ hi => hi⟩
      | true => exact ⟨forall₂_paddingOrder hfound.needs,
          fun _ hi => mem_paddingOrder hfound.needs.length_eq hi⟩
    have hslots : Slots enc texts found.results (· ∈ missIndices.drop 0) := by
      refine ⟨hfound.slots.length, hfound.slots.fits, fun i hi => ?_⟩
      rcases hfound.slots.empty i hi with hmem | hle
      · exact hneeds.2 i hmem
      · have hlt := (List.getElem?_eq_some_iff.mp hi).1
        rw [hfound.slots.length] at hlt
        omega
    obtain ⟨st, hst, hfilled, hcache'⟩ := @fillBatches_ok ν enc c texts missIndices
      ⟨found.results, cache, 0⟩ henc (makeDynamicBatches missTexts c.maxCharsPerBatch) hslots hcache
      (by rw [flatten_makeDynamicBatches]; exact hneeds.1)
    refine ⟨st.results.filterMap id, st.cache, ?_, results_of_slots hfilled, hcache'⟩
    simp only [hmissTexts, hmissIndices]
    refine Fallible.bind_eq_ok.mpr ⟨st, hst, ?_⟩
    rw [if_pos (all_of_slots hfilled)]
    rfl

end RownRg.Embedding

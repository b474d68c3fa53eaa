import RownRg.Clients.EmbeddingBatches

/-! Embedding by the remote service, and what happens where it fails. -/

open PyText

namespace RownRg.Embedding

/-- `DIMENSION` -/
def dimension : Nat := 1024

/-- A value of a vector of a response; `none` is a number that is not finite. -/
inductive PayloadValue (ν : Type) where
  | number (x : Option ν)
  | other

inductive PayloadEntry (ν : Type) where
  | values (xs : List (PayloadValue ν))
  | other

/-- The body of a response: an object with or without its list of vectors, or something else. -/
inductive Payload (ν : Type) where
  | vectors (entries : List (PayloadEntry ν))
  | noVectors
  | other

/-- What one request comes to; a body that cannot be read is `none`. -/
inductive PostResult (ν : Type) where
  /-- one of `_TRANSPORT_RETRYABLE` -/
  | transport
  | failed
  | response (status : Nat) (payload : Option (Payload ν))

/-- `server` answers the requests in order; `localEmbed` is the batch function of the local client.
Times are in seconds. -/
structure RemoteClient (ν : Type) where
  chunk : Int
  fallback : Text
  cooldown : Int
  localEmbed : List Text → Except EmbedError (List (EmbeddingResult ν))
  server : Nat → List Text → PostResult ν

/-- How many requests were made, and until when the service is left alone. -/
structure RemoteState where
  posted : Nat
  disabledUntil : Int

variable {ν : Type}

def finiteValue : PayloadValue ν → Option ν
  | .number x => x
  | .other => none

def validateVector (x : PayloadEntry ν × Nat) : Except EmbedError (List ν) :=
  match x.1 with
  | .other => .error (.badVector x.2)
  | .values xs =>
    if xs.length ≠ dimension then .error (.badVector x.2)
    else
      match xs.mapM finiteValue with
      | none => .error (.badVector x.2)
      | some vec => .ok vec

/-- `_validate` -/
def validate (payload : Payload ν) (expected : Nat) : Except EmbedError (List (List ν)) :=
  match payload with
  | .other | .noVectors => .error .badPayload
  | .vectors entries =>
    if entries.length ≠ expected then .error (.badCount entries.length expected)
    else entries.zipIdx.mapM validateVector

/-- `raise_for_status`, then the body. -/
def readResponse (r : PostResult ν) (expected : Nat) : Except EmbedError (List (List ν)) :=
  match r with
  | .transport => .error .transport
  | .failed => .error .failed
  | .response status payload =>
    if status < 200 || status ≥ 300 then .error (.status status)
    else
      match payload with
      | none => .error .badPayload
      | some payload => validate payload expected

/-- One request, and another one where the connection broke. -/
def postTwice (c : RemoteClient ν) (n : Nat) (batch : List Text) : PostResult ν × Nat :=
  match c.server n batch with
  | .transport => (c.server (n + 1) batch, n + 2)
  | r => (r, n + 1)

/-- `range(0, n, step)` -/
def rangeStep (n : Nat) (step : Int) : Except EmbedError (List Nat) :=
  if step = 0 then .error .noStep
  else if step < 0 then .ok []
  else .ok ((List.range ((n + step.toNat - 1) / step.toNat)).map (· * step.toNat))

/-- The loop over the batches; the number of requests is kept where one fails, too. -/
def requestFrom (c : RemoteClient ν) (texts : List Text) :
    List Nat → List (List ν) → Nat → Except EmbedError (List (List ν)) × Nat
  | [], out, n => (.ok out, n)
  | start :: starts, out, n =>
    let batch := (texts.drop start).take c.chunk.toNat
    let (r, n) := postTwice c n batch
    match readResponse r batch.length with
    | .error e => (.error e, n)
    | .ok vectors => requestFrom c texts starts (out ++ vectors) n

/-- `_request_vectors` -/
def requestVectors (c : RemoteClient ν) (n : Nat) (texts : List Text) :
    Except EmbedError (List (List ν)) × Nat :=
  match rangeStep texts.length c.chunk with
  | .error e => (.error e, n)
  | .ok starts => requestFrom c texts starts [] n

/-- `_fallback_embed` -/
def fallbackEmbed (c : RemoteClient ν) (texts : List Text) (reason : Text) :
    Except EmbedError (List (EmbeddingResult ν)) :=
  if c.fallback = "error".toList then .error (.noFallback reason) else c.localEmbed texts

/-- `embed_batch` of the remote client; the clock is read at the beginning and after a failure. -/
def remoteEmbedBatch (c : RemoteClient ν) (now failedAt : Int) (st : RemoteState)
    (texts : List Text) : Except EmbedError (List (EmbeddingResult ν)) × RemoteState :=
  if texts.isEmpty then (.ok [], st)
  else
    let clamped := clampInput texts
    if now < st.disabledUntil then (fallbackEmbed c clamped "cooldown".toList, st)
    else
      match requestVectors c st.posted clamped with
      | (.error e, n) =>
        let disabledUntil := if e = .status 429 then st.disabledUntil else failedAt + c.cooldown
        (fallbackEmbed c clamped "error".toList, ⟨n, disabledUntil⟩)
      | (.ok vectors, n) =>
        let results := List.zipWith (fun v t => ⟨v, t, false⟩) vectors clamped
        if vectors.length ≠ clamped.length then (.error .lengths, ⟨n, st.disabledUntil⟩)
        else (.ok results, ⟨n, st.disabledUntil⟩)

variable {enc : Text → List ν} {c : RemoteClient ν} {texts batch : List Text} {n step k : Nat}
  {starts : List Nat} {out vectors : List (List ν)}

/-- The service computes every text of a request on its own: what it answers, where it can be used,
is the vectors of the texts in order. -/
def Pointwise (enc : Text → List ν) (server : Nat → List Text → PostResult ν) : Prop :=
  ∀ n batch vectors, readResponse (server n batch) batch.length = .ok vectors →
    vectors = batch.map enc

/-- The slices of a list, one after the other. -/
theorem flatten_slices (texts : List Text) (step k : Nat) :
    ((List.range k).flatMap fun i => (texts.drop (i * step)).take step) = texts.take (k * step) := by
  induction k with
  | zero => simp
  | succ k ih =>
    rw [List.range_succ, List.flatMap_append, ih, List.flatMap_singleton, Nat.succ_mul, List.take_add]

theorem requestFrom_ok (henc : Pointwise enc c.server)
    (h : (requestFrom c texts starts out n).1 = .ok vectors) :
    vectors = out ++ (starts.flatMap fun start => (texts.drop start).take c.chunk.toNat).map enc := by
  induction starts generalizing out n with
  | nil =>
    obtain rfl := Except.ok.inj h
    simp
  | cons start starts ih =>
    have hpost : ∀ n batch vectors,
        readResponse (postTwice c n batch).1 batch.length = .ok vectors → vectors = batch.map enc := by
      intro n batch vectors hread
      unfold postTwice at hread
      split at hread
      · exact henc _ _ _ hread
      · exact henc _ _ _ hread
    unfold requestFrom at h
    dsimp only at h
    split at h
    · cases h
    · rename_i vs hread
      rw [ih h, hpost n _ vs hread, List.flatMap_cons, List.map_append, List.append_assoc]

/-- A request for all texts that succeeds gives every vector, unless the size of the requests is
negative: then it gives none. -/
theorem requestVectors_ok (henc : Pointwise enc c.server)
    (h : (requestVectors c n texts).1 = .ok vectors) :
    vectors = texts.map enc ∨ vectors = [] := by
  unfold requestVectors rangeStep at h
  split at h
  · cases h
  · rename_i starts hstarts
    split at hstarts
    · cases hstarts
    · split at hstarts
      · obtain rfl := Except.ok.inj hstarts
        exact .inr (Except.ok.inj h).symm
      · obtain rfl := Except.ok.inj hstarts
        refine .inl ?_
        have hpos : 0 < c.chunk.toNat := by omega
        have hall : texts.length ≤
            (texts.length + c.chunk.toNat - 1) / c.chunk.toNat * c.chunk.toNat := by
          have hmod := Nat.div_add_mod (texts.length + c.chunk.toNat - 1) c.chunk.toNat
          have hlt := Nat.mod_lt (texts.length + c.chunk.toNat - 1) hpos
          rw [Nat.mul_comm] at hmod
          omega
        rw [requestFrom_ok henc h, List.flatMap_map, flatten_slices, List.nil_append,
          List.take_of_length_le hall]

theorem map_embedding_zipWith (h : vectors.length = texts.length) :
    (List.zipWith (fun v t => (⟨v, t, false⟩ : EmbeddingResult ν)) vectors texts).map (·.embedding) =
      vectors := by
  induction vectors generalizing texts with
  | nil => rfl
  | cons v vectors ih =>
    obtain ⟨t, texts, rfl⟩ := List.exists_cons_of_length_eq_add_one h.symm
    simpa using ih (by simpa using h)

theorem fallbackEmbed_cases (c : RemoteClient ν) (texts : List Text) (reason : Text) :
    fallbackEmbed c texts reason = c.localEmbed texts ∨
      ∃ e, fallbackEmbed c texts reason = .error e := by
  unfold fallbackEmbed
  split
  · exact .inr ⟨_, rfl⟩
  · exact .inl rfl

/-- The remote client gives every vector in order, or it hands the whole list on, or it raises. -/
theorem remote_cases (henc : Pointwise enc c.server) (now failedAt : Int) (st : RemoteState)
    (texts : List Text) :
    (∃ results, (remoteEmbedBatch c now failedAt st texts).1 = .ok results ∧
        results.map (·.embedding) = texts.map fun t => enc (clampText t)) ∨
      (remoteEmbedBatch c now failedAt st texts).1 = c.localEmbed (clampInput texts) ∨
      ∃ e, (remoteEmbedBatch c now failedAt st texts).1 = .error e := by
  unfold remoteEmbedBatch
  split
  · rename_i hempty
    obtain rfl := List.isEmpty_iff.mp hempty
    exact .inl ⟨[], rfl, rfl⟩
  · dsimp only
    split
    · exact .inr (fallbackEmbed_cases c _ _)
    · split
      · exact .inr (fallbackEmbed_cases c _ _)
      · rename_i vectors n hrequest
        split
        · exact .inr (.inr ⟨_, rfl⟩)
        · rename_i hlen
          have hlen := not_not.mp hlen
          refine .inl ⟨_, rfl, ?_⟩
          rw [map_embedding_zipWith hlen]
          rcases requestVectors_ok henc (by rw [hrequest]) with hvec | hnil
          · rw [hvec, clampInput, List.map_map]
            rfl
          · rw [hnil, List.length_nil, clampInput, List.length_map] at hlen
            rw [hnil, List.eq_nil_of_length_eq_zero hlen.symm]
            rfl

/-- The length of a text, as often as a vector has values. -/
def lengthVector (t : Text) : List Nat := List.replicate dimension t.length

def lengthClient : LocalClient Nat := ⟨4, fun batch => batch.map lengthVector⟩

/-- A service to which the connection breaks once. -/
def lengthService : RemoteClient Nat := ⟨2, "local".toList, 60, fun _ => .error .failed,
  fun n batch =>
    if n = 0 then .transport
    else .response 200 (some (.vectors (batch.map fun t =>
      .values ((lengthVector t).map fun x => .number (some x)))))⟩

theorem pointwise_lengthService : Pointwise lengthVector lengthService.server := by
  have hvalues : ∀ xs : List Nat, (xs.map fun x => PayloadValue.number (some x)).mapM finiteValue =
      some xs := by
    intro xs
    exact Fallible.mapM_eq_some.mpr (by simp [finiteValue])
  have hentries : ∀ (batch : List Text) (k : Nat), ((batch.map fun t =>
      PayloadEntry.values ((lengthVector t).map fun x => .number (some x))).zipIdx k).mapM
        validateVector = .ok (batch.map lengthVector) := by
    intro batch
    induction batch with
    | nil => exact fun k => rfl
    | cons t batch ih =>
      intro k
      have hlen : ((lengthVector t).map fun x => PayloadValue.number (some x)).length = dimension := by
        simp [lengthVector]
      have hfirst : validateVector (.values ((lengthVector t).map fun x => .number (some x)), k) =
          .ok (lengthVector t) := by
        simp only [validateVector, hlen, ne_eq, not_true_eq_false, if_false, hvalues]
      rw [List.map_cons, List.zipIdx_cons, List.mapM_cons, hfirst]
      exact Fallible.bind_eq_ok.mpr ⟨_, rfl, Fallible.bind_eq_ok.mpr ⟨_, ih (k + 1), rfl⟩⟩
  intro n batch vectors h
  by_cases hn : n = 0
  · simp [lengthService, hn, readResponse] at h
  · simp only [lengthService, hn, if_false, readResponse, validate, List.length_map, ne_eq,
      not_true_eq_false, hentries] at h
    have hok : (Except.ok (batch.map lengthVector) : Except EmbedError _) = .ok vectors := by
      simpa using h
    exact (Except.ok.inj hok).symm

end RownRg.Embedding

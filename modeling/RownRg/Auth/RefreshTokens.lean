import Mathlib.Data.List.Nodup
import RownRg.Lib.Runs

/-! Rotation of refresh tokens: every request reads its token first and writes later. -/

open Runs

namespace RownRg.Auth

structure RefreshToken (ι : Type) where
  id : ι
  userId : ι
  familyId : ι
  used : Bool
  revoked : Bool
  deriving DecidableEq

/-- What a refresh JWT says. -/
structure TokenData (ι : Type) where
  jti : ι
  familyId : Option ι
  deriving DecidableEq

/-- A rotation between its lookup and its commit, with the copy of the row that it read. -/
structure Rotation (ι : Type) where
  token : TokenData ι
  row : Option (RefreshToken ι)
  deriving DecidableEq

inductive Verdict where
  | invalidToken
  | tokenReuseDetected
  | rotated
  deriving DecidableEq

/-- The table and the rotations under way; `exchanged` logs the tokens that a rotation took, and
`reused` the families of which a used token was presented and answered. -/
structure Sessions (ι : Type) where
  tokens : List (RefreshToken ι)
  rotations : List (Rotation ι)
  exchanged : List ι
  reused : List ι
  deriving DecidableEq

inductive Event (ι : Type) where
  | issue (userId jti familyId : ι)
  | lookup (token : TokenData ι)
  | commit (n : Nat) (newJti : ι)
  /-- A request that fails behind its rotation, or never comes to its end. -/
  | rollback (n : Nat)
  | revokeAllForUser (userId : ι)
  deriving DecidableEq

variable {ι : Type} [DecidableEq ι]

def RefreshToken.Active (r : RefreshToken ι) : Prop := r.used = false ∧ r.revoked = false

def revokeWhere (p : RefreshToken ι → Bool) (tokens : List (RefreshToken ι)) :
    List (RefreshToken ι) :=
  tokens.map fun r => if p r then { r with revoked := true } else r

def revokeFamily (familyId : ι) : List (RefreshToken ι) → List (RefreshToken ι) :=
  revokeWhere (·.familyId == familyId)

def revokeAllForUser (userId : ι) : List (RefreshToken ι) → List (RefreshToken ι) :=
  revokeWhere (·.userId == userId)

def useToken (id : ι) (tokens : List (RefreshToken ι)) : List (RefreshToken ι) :=
  tokens.map fun r => if r.id = id then { r with used := true } else r

/-- What `rotate` makes of the row it read, and what it writes. -/
def rotate (newJti : ι) (q : Rotation ι) (tokens : List (RefreshToken ι)) :
    Verdict × List (RefreshToken ι) :=
  let reject := (Verdict.invalidToken,
    match q.token.familyId with
    | some familyId => revokeFamily familyId tokens
    | none => tokens)
  match q.row with
  | none => reject
  | some row =>
    if row.revoked then reject
    else if row.used then (.tokenReuseDetected, revokeFamily row.familyId tokens)
    else (.rotated, useToken row.id tokens ++ [⟨newJti, row.userId, row.familyId, false, false⟩])

/-- `uuid4` draws ids that no row has. -/
def step (s : Sessions ι) : Event ι → Option (Sessions ι)
  | .issue userId jti familyId =>
    if s.tokens.any fun r => r.id == jti || r.familyId == familyId then none
    else some { s with tokens := s.tokens ++ [⟨jti, userId, familyId, false, false⟩] }
  | .lookup token =>
    let row := s.tokens.find? fun r => r.id == token.jti
    some { s with rotations := s.rotations ++ [⟨token, row⟩] }
  | .commit n newJti =>
    (s.rotations[n]?).bind fun q =>
      let (verdict, tokens) := rotate newJti q s.tokens
      if verdict = .rotated ∧ s.tokens.any (·.id == newJti) then none
      else some {
        tokens
        rotations := s.rotations.eraseIdx n
        exchanged := if verdict = .rotated then s.exchanged ++ [q.token.jti] else s.exchanged
        reused := s.reused ++ (q.row.filter (·.used)).toList.map (·.familyId) }
  | .rollback n => some { s with rotations := s.rotations.eraseIdx n }
  | .revokeAllForUser userId => some { s with tokens := revokeAllForUser userId s.tokens }

def start : Sessions ι := ⟨[], [], [], []⟩

/-- Every token is exchanged at most once, a family has at most one token in force, and none once
a used token of it was presented. -/
structure SingleUse (s : Sessions ι) : Prop where
  once : s.exchanged.Nodup
  oneActive : ∀ r ∈ s.tokens, ∀ r' ∈ s.tokens, r.familyId = r'.familyId → r.Active → r'.Active →
    r = r'
  revoked : ∀ f ∈ s.reused, ∀ r ∈ s.tokens, r.familyId = f → r.revoked = true

/-- A rotation that finds its token in force commits while the row is still as it read it. -/
def StillCurrent (s : Sessions ι) : Event ι → Sessions ι → Prop
  | .commit n _, _ => ∀ q ∈ s.rotations[n]?, ∀ row ∈ q.row,
      row.used = false → row.revoked = false → row ∈ s.tokens
  | _, _ => True

instance : (s : Sessions ι) → (e : Event ι) → (t : Sessions ι) → Decidable (StillCurrent s e t)
  | s, .commit n _, _ => inferInstanceAs (Decidable (∀ q ∈ s.rotations[n]?, ∀ row ∈ q.row,
      row.used = false → row.revoked = false → row ∈ s.tokens))
  | _, .issue .., _ | _, .lookup _, _ | _, .rollback _, _ | _, .revokeAllForUser _, _ =>
    isTrue trivial

/-! What every good run keeps. -/

structure Sound (s : Sessions ι) : Prop extends SingleUse s where
  ids : (s.tokens.map (·.id)).Nodup
  taken : ∀ i ∈ s.exchanged, ∃ r ∈ s.tokens, r.id = i ∧ r.used = true
  uniform : ∀ r ∈ s.tokens, ∀ r' ∈ s.tokens, r.familyId = r'.familyId →
    r.userId = r'.userId ∧ (r.revoked = true → r'.revoked = true)
  read : ∀ q ∈ s.rotations, ∀ row ∈ q.row, row.id = q.token.jti ∧ ∃ r ∈ s.tokens,
    r.id = row.id ∧ r.familyId = row.familyId ∧ (row.revoked = true → r.revoked = true)
  known : ∀ f ∈ s.reused, ∃ r ∈ s.tokens, r.familyId = f

variable {s t : Sessions ι} {e : Event ι} {es : List (Event ι)} {r r' : RefreshToken ι}
  {tokens : List (RefreshToken ι)} {p : RefreshToken ι → Bool} {f i : ι}

omit [DecidableEq ι] in
theorem mem_revokeWhere : r ∈ revokeWhere p tokens ↔
    ∃ r₀ ∈ tokens, r = if p r₀ then { r₀ with revoked := true } else r₀ := by
  simp only [revokeWhere, List.mem_map, eq_comm (b := r)]

theorem mem_useToken : r ∈ useToken i tokens ↔
    ∃ r₀ ∈ tokens, r = if r₀.id = i then { r₀ with used := true } else r₀ := by
  simp only [useToken, List.mem_map, eq_comm (b := r)]

omit [DecidableEq ι] in
theorem ids_revokeWhere : (revokeWhere p tokens).map (·.id) = tokens.map (·.id) := by
  rw [revokeWhere, List.map_map]
  refine List.map_congr_left fun r _ => ?_
  simp only [Function.comp_apply]
  split <;> rfl

theorem ids_useToken : (useToken i tokens).map (·.id) = tokens.map (·.id) := by
  rw [useToken, List.map_map]
  refine List.map_congr_left fun r _ => ?_
  simp only [Function.comp_apply]
  split <;> rfl

omit [DecidableEq ι] in
/-- Revoking whole families keeps a sound table sound. -/
theorem Sound.revokeWhere (h : Sound s)
    (hp : ∀ r ∈ s.tokens, ∀ r' ∈ s.tokens, r.familyId = r'.familyId → p r = p r') :
    Sound { s with tokens := revokeWhere p s.tokens } := by
  have hkeeps : ∀ r₀ ∈ s.tokens, ∃ r ∈ Auth.revokeWhere p s.tokens, r.id = r₀.id ∧
      r.familyId = r₀.familyId ∧ r.used = r₀.used ∧ (r₀.revoked = true → r.revoked = true) := by
    intro r₀ hr
    refine ⟨_, mem_revokeWhere.2 ⟨r₀, hr, rfl⟩, ?_⟩
    split <;> simp
  refine ⟨⟨h.once, ?_, ?_⟩, ?_, ?_, ?_, ?_, ?_⟩
  · intro r hr r' hr' hfam ha ha'
    obtain ⟨r₀, hr₀, rfl⟩ := mem_revokeWhere.1 hr
    obtain ⟨r₁, hr₁, rfl⟩ := mem_revokeWhere.1 hr'
    by_cases h₀ : p r₀
    · simp [h₀, RefreshToken.Active] at ha
    · by_cases h₁ : p r₁
      · simp [h₁, RefreshToken.Active] at ha'
      · simp only [h₀, h₁] at hfam ha ha' ⊢
        exact h.oneActive r₀ hr₀ r₁ hr₁ hfam ha ha'
  · intro f hf r hr hfam
    obtain ⟨r₀, hr₀, rfl⟩ := mem_revokeWhere.1 hr
    by_cases h₀ : p r₀
    · simp [h₀]
    · simp only [h₀] at hfam ⊢
      exact h.revoked f hf r₀ hr₀ hfam
  · rw [ids_revokeWhere]
    exact h.ids
  · intro i hi
    obtain ⟨r₀, hr₀, hid, hused⟩ := h.taken i hi
    obtain ⟨r, hr, hrid, -, hru, -⟩ := hkeeps r₀ hr₀
    exact ⟨r, hr, hrid.trans hid, hru.trans hused⟩
  · intro r hr r' hr' hfam
    obtain ⟨r₀, hr₀, rfl⟩ := mem_revokeWhere.1 hr
    obtain ⟨r₁, hr₁, rfl⟩ := mem_revokeWhere.1 hr'
    have hfam' : r₀.familyId = r₁.familyId := by
      split at hfam <;> split at hfam <;> exact hfam
    obtain ⟨huser, hrev⟩ := h.uniform r₀ hr₀ r₁ hr₁ hfam'
    rw [hp r₀ hr₀ r₁ hr₁ hfam']
    by_cases h₁ : p r₁
    · simp [h₁, huser]
    · simpa [h₁] using ⟨huser, hrev⟩
  · intro q hq row hrow
    obtain ⟨hjti, r₀, hr₀, hid, hfam, hrev⟩ := h.read q hq row hrow
    obtain ⟨r, hr, hrid, hrfam, -, hrrev⟩ := hkeeps r₀ hr₀
    exact ⟨hjti, r, hr, hrid.trans hid, hrfam.trans hfam, fun hv => hrrev (hrev hv)⟩
  · intro f hf
    obtain ⟨r₀, hr₀, hfam⟩ := h.known f hf
    obtain ⟨r, hr, -, hrfam, -⟩ := hkeeps r₀ hr₀
    exact ⟨r, hr, hrfam.trans hfam⟩

theorem Sound.revokeFamily (h : Sound s) (f : ι) :
    Sound { s with tokens := revokeFamily f s.tokens } :=
  h.revokeWhere fun _ _ _ _ hfam => by rw [hfam]

theorem revoked_revokeFamily (hr : r ∈ revokeFamily f tokens) (hf : r.familyId = f) :
    r.revoked = true := by
  obtain ⟨r₀, -, rfl⟩ := mem_revokeWhere.1 hr
  split at hf
  · simp_all
  · simp_all

omit [DecidableEq ι] in
/-- A rotation leaves the table alone when it goes. -/
theorem Sound.drop (h : Sound s) (n : Nat) : Sound { s with rotations := s.rotations.eraseIdx n } :=
  { h with read := fun q hq => h.read q (List.mem_of_mem_eraseIdx hq) }

omit [DecidableEq ι] in
/-- A family may be marked as reused once all of it is revoked. -/
theorem Sound.mark (h : Sound s) {fs : List ι}
    (hknown : ∀ f ∈ fs, ∃ r ∈ s.tokens, r.familyId = f)
    (hrev : ∀ f ∈ fs, ∀ r ∈ s.tokens, r.familyId = f → r.revoked = true) :
    Sound { s with reused := s.reused ++ fs } := by
  refine { h with revoked := ?_, known := ?_ }
  · intro f hf
    rcases List.mem_append.mp hf with hf | hf
    · exact h.revoked f hf
    · exact hrev f hf
  · intro f hf
    rcases List.mem_append.mp hf with hf | hf
    · exact h.known f hf
    · exact hknown f hf

/-- A token in force is exchanged for a new one of its family. -/
theorem Sound.exchange (h : Sound s) {row : RefreshToken ι} (hrow : row ∈ s.tokens)
    (hactive : row.Active) (hi : ∀ r ∈ s.tokens, r.id ≠ i) :
    Sound { s with
      tokens := useToken row.id s.tokens ++ [⟨i, row.userId, row.familyId, false, false⟩]
      exchanged := s.exchanged ++ [row.id] } := by
  have hfamily : ∀ r ∈ s.tokens, r.familyId = row.familyId → r.revoked = false := by
    intro r hr hfam
    by_contra hrev
    have := (h.uniform r hr row hrow hfam).2 (by simpa using hrev)
    simp [hactive.2] at this
  have hused : ∀ r₀ ∈ s.tokens, ∃ r ∈ useToken row.id s.tokens, r.id = r₀.id ∧
      r.familyId = r₀.familyId ∧ (r₀.used = true ∨ r₀.id = row.id → r.used = true) ∧
      r.revoked = r₀.revoked := by
    intro r₀ hr
    refine ⟨_, mem_useToken.2 ⟨r₀, hr, rfl⟩, ?_⟩
    split <;> simp_all
  -- a row of the table afterwards is the new one, or an old one with its family and owner
  have hold : ∀ r ∈ useToken row.id s.tokens ++ [⟨i, row.userId, row.familyId, false, false⟩],
      (r = ⟨i, row.userId, row.familyId, false, false⟩ ∨ ∃ r₀ ∈ s.tokens, r₀.id = r.id ∧
        r.familyId = r₀.familyId ∧ r.userId = r₀.userId ∧ r.revoked = r₀.revoked ∧
        (r.Active → r = r₀ ∧ r₀.id ≠ row.id)) := by
    intro r hr
    rcases List.mem_append.mp hr with hr | hr
    · obtain ⟨r₀, hr₀, rfl⟩ := mem_useToken.1 hr
      refine .inr ⟨r₀, hr₀, ?_⟩
      by_cases hid : r₀.id = row.id
      · simp [hid, RefreshToken.Active]
      · simp [hid]
    · exact .inl (List.mem_singleton.mp hr)
  refine ⟨⟨?_, ?_, ?_⟩, ?_, ?_, ?_, ?_, ?_⟩
  · refine List.nodup_append.mpr ⟨h.once, by simp, ?_⟩
    intro j hj j' hj'
    obtain rfl := List.mem_singleton.mp hj'
    rintro rfl
    obtain ⟨r, hr, hid, hru⟩ := h.taken _ hj
    obtain rfl := List.inj_on_of_nodup_map h.ids hr hrow hid
    simp [hactive.1] at hru
  · -- the exchanged token was the only one in force
    intro r hr r' hr' hfam ha ha'
    have honly : ∀ r₀ ∈ s.tokens, r₀.familyId = row.familyId → r₀.Active → r₀.id = row.id := by
      intro r₀ hr₀ hfam₀ ha₀
      rw [h.oneActive r₀ hr₀ row hrow hfam₀ ha₀ hactive]
    rcases hold r hr with rfl | ⟨r₀, hr₀, -, -, -, -, hact⟩
    · rcases hold r' hr' with rfl | ⟨r₁, hr₁, -, -, -, -, hact⟩
      · rfl
      · obtain ⟨rfl, hne⟩ := hact ha'
        exact absurd (honly r' hr₁ hfam.symm ha') hne
    · obtain ⟨rfl, hne⟩ := hact ha
      rcases hold r' hr' with rfl | ⟨r₁, hr₁, -, -, -, -, hact⟩
      · exact absurd (honly r hr₀ hfam ha) hne
      · obtain ⟨rfl, -⟩ := hact ha'
        exact h.oneActive r hr₀ r' hr₁ hfam ha ha'
  · intro f hf r hr hfam
    rcases hold r hr with rfl | ⟨r₀, hr₀, -, hfam₀, -, hrev, -⟩
    · have := h.revoked f hf row hrow hfam
      simp [hactive.2] at this
    · rw [hrev]
      exact h.revoked f hf r₀ hr₀ (hfam₀.symm.trans hfam)
  · rw [List.map_append, ids_useToken]
    refine List.nodup_append.mpr ⟨h.ids, by simp, ?_⟩
    intro j hj j' hj'
    obtain ⟨r, hr, rfl⟩ := List.mem_map.mp hj
    obtain rfl : j' = i := by simpa using hj'
    exact hi r hr
  · intro j hj
    have htaken : ∃ r₀ ∈ s.tokens, r₀.id = j ∧ (r₀.used = true ∨ r₀.id = row.id) := by
      rcases List.mem_append.mp hj with hj | hj
      · obtain ⟨r₀, hr₀, hid, hru⟩ := h.taken j hj
        exact ⟨r₀, hr₀, hid, .inl hru⟩
      · exact ⟨row, hrow, (List.mem_singleton.mp hj).symm, .inr rfl⟩
    obtain ⟨r₀, hr₀, hid, hru⟩ := htaken
    obtain ⟨r, hr, hrid, -, hrused, -⟩ := hused r₀ hr₀
    exact ⟨r, List.mem_append_left _ hr, hrid.trans hid, hrused hru⟩
  · intro r hr r' hr' hfam
    rcases hold r hr with rfl | ⟨r₀, hr₀, -, hfam₀, huser₀, hrev₀, -⟩
    · rcases hold r' hr' with rfl | ⟨r₁, hr₁, -, hfam₁, huser₁, -, -⟩
      · simp
      · have := h.uniform row hrow r₁ hr₁ (hfam.trans hfam₁)
        simp [huser₁, this.1]
    · rcases hold r' hr' with rfl | ⟨r₁, hr₁, -, hfam₁, huser₁, hrev₁, -⟩
      · have hfam' : r₀.familyId = row.familyId := hfam₀.symm.trans hfam
        refine ⟨huser₀.trans (h.uniform r₀ hr₀ row hrow hfam').1, ?_⟩
        rw [hrev₀, hfamily r₀ hr₀ hfam']
        simp
      · have := h.uniform r₀ hr₀ r₁ hr₁ (hfam₀.symm.trans (hfam.trans hfam₁))
        rw [huser₀, huser₁, hrev₀, hrev₁]
        exact this
  · intro q hq row' hrow'
    obtain ⟨hjti, r₀, hr₀, hid, hfam, hrev⟩ := h.read q hq row' hrow'
    obtain ⟨r, hr, hrid, hrfam, -, hrrev⟩ := hused r₀ hr₀
    exact ⟨hjti, r, List.mem_append_left _ hr, hrid.trans hid, hrfam.trans hfam,
      fun hv => hrrev.trans (hrev hv)⟩
  · intro f hf
    obtain ⟨r₀, hr₀, hfam⟩ := h.known f hf
    obtain ⟨r, hr, -, hrfam, -⟩ := hused r₀ hr₀
    exact ⟨r, List.mem_append_left _ hr, hrfam.trans hfam⟩

omit [DecidableEq ι] in
theorem sound_start : Sound (start : Sessions ι) := by
  constructor <;> simp [start]
  exact ⟨by simp, by simp, by simp⟩

omit [DecidableEq ι] in
theorem Sound.issue (h : Sound s) {userId : ι}
    (hi : ∀ r ∈ s.tokens, r.id ≠ i ∧ r.familyId ≠ f) :
    Sound { s with tokens := s.tokens ++ [⟨i, userId, f, false, false⟩] } := by
  have hcases : ∀ r ∈ s.tokens ++ [(⟨i, userId, f, false, false⟩ : RefreshToken ι)],
      r ∈ s.tokens ∨ r = ⟨i, userId, f, false, false⟩ := by simp
  refine ⟨⟨h.once, ?_, ?_⟩, ?_, ?_, ?_, ?_, ?_⟩
  · intro r hr r' hr' hfam ha ha'
    rcases hcases r hr with hr | rfl
    · rcases hcases r' hr' with hr' | rfl
      · exact h.oneActive r hr r' hr' hfam ha ha'
      · exact absurd hfam (hi r hr).2
    · rcases hcases r' hr' with hr' | rfl
      · exact absurd hfam.symm (hi r' hr').2
      · rfl
  · intro g hg r hr hfam
    rcases hcases r hr with hr | rfl
    · exact h.revoked g hg r hr hfam
    · obtain ⟨r, hr, hfam'⟩ := h.known g hg
      exact absurd (hfam'.trans hfam.symm) (hi r hr).2
  · rw [List.map_append]
    refine List.nodup_append.mpr ⟨h.ids, by simp, ?_⟩
    intro j hj j' hj'
    obtain ⟨r, hr, rfl⟩ := List.mem_map.mp hj
    obtain rfl : j' = i := by simpa using hj'
    exact (hi r hr).1
  · intro j hj
    obtain ⟨r, hr, hr'⟩ := h.taken j hj
    exact ⟨r, List.mem_append_left _ hr, hr'⟩
  · intro r hr r' hr' hfam
    rcases hcases r hr with hr | rfl
    · rcases hcases r' hr' with hr' | rfl
      · exact h.uniform r hr r' hr' hfam
      · exact absurd hfam (hi r hr).2
    · rcases hcases r' hr' with hr' | rfl
      · exact absurd hfam.symm (hi r' hr').2
      · simp
  · intro q hq row hrow
    obtain ⟨hjti, r, hr, hr'⟩ := h.read q hq row hrow
    exact ⟨hjti, r, List.mem_append_left _ hr, hr'⟩
  · intro g hg
    obtain ⟨r, hr, hfam⟩ := h.known g hg
    exact ⟨r, List.mem_append_left _ hr, hfam⟩

theorem Sound.lookup (h : Sound s) (token : TokenData ι) :
    Sound { s with rotations := s.rotations ++
      [⟨token, s.tokens.find? fun r => r.id == token.jti⟩] } := by
  refine { h with read := fun q hq row hrow => ?_ }
  rcases List.mem_append.mp hq with hq | hq
  · exact h.read q hq row hrow
  · obtain rfl := List.mem_singleton.mp hq
    have hid : row.id = token.jti := by simpa using List.find?_some hrow
    exact ⟨hid, row, List.mem_of_find?_eq_some hrow, rfl, rfl, id⟩

/-- The defensive revocation of an unknown or revoked token. -/
theorem Sound.reject (h : Sound s) (known : Option ι) :
    Sound { s with tokens := match known with
      | some familyId => Auth.revokeFamily familyId s.tokens
      | none => s.tokens } := by
  cases known with
  | none => exact h
  | some familyId => exact h.revokeFamily familyId

/-- A commit, by what the rotation had read. -/
theorem Sound.commit (h : Sound s) {n : Nat} {newJti : ι} (hs : step s (.commit n newJti) = some t)
    (hok : StillCurrent s (.commit n newJti) t) : Sound t := by
  obtain ⟨q, hq, hs⟩ := Option.bind_eq_some_iff.mp hs
  have hmem : q ∈ s.rotations := List.mem_of_getElem? hq
  cases hrow : q.row with
  | none =>
    simp only [rotate, hrow, reduceCtorEq, false_and, if_false, Option.some.injEq] at hs
    subst hs
    simpa using (h.reject q.token.familyId).drop n
  | some row =>
    obtain ⟨hjti, r, hr, hid, hfam, hrev⟩ := h.read q hmem row hrow
    have hfs : ∀ f ∈ (q.row.filter (·.used)).toList.map (·.familyId), f = row.familyId := by
      intro f hf
      obtain ⟨row', hrow', rfl⟩ := List.mem_map.mp hf
      have := (Option.mem_filter_iff.mp (Option.mem_toList.mp hrow')).1
      rw [hrow, Option.mem_some_iff] at this
      rw [this]
    by_cases hrevoked : row.revoked = true
    · -- the row was revoked, and so is its family
      have hmark : Sound { s with
          reused := s.reused ++ (q.row.filter (·.used)).toList.map (·.familyId) } := h.mark ?_ ?_
      · simp only [rotate, hrow, hrevoked, if_true, reduceCtorEq, false_and, if_false,
          Option.some.injEq] at hs hmark
        subst hs
        exact (hmark.reject q.token.familyId).drop n
      · intro f hf
        exact ⟨r, hr, hfam.trans (hfs f hf).symm⟩
      · intro f hf r' hr' hfam'
        have hsame : r.familyId = r'.familyId := hfam.trans ((hfs f hf).symm.trans hfam'.symm)
        exact (h.uniform r hr r' hr' hsame).2 (hrev hrevoked)
    · by_cases hused : row.used = true
      · have hmark : Sound { s with
            tokens := Auth.revokeFamily row.familyId s.tokens
            reused := s.reused ++ (q.row.filter (·.used)).toList.map (·.familyId) } :=
          (h.revokeFamily row.familyId).mark ?_ ?_
        · simp only [rotate, hrow, hrevoked, hused, if_true, reduceCtorEq, false_and, if_false,
            Option.some.injEq, Bool.false_eq_true] at hs hmark
          subst hs
          exact hmark.drop n
        · intro f hf
          obtain ⟨r', hr', hfam'⟩ : ∃ r' ∈ Auth.revokeFamily row.familyId s.tokens,
              r'.familyId = row.familyId := by
            refine ⟨_, mem_revokeWhere.2 ⟨r, hr, rfl⟩, ?_⟩
            split <;> exact hfam
          exact ⟨r', hr', hfam'.trans (hfs f hf).symm⟩
        · intro f hf r' hr' hfam'
          exact revoked_revokeFamily hr' (hfam'.trans (hfs f hf))
      · have hactive : row.Active := ⟨by simpa using hused, by simpa using hrevoked⟩
        have hnow : row ∈ s.tokens := hok q hq row hrow hactive.1 hactive.2
        simp only [rotate, hrow, hrevoked, hused, if_false, true_and, if_true, Bool.false_eq_true,
          Option.ite_none_left_eq_some, Option.some.injEq, ← hjti] at hs
        obtain ⟨hfresh, rfl⟩ := hs
        have hi : ∀ r ∈ s.tokens, r.id ≠ newJti := by simpa using hfresh
        simpa [hused, Option.filter] using (h.exchange hnow hactive hi).drop n

theorem sound_step (h : Sound s) (hs : step s e = some t) (hok : StillCurrent s e t) : Sound t := by
  cases e with
  | issue userId jti familyId =>
    simp only [step, Option.ite_none_left_eq_some, Option.some.injEq] at hs
    obtain ⟨hfresh, rfl⟩ := hs
    exact h.issue (by simpa [not_or] using hfresh)
  | lookup token =>
    cases hs
    exact h.lookup token
  | commit n newJti => exact h.commit hs hok
  | rollback n =>
    cases hs
    exact h.drop n
  | revokeAllForUser userId =>
    cases hs
    refine h.revokeWhere fun r hr r' hr' hfam => ?_
    rw [(h.uniform r hr r' hr' hfam).1]

/-- No token is exchanged twice, and a stolen family stays dead, as long as no rotation commits on
a row that has changed since it was read. -/
theorem singleUse_along (h : Along step StillCurrent (start : Sessions ι) es) :
    Always step SingleUse (start : Sessions ι) es :=
  (always_of_step (fun _ _ _ hs hok h => sound_step h hs hok) sound_start h).mono
    fun _ h => h.toSingleUse

/-- A login, its rotation, and the used token once more. -/
theorem singleUse_replay : Always step SingleUse (start : Sessions Nat)
    [.issue 0 1 7, .lookup ⟨1, some 7⟩, .commit 0 2, .lookup ⟨1, some 7⟩, .commit 0 3] :=
  singleUse_along (by decide)

/-- Two requests read one token before either of them writes. -/
theorem not_singleUse_twice : ¬ ∀ es : List (Event Nat), Always step SingleUse start es := by
  intro h
  have hrun : run step (start : Sessions Nat) [.issue 0 1 7, .lookup ⟨1, some 7⟩, .lookup ⟨1, some 7⟩,
      .commit 0 2, .commit 0 3] = some ⟨[⟨1, 0, 7, true, false⟩, ⟨2, 0, 7, false, false⟩,
        ⟨3, 0, 7, false, false⟩], [], [1, 1], []⟩ := by decide
  have honce := ((h _).last hrun).once
  simp at honce

end RownRg.Auth

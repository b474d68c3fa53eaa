import RownRg.Core.OutlineIds
import RownRg.Lib.Pairing
import RownRg.Lib.Runs
import RownRg.Retrieval.Rehearsal

/-! Rehearsals under changes: runs that retrieve while sources are toggled and chunks change. -/

open PyText

namespace RownRg.Retrieval

/-- What a search sees: the chunks, and which sources are included. -/
structure Corpus (ι : Type) where
  chunks : ChunkTable ι
  included : ι → Bool

/-- A toggle that is flushed and not committed, with the version that its bump has given. -/
structure Toggle (ι : Type) where
  sourceId : ι
  isIncluded : Bool
  bumped : Option Nat

/-- A retrieval that found no rehearsal, under the version that its run has captured. -/
structure OpenRetrieval (ι σ : Type) where
  version : Nat
  plan : SectionPlan
  found : Option (List (RetrievedChunk ι σ))

/-- What is committed, what the runs have captured, and what is under way. -/
structure World (ι σ : Type) where
  corpus : Corpus ι
  indexVersion : Nat
  rehearsals : Rehearsals ι σ
  captured : List Nat
  retrievals : List (OpenRetrieval ι σ)
  toggles : List (Toggle ι)
  unbumped : Nat

inductive CacheEvent (ι : Type) where
  | begin
  | load (run : Nat) (plan : SectionPlan)
  | search (i : Nat)
  | store (i : Nat)
  | flush (sourceId : ι) (isIncluded : Bool)
  | bump (i : Nat)
  | commit (i : Nat)
  | rollback (i : Nat)
  | changeChunks (chunks : ChunkTable ι)
  | bumpChunks

/-- What the runs share with the outside: how JSON is read and hashed, the titles of the sources
and the ranking of the search. -/
structure Backend (ι σ : Type) where
  repr : Json → Text
  digest : Json → Text
  sources : List (SourceRow ι)
  search : (corpus : Corpus ι) → SectionPlan → List (SearchHit corpus.chunks σ)

variable {ι σ : Type} [DecidableEq ι]

/-- The search leaves out the chunks of excluded sources. -/
def Backend.live (b : Backend ι σ) (corpus : Corpus ι) (s : SectionPlan) :
    List (RetrievedChunk ι σ) :=
  retrieveForSection b.repr b.sources
    (fun s => (b.search corpus s).filter fun hit => corpus.included hit.row.sourceId)
    (fun _ => []) s

def Backend.load (b : Backend ι σ) (w : World ι σ) (version : Nat) (s : SectionPlan) :
    Option (List (RetrievedChunk ι σ)) :=
  (loadRehearsal b.repr w.corpus.chunks w.rehearsals s.sectionId version
    (planFingerprint b.digest s)).map (withSourceTitles b.sources)

def setIncluded (corpus : Corpus ι) (sourceId : ι) (isIncluded : Bool) : Corpus ι :=
  { corpus with included := fun i => if i = sourceId then isIncluded else corpus.included i }

/-- A version is captured once in a run; an inclusion changes when its toggle commits, and the
version of a toggle when it bumps, which is before. -/
def World.step (b : Backend ι σ) (w : World ι σ) : CacheEvent ι → Option (World ι σ)
  | .begin => some { w with captured := w.captured ++ [w.indexVersion] }
  | .load run plan => do
    let version ← w.captured[run]?
    match b.load w version plan with
    | some _ => return w
    | none => return { w with retrievals := w.retrievals ++ [⟨version, plan, none⟩] }
  | .search i => do
    let r ← w.retrievals[i]?
    if r.found.isSome then none
    else return { w with
      retrievals := w.retrievals.set i { r with found := some (b.live w.corpus r.plan) } }
  | .store i => do
    let r ← w.retrievals[i]?
    let chunks ← r.found
    return { w with
      rehearsals := storeRehearsal w.rehearsals r.plan.sectionId r.version (citable chunks)
        (planFingerprint b.digest r.plan)
      retrievals := w.retrievals.eraseIdx i }
  | .flush sourceId isIncluded =>
    some { w with toggles := w.toggles ++ [⟨sourceId, isIncluded, none⟩] }
  | .bump i => do
    let t ← w.toggles[i]?
    if t.bumped.isSome then none
    else return { w with
      indexVersion := w.indexVersion + 1
      toggles := w.toggles.set i { t with bumped := some (w.indexVersion + 1) } }
  | .commit i => do
    let t ← w.toggles[i]?
    if t.bumped.isNone then none
    else return { w with
      corpus := setIncluded w.corpus t.sourceId t.isIncluded
      toggles := w.toggles.eraseIdx i }
  | .rollback i => do
    let _ ← w.toggles[i]?
    return { w with toggles := w.toggles.eraseIdx i }
  | .changeChunks chunks =>
    some { w with corpus := { w.corpus with chunks }, unbumped := w.unbumped + 1 }
  | .bumpChunks =>
    if w.unbumped = 0 then none
    else some { w with indexVersion := w.indexVersion + 1, unbumped := w.unbumped - 1 }

/-! What happened before: history that no step reads. -/

/-- When a list was computed: behind how many changes, from what, and as of which version. -/
structure Origin (ι : Type) where
  changes : Nat
  corpus : Corpus ι
  asOf : Nat

/-- A list that the writer got from the cache, where it came from, and the moment of the serving. -/
structure Served (ι σ : Type) where
  chunks : List (RetrievedChunk ι σ)
  origin : Option (Origin ι)
  changes : Nat
  included : ι → Bool

/-- `asOf` is the version that belongs to the committed changes: that of the last of their bumps,
and the next one while a change of the chunks waits for its bump. -/
structure CacheHistory (ι σ : Type) where
  changes : Nat
  asOf : Nat
  found : List (Option (Origin ι))
  origins : Uuid → Option (Origin ι)
  served : List (Served ι σ)

def CacheHistory.now (h : CacheHistory ι σ) (w : World ι σ) : Origin ι :=
  ⟨h.changes, w.corpus, h.asOf⟩

def CacheHistory.record (b : Backend ι σ) (h : CacheHistory ι σ) (w : World ι σ) :
    CacheEvent ι → CacheHistory ι σ
  | .load run plan =>
    match w.captured[run]?.bind fun version => b.load w version plan with
    | some chunks => { h with
        served := ⟨chunks, h.origins plan.sectionId, h.changes, w.corpus.included⟩ :: h.served }
    | none => { h with found := h.found ++ [none] }
  | .search i => { h with found := h.found.set i (some (h.now w)) }
  | .store i =>
    match w.retrievals[i]?, h.found[i]? with
    | some r, some origin => { h with
        origins := fun id => if id = r.plan.sectionId then origin else h.origins id
        found := h.found.eraseIdx i }
    | _, _ => h
  | .commit i =>
    match w.toggles[i]?.bind (·.bumped) with
    | some bumped => { h with changes := h.changes + 1, asOf := max h.asOf bumped }
    | none => h
  | .changeChunks _ => { h with changes := h.changes + 1, asOf := w.indexVersion + 1 }
  | _ => h

/-- A step with its history. -/
def cacheStep (b : Backend ι σ) (st : World ι σ × CacheHistory ι σ) (e : CacheEvent ι) :
    Option (World ι σ × CacheHistory ι σ) :=
  (st.1.step b e).map fun w => (w, st.2.record b st.1 e)

/-- No rehearsals, no runs, nothing under way. -/
def fresh (corpus : Corpus ι) (version : Nat) : World ι σ × CacheHistory ι σ :=
  (⟨corpus, version, [], [], [], [], 0⟩, ⟨0, 0, [], fun _ => none, []⟩)

/-- What the writer gets from the cache is what the sources hold, and the versions tell what the
rows hold. -/
structure Coherent (st : World ι σ × CacheHistory ι σ) : Prop where
  served : ∀ x ∈ st.2.served, x.origin.map (·.changes) = some x.changes ∧
    ∀ c ∈ x.chunks, x.included c.sourceId
  stored : ∀ y ∈ st.1.rehearsals, ∃ o ∈ st.2.origins y.1, o.asOf ≤ y.2.indexVersion
  later : st.1.unbumped = 0 → ∀ y ∈ st.1.rehearsals, y.2.indexVersion = st.1.indexVersion →
    (st.2.origins y.1).map (·.changes) = some st.2.changes

/-- A run takes from the cache and searches only while its version covers all committed changes,
and does not search while a toggle that has bumped up to that version is not committed. -/
def Timely (b : Backend ι σ) (st : World ι σ × CacheHistory ι σ) : CacheEvent ι → Prop
  | .load run plan => ∀ version ∈ st.1.captured[run]?, (b.load st.1 version plan).isSome →
      st.2.asOf ≤ version
  | .search i => ∀ r ∈ st.1.retrievals[i]?, st.2.asOf ≤ r.version ∧
      ∀ t ∈ st.1.toggles, ∀ bumped ∈ t.bumped, r.version < bumped
  | _ => True

/-- A list that was computed from `o` and may be served under `version`: nothing has changed
since, or the version is behind the change and behind every change that is about to commit. -/
structure Covered (st : World ι σ × CacheHistory ι σ) (version : Nat) (o : Origin ι) : Prop where
  current : o.changes = st.2.changes ∧ o.corpus = st.1.corpus ∨ version < st.2.asOf
  pending : ∀ t ∈ st.1.toggles, ∀ bumped ∈ t.bumped, version < bumped
  bounded : version ≤ st.1.indexVersion
  asOf_le : o.asOf ≤ version

/-- The chunks of a row are those that a retrieval from `o` has found. -/
def Holds (b : Backend ι σ) (o : Origin ι) (row : SectionRehearsal ι σ) : Prop :=
  ∃ plan, row.chunks = (citable (b.live o.corpus plan)).map fun c => (c.chunkId, c.score)

/-- What a retrieval has found so far, and where it comes from. -/
def Found (b : Backend ι σ) (st : World ι σ × CacheHistory ι σ) (r : OpenRetrieval ι σ)
    (origin : Option (Origin ι)) : Prop :=
  r.version ≤ st.1.indexVersion ∧ r.found = origin.map (fun o => b.live o.corpus r.plan) ∧
    ∀ o ∈ origin, Covered st r.version o

structure CacheInv (b : Backend ι σ) (st : World ι σ × CacheHistory ι σ) : Prop where
  captured : ∀ version ∈ st.1.captured, version ≤ st.1.indexVersion
  bumps : ∀ t ∈ st.1.toggles, ∀ bumped ∈ t.bumped, bumped ≤ st.1.indexVersion
  asOf : st.2.asOf ≤ st.1.indexVersion + 1
  settled : st.1.unbumped = 0 → st.2.asOf ≤ st.1.indexVersion
  found : List.Forall₂ (Found b st) st.1.retrievals st.2.found
  rows : ∀ y ∈ st.1.rehearsals, ∃ o ∈ st.2.origins y.1,
    Covered st y.2.indexVersion o ∧ Holds b o y.2
  served : ∀ x ∈ st.2.served, x.origin.map (·.changes) = some x.changes ∧
    ∀ c ∈ x.chunks, x.included c.sourceId

variable {b : Backend ι σ} {st st' : World ι σ × CacheHistory ι σ} {e : CacheEvent ι}

theorem CacheInv.coherent (h : CacheInv b st) : Coherent st := by
  refine ⟨h.served, fun y hy => ?_, fun hu y hy hv => ?_⟩
  · obtain ⟨o, ho, hc, -⟩ := h.rows y hy
    exact ⟨o, ho, hc.asOf_le⟩
  · obtain ⟨o, ho, hc, -⟩ := h.rows y hy
    have hs := h.settled hu
    rcases hc.current with ⟨hcur, -⟩ | hlt
    · rw [Option.mem_def.mp ho, Option.map_some, hcur]
    · omega

theorem cacheInv_fresh (corpus : Corpus ι) (version : Nat) :
    CacheInv b (fresh (σ := σ) corpus version) := by
  constructor <;> simp [fresh]

theorem cacheStep_eq (hst : cacheStep b st e = some st') :
    st.1.step b e = some st'.1 ∧ st'.2 = st.2.record b st.1 e := by
  obtain ⟨w, hw, rfl⟩ := Option.map_eq_some_iff.mp hst
  exact ⟨hw, rfl⟩

omit [DecidableEq ι] in
/-- Where nothing changes, what is covered stays covered. -/
theorem Covered.frame {version : Nat} {o : Origin ι} (h : Covered st version o)
    (hchanges : st'.2.changes = st.2.changes) (hasOf : st'.2.asOf = st.2.asOf)
    (hcorpus : st'.1.corpus = st.1.corpus) (hi : st.1.indexVersion ≤ st'.1.indexVersion)
    (hpending : ∀ t ∈ st'.1.toggles, ∀ bumped ∈ t.bumped, version < bumped) :
    Covered st' version o := by
  refine ⟨?_, hpending, h.bounded.trans hi, h.asOf_le⟩
  rw [hchanges, hasOf, hcorpus]
  exact h.current

omit [DecidableEq ι] in
/-- A change whose version is ahead leaves what was computed before it behind. -/
theorem Covered.behind {version : Nat} {o : Origin ι} (h : Covered st version o)
    (hasOf : version < st'.2.asOf) (hi : st.1.indexVersion ≤ st'.1.indexVersion)
    (hpending : ∀ t ∈ st'.1.toggles, t ∈ st.1.toggles) : Covered st' version o :=
  ⟨.inr hasOf, fun t ht => h.pending t (hpending t ht), h.bounded.trans hi, h.asOf_le⟩

theorem Found.mono {r : OpenRetrieval ι σ} {origin : Option (Origin ι)} (h : Found b st r origin)
    (hcov : ∀ version o, Covered st version o → Covered st' version o)
    (hi : st.1.indexVersion ≤ st'.1.indexVersion) : Found b st' r origin :=
  ⟨h.1.trans hi, h.2.1, fun o ho => hcov r.version o (h.2.2 o ho)⟩

/-- A step that moves no list keeps the lists. -/
theorem CacheInv.carry (h : CacheInv b st)
    (hcov : ∀ version o, Covered st version o → Covered st' version o)
    (hi : st.1.indexVersion ≤ st'.1.indexVersion)
    (hrehearsals : st'.1.rehearsals = st.1.rehearsals)
    (hretrievals : st'.1.retrievals = st.1.retrievals) (hfound : st'.2.found = st.2.found)
    (horigins : st'.2.origins = st.2.origins) (hserved : st'.2.served = st.2.served)
    (hcaptured : ∀ version ∈ st'.1.captured, version ≤ st'.1.indexVersion)
    (hbumps : ∀ t ∈ st'.1.toggles, ∀ bumped ∈ t.bumped, bumped ≤ st'.1.indexVersion)
    (hasOf : st'.2.asOf ≤ st'.1.indexVersion + 1)
    (hsettled : st'.1.unbumped = 0 → st'.2.asOf ≤ st'.1.indexVersion) : CacheInv b st' := by
  refine ⟨hcaptured, hbumps, hasOf, hsettled, ?_, fun y hy => ?_, ?_⟩
  · rw [hretrievals, hfound]
    exact h.found.imp fun r origin hr => hr.mono hcov hi
  · rw [hrehearsals] at hy
    obtain ⟨o, ho, hc, hh⟩ := h.rows y hy
    rw [horigins]
    exact ⟨o, ho, hcov _ _ hc, hh⟩
  · rw [hserved]
    exact h.served

/-- A list from the cache is that of a row with the run's version, chunk by chunk. -/
theorem load_cases {w : World ι σ} {version : Nat} {plan : SectionPlan}
    {chunks : List (RetrievedChunk ι σ)} (hl : b.load w version plan = some chunks) :
    ∃ y ∈ w.rehearsals, y.1 = plan.sectionId ∧ y.2.indexVersion = version ∧
      ∀ c ∈ chunks, ∃ row ∈ w.corpus.chunks.rows,
        row.id ∈ y.2.chunks.map Prod.fst ∧ row.sourceId = c.sourceId := by
  obtain ⟨restored, hr, rfl⟩ := Option.map_eq_some_iff.mp hl
  obtain ⟨y, hy, hr⟩ := Option.bind_eq_some_iff.mp hr
  have hid : y.1 = plan.sectionId := by simpa using List.find?_some hy
  refine ⟨y, List.mem_of_find?_eq_some hy, hid, ?_⟩
  simp only [ne_eq, ite_not] at hr
  split at hr
  · rename_i hversion
    refine ⟨hversion, fun c hc => ?_⟩
    obtain ⟨plain, hplain, rfl⟩ := List.mem_map.mp hc
    split at hr
    · cases hr
    · split at hr
      · cases hr
        obtain ⟨entry, -, hplain⟩ := List.mem_filterMap.mp hplain
        obtain ⟨row, hrow, rfl⟩ := Option.map_eq_some_iff.mp hplain
        have hmem := List.mem_of_find?_eq_some hrow
        simp only [List.mem_filter, List.contains_eq_mem, decide_eq_true_eq] at hmem
        refine ⟨row, hmem.1, hmem.2, ?_⟩
        split <;> rfl
      · cases hr
  · cases hr

/-- A row that holds what is found now holds chunks of included sources. -/
theorem included_of_holds {o : Origin ι} {row : SectionRehearsal ι σ} (h : Holds b o row)
    {c : ChunkRow ι} (hc : c ∈ o.corpus.chunks.rows) (hid : c.id ∈ row.chunks.map Prod.fst) :
    o.corpus.included c.sourceId := by
  obtain ⟨plan, hplan⟩ := h
  rw [hplan, Backend.live, kept_retrieveForSection, List.map_map] at hid
  obtain ⟨hit, hhit, he⟩ := List.mem_map.mp hid
  have hrow : hit.row = c :=
    List.inj_on_of_nodup_map o.corpus.chunks.distinct hit.stored hc he
  rw [← hrow]
  exact (List.mem_filter.mp hhit).2

/-- A hit serves what is current; a miss opens a retrieval. -/
theorem cacheInv_load {run : Nat} {plan : SectionPlan} (h : CacheInv b st)
    (hst : cacheStep b st (.load run plan) = some st') (ht : Timely b st (.load run plan)) :
    CacheInv b st' := by
  obtain ⟨w, hist⟩ := st
  obtain ⟨w', hist'⟩ := st'
  obtain ⟨hw, hh⟩ := cacheStep_eq hst
  obtain ⟨version, hv, hw⟩ := Option.bind_eq_some_iff.mp hw
  simp only [CacheHistory.record, hv, Option.bind_some] at hh
  cases hl : b.load w version plan with
  | some chunks =>
    simp only [hl] at hw hh
    cases hw
    subst hh
    refine ⟨h.captured, h.bumps, h.asOf, h.settled, ?_, fun y hy => ?_, fun x hx => ?_⟩
    · exact h.found.imp fun r origin hr =>
        hr.mono (fun version o hc => hc.frame rfl rfl rfl le_rfl hc.pending) le_rfl
    · obtain ⟨o, ho, hc, hh⟩ := h.rows y hy
      exact ⟨o, ho, hc.frame rfl rfl rfl le_rfl hc.pending, hh⟩
    · rcases List.mem_cons.mp hx with rfl | hx
      · obtain ⟨y, hy, hid, hversion, hchunks⟩ := load_cases hl
        obtain ⟨o, ho, hc, hh⟩ := h.rows y hy
        have horigin : hist.origins y.1 = some o := ho
        have hasOf : hist.asOf ≤ version := ht version hv (by simp only [hl, Option.isSome_some])
        rcases hc.current with ⟨hchanges, hcorpus⟩ | hlt
        · refine ⟨?_, fun c hc => ?_⟩
          · simp only [← hid, horigin, Option.map_some, hchanges]
          · obtain ⟨row, hrow, hmem, hsource⟩ := hchunks c hc
            simp only at hcorpus
            rw [← hcorpus] at hrow
            have hincluded := included_of_holds hh hrow hmem
            rwa [hcorpus, hsource] at hincluded
        · simp only [hversion] at hlt
          omega
      · exact h.served x hx
  | none =>
    simp only [hl] at hw hh
    cases hw
    subst hh
    refine ⟨h.captured, h.bumps, h.asOf, h.settled, ?_, fun y hy => ?_, h.served⟩
    · refine List.rel_append (h.found.imp fun r origin hr =>
        hr.mono (fun version o hc => hc.frame rfl rfl rfl le_rfl hc.pending) le_rfl) ?_
      refine List.Forall₂.cons ⟨h.captured version (List.mem_of_getElem? hv), rfl, ?_⟩ .nil
      intro o ho
      cases ho
    · obtain ⟨o, ho, hc, hh⟩ := h.rows y hy
      exact ⟨o, ho, hc.frame rfl rfl rfl le_rfl hc.pending, hh⟩

/-- What is found is found from what is committed. -/
theorem cacheInv_search {i : Nat} (h : CacheInv b st) (hst : cacheStep b st (.search i) = some st')
    (ht : Timely b st (.search i)) : CacheInv b st' := by
  obtain ⟨w, hist⟩ := st
  obtain ⟨w', hist'⟩ := st'
  obtain ⟨hw, hh⟩ := cacheStep_eq hst
  obtain ⟨r, hr, hw⟩ := Option.bind_eq_some_iff.mp hw
  split at hw
  · cases hw
  · cases hw
    simp only at hh
    subst hh
    obtain ⟨hasOf, hpending⟩ := ht r hr
    obtain ⟨origin, -, hbounded, -⟩ := Pairing.related_getElem? h.found hr
    refine ⟨h.captured, h.bumps, h.asOf, h.settled, ?_, fun y hy => ?_, h.served⟩
    · refine Pairing.related_set (h.found.imp fun r origin hr => hr.mono
        (fun version o hc => hc.frame rfl rfl rfl le_rfl hc.pending) le_rfl) ?_
      refine ⟨hbounded, rfl, fun o ho => ?_⟩
      cases ho
      exact ⟨.inl ⟨rfl, rfl⟩, hpending, hbounded, hasOf⟩
    · obtain ⟨o, ho, hc, hh⟩ := h.rows y hy
      exact ⟨o, ho, hc.frame rfl rfl rfl le_rfl hc.pending, hh⟩

/-- A row takes what its retrieval has found. -/
theorem cacheInv_store {i : Nat} (h : CacheInv b st)
    (hst : cacheStep b st (.store i) = some st') : CacheInv b st' := by
  obtain ⟨w, hist⟩ := st
  obtain ⟨w', hist'⟩ := st'
  obtain ⟨hw, hh⟩ := cacheStep_eq hst
  obtain ⟨r, hr, hw⟩ := Option.bind_eq_some_iff.mp hw
  obtain ⟨chunks, hchunks, hw⟩ := Option.bind_eq_some_iff.mp hw
  obtain ⟨origin, horigin, hfound⟩ := Pairing.related_getElem? h.found hr
  simp only at hr horigin
  simp only [CacheHistory.record, hr, horigin] at hh
  cases hw
  subst hh
  have hkeep : ∀ version o, Covered (w, hist) version o → Covered (
      { w with
        rehearsals := storeRehearsal w.rehearsals r.plan.sectionId r.version (citable chunks)
          (planFingerprint b.digest r.plan)
        retrievals := w.retrievals.eraseIdx i },
      { hist with
        origins := fun id => if id = r.plan.sectionId then origin else hist.origins id
        found := hist.found.eraseIdx i }) version o :=
    fun version o hc => hc.frame rfl rfl rfl le_rfl hc.pending
  refine ⟨h.captured, h.bumps, h.asOf, h.settled, ?_, fun y hy => ?_, h.served⟩
  · exact Pairing.related_eraseIdx (h.found.imp fun r origin hr => hr.mono hkeep le_rfl)
  · rcases List.mem_cons.mp hy with rfl | hy
    · rw [hfound.2.1] at hchunks
      obtain ⟨o, rfl, rfl⟩ := Option.map_eq_some_iff.mp hchunks
      refine ⟨o, by simp, hkeep _ _ (hfound.2.2 o rfl), r.plan, ?_⟩
      simp only [citable, List.filter_filter, Bool.and_self]
    · obtain ⟨hy, hne⟩ := List.mem_filter.mp hy
      obtain ⟨o, ho, hc, hh⟩ := h.rows y hy
      have hother : y.1 ≠ r.plan.sectionId := by simpa using hne
      refine ⟨o, ?_, hkeep _ _ hc, hh⟩
      simp only [if_neg hother]
      exact ho

/-- A bump goes ahead of all versions there are. -/
theorem cacheInv_bump {i : Nat} (h : CacheInv b st) (hst : cacheStep b st (.bump i) = some st') :
    CacheInv b st' := by
  obtain ⟨w, hist⟩ := st
  obtain ⟨w', hist'⟩ := st'
  obtain ⟨hw, hh⟩ := cacheStep_eq hst
  obtain ⟨t, -, hw⟩ := Option.bind_eq_some_iff.mp hw
  split at hw
  · cases hw
  · cases hw
    simp only at hh
    subst hh
    have hasOf := h.asOf
    have hold : ∀ t' ∈ w.toggles.set i { t with bumped := some (w.indexVersion + 1) },
        ∀ bumped ∈ t'.bumped, t' ∈ w.toggles ∨ bumped = w.indexVersion + 1 := by
      intro t' ht' bumped hb
      rcases List.mem_or_eq_of_mem_set ht' with ht' | rfl
      · exact .inl ht'
      · cases hb
        exact .inr rfl
    refine h.carry (fun version o hc => hc.frame rfl rfl rfl (Nat.le_succ _) ?_) (Nat.le_succ _)
      rfl rfl rfl rfl rfl (fun version hv => (h.captured version hv).trans (Nat.le_succ _)) ?_
      (hasOf.trans (Nat.le_succ _)) fun _ => hasOf
    · intro t' ht' bumped hb
      rcases hold t' ht' bumped hb with ht' | rfl
      · exact hc.pending t' ht' bumped hb
      · exact Nat.lt_succ_of_le hc.bounded
    · intro t' ht' bumped hb
      rcases hold t' ht' bumped hb with ht' | rfl
      · exact (h.bumps t' ht' bumped hb).trans (Nat.le_succ _)
      · exact le_rfl

/-- A toggle commits ahead of all that was computed before. -/
theorem cacheInv_commit {i : Nat} (h : CacheInv b st)
    (hst : cacheStep b st (.commit i) = some st') : CacheInv b st' := by
  obtain ⟨w, hist⟩ := st
  obtain ⟨w', hist'⟩ := st'
  obtain ⟨hw, hh⟩ := cacheStep_eq hst
  obtain ⟨t, ht, hw⟩ := Option.bind_eq_some_iff.mp hw
  cases hb : t.bumped with
  | none =>
    rw [hb] at hw
    cases hw
  | some bumped =>
    simp only at ht
    simp only [CacheHistory.record, ht, Option.bind_some, hb] at hh
    rw [hb] at hw
    cases hw
    subst hh
    have hmem := List.mem_of_getElem? ht
    have hle := h.bumps t hmem bumped hb
    have hmax : max hist.asOf bumped ≤ w.indexVersion + 1 := by
      have hasOf := h.asOf
      simp only at hasOf hle
      omega
    refine h.carry (fun version o hc => hc.behind ?_ le_rfl
        fun t ht => List.mem_of_mem_eraseIdx ht) le_rfl rfl rfl rfl rfl rfl h.captured
      (fun t ht => h.bumps t (List.mem_of_mem_eraseIdx ht)) hmax
      fun hu => max_le (h.settled hu) hle
    exact lt_of_lt_of_le (hc.pending t hmem bumped hb) (le_max_right _ _)

theorem cacheInv_step (h : CacheInv b st) (hst : cacheStep b st e = some st')
    (ht : Timely b st e) : CacheInv b st' := by
  obtain ⟨w, hist⟩ := st
  obtain ⟨w', hist'⟩ := st'
  obtain ⟨hw, hh⟩ := cacheStep_eq hst
  simp only at hw hh
  subst hh
  cases e with
  | begin =>
    cases hw
    refine h.carry (fun version o hc => hc.frame rfl rfl rfl le_rfl hc.pending) le_rfl rfl rfl rfl
      rfl rfl ?_ h.bumps h.asOf h.settled
    intro version hv
    rcases List.mem_append.mp hv with hv | hv
    · exact h.captured version hv
    · rw [List.mem_singleton.mp hv]
  | load run plan => exact cacheInv_load h hst ht
  | search i => exact cacheInv_search h hst ht
  | store i => exact cacheInv_store h hst
  | flush sourceId isIncluded =>
    cases hw
    have hnew : ∀ t ∈ w.toggles ++ [⟨sourceId, isIncluded, none⟩], ∀ bumped ∈ t.bumped,
        t ∈ w.toggles := by
      intro t ht bumped hb
      rcases List.mem_append.mp ht with ht | ht
      · exact ht
      · rw [List.mem_singleton.mp ht] at hb
        cases hb
    exact h.carry (fun version o hc => hc.frame rfl rfl rfl le_rfl
        fun t ht bumped hb => hc.pending t (hnew t ht bumped hb) bumped hb) le_rfl rfl rfl rfl
      rfl rfl h.captured (fun t ht bumped hb => h.bumps t (hnew t ht bumped hb) bumped hb)
      h.asOf h.settled
  | bump i => exact cacheInv_bump h hst
  | commit i => exact cacheInv_commit h hst
  | rollback i =>
    obtain ⟨t, -, hw⟩ := Option.bind_eq_some_iff.mp hw
    cases hw
    exact h.carry (fun version o hc => hc.frame rfl rfl rfl le_rfl
        fun t ht => hc.pending t (List.mem_of_mem_eraseIdx ht)) le_rfl rfl rfl rfl rfl rfl
      h.captured (fun t ht => h.bumps t (List.mem_of_mem_eraseIdx ht)) h.asOf h.settled
  | changeChunks chunks =>
    cases hw
    refine h.carry (fun version o hc => hc.behind (Nat.lt_succ_of_le hc.bounded) le_rfl
      fun t ht => ht) le_rfl rfl rfl rfl rfl rfl h.captured h.bumps le_rfl ?_
    intro hu
    cases hu
  | bumpChunks =>
    simp only [World.step] at hw
    split at hw
    · cases hw
    · cases hw
      have hasOf := h.asOf
      exact h.carry (fun version o hc => hc.frame rfl rfl rfl (Nat.le_succ _) hc.pending)
        (Nat.le_succ _) rfl rfl rfl rfl rfl
        (fun version hv => (h.captured version hv).trans (Nat.le_succ _))
        (fun t ht bumped hb => (h.bumps t ht bumped hb).trans (Nat.le_succ _))
        (hasOf.trans (Nat.le_succ _)) fun _ => hasOf

/-- Along a timely run the cache is coherent. -/
theorem coherent_along (b : Backend ι σ) (corpus : Corpus ι) (version : Nat)
    (es : List (CacheEvent ι))
    (h : Runs.Along (cacheStep b) (fun st e _ => Timely b st e) (fresh corpus version) es) :
    Runs.Always (cacheStep b) Coherent (fresh corpus version) es :=
  (Runs.always_of_step (fun _ _ _ hst ht hi => cacheInv_step hi hst ht)
    (cacheInv_fresh corpus version) h).mono fun _ hi => hi.coherent

instance : (e : CacheEvent ι) → Decidable (Timely b st e)
  | .load .. => inferInstanceAs (Decidable (∀ version ∈ st.1.captured[_]?, _ → _))
  | .search _ => inferInstanceAs (Decidable (∀ r ∈ st.1.retrievals[_]?, _ ∧ ∀ t ∈ st.1.toggles,
      ∀ bumped ∈ t.bumped, _))
  | .begin | .store _ | .flush .. | .bump _ | .commit _ | .rollback _ | .changeChunks _
  | .bumpChunks => isTrue trivial

/-- Two sources with a chunk each. -/
def twoSources : Corpus Nat :=
  ⟨⟨[⟨1, 7, "수출이 늘었다.".toList, .obj []⟩, ⟨2, 8, "수입이 줄었다.".toList, .obj []⟩], by decide⟩,
    fun _ => true⟩

/-- A search that finds every chunk. -/
def findsAll : Backend Nat Unit where
  repr := fun _ => []
  digest := fun _ => "4f1c".toList
  sources := [⟨7, some "수출 동향".toList, none⟩, ⟨8, some "수입 동향".toList, none⟩]
  search := fun corpus _ => corpus.chunks.rows.attach.map fun row => ⟨row.1, row.2, ()⟩

def overview : SectionPlan :=
  ⟨Outlines.drawn 1, 1, 1, "1장".toList, "개요".toList, [], [], [], [], [], none, none⟩

/-- A source is excluded between two runs, and each run is served what it has found itself. -/
theorem coherent_twoRuns :
    (Runs.run (cacheStep findsAll) (fresh twoSources 0)
      [.begin, .load 0 overview, .search 0, .store 0, .load 0 overview, .flush 7 false, .bump 0,
        .commit 0, .begin, .load 1 overview, .search 0, .store 0, .load 1 overview]).isSome ∧
    Runs.Always (cacheStep findsAll) Coherent (fresh twoSources 0)
      [.begin, .load 0 overview, .search 0, .store 0, .load 0 overview, .flush 7 false, .bump 0,
        .commit 0, .begin, .load 1 overview, .search 0, .store 0, .load 1 overview] :=
  ⟨by decide, coherent_along findsAll twoSources 0 _ (by decide)⟩

/-- A run that has captured its version before an exclusion is served the excluded source. -/
theorem not_coherent_excluded : ¬ ∀ (b : Backend Nat Unit) (corpus : Corpus Nat) (version : Nat)
    (es : List (CacheEvent Nat)),
    Runs.Always (cacheStep b) Coherent (fresh corpus version) es := by
  intro h
  have hrun := h findsAll twoSources 0 [.begin, .load 0 overview, .search 0, .store 0,
    .flush 7 false, .bump 0, .commit 0, .load 0 overview]
  have hends : ((Runs.run (cacheStep findsAll) (fresh twoSources 0) [.begin, .load 0 overview,
      .search 0, .store 0, .flush 7 false, .bump 0, .commit 0, .load 0 overview]).map
        fun st => st.2.served.map fun x => x.chunks.map fun c => x.included c.sourceId) =
      some [[false, true]] := by decide
  obtain ⟨st, hst, hserved⟩ := Option.map_eq_some_iff.mp hends
  have hcoherent : Coherent st := Runs.Always.last hrun hst
  have hall : ∀ flags ∈ st.2.served.map fun x => x.chunks.map fun c => x.included c.sourceId,
      ∀ flag ∈ flags, flag = true := by
    intro flags hflags flag hflag
    obtain ⟨x, hx, rfl⟩ := List.mem_map.mp hflags
    obtain ⟨c, hc, rfl⟩ := List.mem_map.mp hflag
    exact (hcoherent.served x hx).2 c hc
  rw [hserved] at hall
  exact absurd (hall _ (.head _) false (.head _)) (by decide)

end RownRg.Retrieval

import Mathlib.Data.List.Find
import RownRg.Indexing.Exclusion

/-! What stands of an exclusion, and of a source that was taken, over the runs of a project. -/

open PyText RownRg.WebCollect Runs

namespace RownRg.Exclusion

variable {chunkMarkdown : Text → Nat} {w w' : World} {e : SourceEvent} {row : SourceRow}
  {id n : Nat} {ids : List Nat} {es : List SourceEvent}

theorem tablesStep_deleted {c : Corpus} (h : tablesStep w.corpus (.deleted id) = some c) :
    ∃ row, w.row id = some row ∧ row.fileBacked ∧
      c.chunks = Function.update w.corpus.chunks id 0 := by
  simp only [tablesStep, deleteProjectSource] at h
  split at h
  · rename_i row hrow
    split at h
    · rename_i hfile
      cases h
      exact ⟨row, hrow, hfile, rfl⟩
    · cases h
  · cases h

/-- A web source is never deleted. -/
theorem ne_deleted (h : step chunkMarkdown w e = some w') (hweb : w.Web id) : e ≠ .deleted id := by
  rintro rfl
  obtain ⟨row, hrow, hnot⟩ := hweb
  obtain ⟨c, htables, -⟩ := Option.map_eq_some_iff.mp h
  obtain ⟨r, hr, hfile, -⟩ := tablesStep_deleted htables
  rw [hrow] at hr
  cases hr
  rw [hnot] at hfile
  cases hfile

theorem web_step (h : step chunkMarkdown w e = some w') (hweb : w.Web id) : w'.Web id := by
  have hdel := ne_deleted h hweb
  obtain ⟨row, hrow, hnot⟩ := hweb
  exact ⟨_, row_step h hrow hdel, by rw [rowAfter_fileBacked, hnot]⟩

theorem keyOf_of_web (hs : w.corpus.Sound) (hweb : w.Web id) : w.corpus.keyOf id = none := by
  obtain ⟨row, hrow, hnot⟩ := hweb
  obtain ⟨hmem, rfl⟩ := mem_of_row hrow
  exact hs.web row hmem hnot

theorem lt_of_row (hs : w.corpus.Sound) (hrow : w.row id = some row) : id < w.corpus.pool.next := by
  obtain ⟨hmem, rfl⟩ := mem_of_row hrow
  exact hs.fresh row hmem

/-- The chunks of a web source are not deleted. -/
theorem tables_chunks {c : Corpus} (h : tablesStep w.corpus e = some c) (hs : w.corpus.Sound)
    (hweb : w.Web id) : w.corpus.chunks id ≤ c.chunks id := by
  have hkey := keyOf_of_web hs hweb
  have hlt : id ≠ w.corpus.pool.next := by
    obtain ⟨row, hrow, -⟩ := hweb
    have := lt_of_row hs hrow
    omega
  have hinsert : ∀ key title, w.corpus.chunks id ≤ (w.corpus.insert key title).chunks id := by
    intro key title
    exact (Function.update_of_ne hlt _ _).ge
  cases e with
  | attached key title =>
    cases h
    unfold placeholderSource
    split
    · exact Nat.le_refl _
    · exact hinsert key title
  | upserted key title =>
    cases h
    unfold upsertSource
    split
    · rename_i found hfound
      have hne : id ≠ found.id := by
        rintro rfl
        exact not_keyed hkey key ⟨found, hfound, rfl⟩
      exact (Function.update_of_ne hne _ _).ge
    · exact hinsert key title
  | inserted i n =>
    simp only [tablesStep, insertChunks, Option.ite_none_right_eq_some, Option.some.injEq] at h
    obtain ⟨-, -, rfl⟩ := h
    by_cases hi : id = i
    · subst hi
      simp
    · exact (Function.update_of_ne hi _ _).ge
  | indexedInBackground key error =>
    cases h
    unfold backgroundOutcome
    split <;> exact Nat.le_refl _
  | indexedByRun i result =>
    simp only [tablesStep, Option.ite_none_left_eq_some, Option.some.injEq] at h
    obtain ⟨-, rfl⟩ := h
    exact Nat.le_refl _
  | toggled i isIncluded =>
    simp only [tablesStep, Option.ite_none_right_eq_some, Option.some.injEq] at h
    obtain ⟨-, rfl⟩ := h
    exact Nat.le_refl _
  | deleted i =>
    obtain ⟨r, hr, hfile, hc⟩ := tablesStep_deleted h
    have hne : id ≠ i := by
      rintro rfl
      obtain ⟨row, hrow, hnot⟩ := hweb
      rw [hrow] at hr
      cases hr
      rw [hnot] at hfile
      cases hfile
    rw [hc]
    exact (Function.update_of_ne hne _ _).ge
  | staged contentMd src =>
    cases h
    exact Nat.le_refl _
  | decided excluded =>
    cases h
    exact Nat.le_refl _
  | nodeDeleted node =>
    cases h
    exact Nat.le_refl _
  | loaded => cases h
  | compared => cases h
  | embedded => cases h
  | swept => cases h
  | stopped => cases h

theorem chunks_step (h : step chunkMarkdown w e = some w') (hs : w.corpus.Sound)
    (hweb : w.Web id) : w.corpus.chunks id ≤ w'.corpus.chunks id := by
  rcases step_cases h with ⟨rfl, -, rfl⟩ | ⟨staged, rfl, -, rfl⟩ |
    ⟨staged, src, todo, indexed, corpus, n, rfl, -, hindex, rfl⟩ | ⟨staged, indexed, rfl, -, rfl⟩ |
    ⟨rfl, rfl⟩ | ⟨corpus, htables, rfl⟩
  · exact Nat.le_refl _
  · exact Nat.le_refl _
  · have hc := (indexExisting_cases hindex).2.2
    change w.corpus.chunks id ≤ corpus.chunks id
    rw [hc]
    by_cases hid : id = src.sourceId
    · subst hid
      simp
    · exact (Function.update_of_ne hid _ _).ge
  · exact Nat.le_refl _
  · exact Nat.le_refl _
  · exact tables_chunks htables hs hweb

/-- The index stage is at work on the sources with these ids, and those it has indexed have
chunks. -/
structure UnderWay (ids : List Nat) (w : World) : Prop where
  web : ∀ id ∈ ids, w.Web id
  stage : (∃ staged, w.stage = some (.loaded staged) ∧ staged.map (·.sourceId) = ids) ∨
    ∃ staged todo indexed, w.stage = some (.indexing staged todo indexed) ∧
      staged.map (·.sourceId) = ids ∧ (∀ src ∈ todo, src.sourceId ∈ ids) ∧
      ∀ id ∈ indexed, id ∈ ids ∧ 0 < w.corpus.chunks id

theorem indexing_step (h : step chunkMarkdown w e = some w') (hs : w.corpus.Sound)
    (hi : UnderWay ids w) (hsweep : e ≠ .swept) (hstop : e ≠ .stopped) : UnderWay ids w' := by
  have hweb : ∀ id ∈ ids, w'.Web id := fun id hid => web_step h (hi.web id hid)
  have hmono : ∀ id ∈ ids, w.corpus.chunks id ≤ w'.corpus.chunks id := fun id hid =>
    chunks_step h hs (hi.web id hid)
  refine ⟨hweb, ?_⟩
  rcases step_cases h with ⟨rfl, hnone, rfl⟩ | ⟨staged, rfl, hstage, rfl⟩ |
    ⟨staged, src, todo, indexed, corpus, n, rfl, hstage, hindex, rfl⟩ |
    ⟨staged, indexed, rfl, -, rfl⟩ | ⟨rfl, rfl⟩ | ⟨corpus, htables, rfl⟩
  · rcases hi.stage with ⟨staged, hstage, -⟩ | ⟨staged, todo, indexed, hstage, -⟩
    · rw [hnone] at hstage
      cases hstage
    · rw [hnone] at hstage
      cases hstage
  · rcases hi.stage with ⟨staged', hstage', hids⟩ | ⟨staged', todo, indexed, hstage', -⟩
    · rw [hstage] at hstage'
      cases hstage'
      have hmem : ∀ src ∈ staged, src.sourceId ∈ ids := fun src hsrc =>
        hids ▸ List.mem_map_of_mem hsrc
      refine .inr ⟨staged, _, _, rfl, hids, ?_, ?_⟩
      · intro src hsrc
        exact hmem src (List.mem_of_mem_filter (List.mem_of_mem_filter hsrc))
      · intro id hid
        obtain ⟨src, hsrc, rfl⟩ := List.mem_map.mp hid
        obtain ⟨husable, hchunks⟩ := List.mem_filter.mp hsrc
        have hsrc := hmem src (List.mem_of_mem_filter husable)
        exact ⟨hsrc, Nat.pos_of_ne_zero (by simpa using hchunks)⟩
    · rw [hstage] at hstage'
      cases hstage'
  · rcases hi.stage with ⟨staged', hstage', -⟩ |
      ⟨staged', todo', indexed', hstage', hids, htodo, hdone⟩
    · rw [hstage] at hstage'
      cases hstage'
    · rw [hstage] at hstage'
      cases hstage'
      have hold : ∀ id ∈ indexed, id ∈ ids ∧ 0 < corpus.chunks id := fun id hid =>
        ⟨(hdone id hid).1, (hdone id hid).2.trans_le (hmono id (hdone id hid).1)⟩
      refine .inr ⟨staged, todo, _, rfl, hids, fun s hsrc => htodo s (.tail _ hsrc), ?_⟩
      intro id hid
      split at hid
      · exact hold id hid
      · rename_i hn
        rcases List.mem_append.mp hid with hid | hid
        · exact hold id hid
        · rw [List.mem_singleton] at hid
          subst hid
          refine ⟨htodo src (.head _), ?_⟩
          have hc := (indexExisting_cases hindex).2.2
          change 0 < corpus.chunks src.sourceId
          rw [hc, Function.update_self]
          omega
  · exact absurd rfl hsweep
  · exact absurd rfl hstop
  · rcases hi.stage with ⟨staged, hstage, hids⟩ |
      ⟨staged, todo, indexed, hstage, hids, htodo, hdone⟩
    · exact .inl ⟨staged, hstage, hids⟩
    · refine .inr ⟨staged, todo, indexed, hstage, hids, htodo, fun id hid => ?_⟩
      exact ⟨(hdone id hid).1, (hdone id hid).2.trans_le (hmono id (hdone id hid).1)⟩

theorem indexing_run (hr : Runs.run (step chunkMarkdown) w es = some w') (hs : w.corpus.Sound)
    (hi : UnderWay ids w) (hes : ∀ e ∈ es, e ≠ .swept ∧ e ≠ .stopped) :
    w'.corpus.Sound ∧ UnderWay ids w' := by
  induction es generalizing w with
  | nil =>
    cases hr
    exact ⟨hs, hi⟩
  | cons e es ih =>
    obtain ⟨u, hu, hr⟩ := Option.bind_eq_some_iff.mp hr
    obtain ⟨hsweep, hstop⟩ := hes e (.head _)
    exact ih hr (sound_step hu hs) (indexing_step hu hs hi hsweep hstop)
      fun e he => hes e (.tail _ he)

theorem indexing_loaded (h : step chunkMarkdown w .loaded = some w') (hs : w.corpus.Sound) :
    UnderWay ((loadIncluded w.corpus).map (·.sourceId)) w' := by
  have hw : w' = { w with stage := some (.loaded (loadIncluded w.corpus)) } := by
    rcases step_cases h with ⟨-, -, hw⟩ | ⟨_, hne, -⟩ | ⟨_, _, _, _, _, _, hne, -⟩ |
      ⟨_, _, hne, -⟩ | ⟨hne, -⟩ | ⟨c, htables, -⟩
    · exact hw
    · cases hne
    · cases hne
    · cases hne
    · cases hne
    · cases htables
  subst hw
  refine ⟨?_, .inl ⟨_, rfl, rfl⟩⟩
  intro id hid
  obtain ⟨src, hsrc, rfl⟩ := List.mem_map.mp hid
  obtain ⟨row, hrow, rfl⟩ := List.mem_map.mp hsrc
  obtain ⟨hmem, hrow⟩ := List.mem_filter.mp hrow
  have hnot : row.fileBacked = false := by simp_all
  exact ⟨row, row_of_mem hs hmem, hnot⟩

/-- Whether the source with the id is used. -/
def World.Included (w : World) (id : Nat) : Prop := ∃ row, w.row id = some row ∧ row.isIncluded

/-- Whether the index stage takes the source with the id. -/
def World.Loads (w : World) (id : Nat) : Prop :=
  ∃ row, w.row id = some row ∧ row.fileBacked = false ∧ row.isIncluded

/-- A project without sources. -/
def start : World := { corpus := { pool := {}, keyOf := fun _ => none, chunks := fun _ => 0 } }

theorem sound_start : start.corpus.Sound where
  fresh := by simp [start]
  ids := by simp [start]
  unused := by simp [start]
  web := by simp [start]
  file := by simp [start]

theorem sound_run (hr : Runs.run (step chunkMarkdown) w es = some w') (hs : w.corpus.Sound) :
    w'.corpus.Sound :=
  invariant_run (P := fun w => w.corpus.Sound) (fun _ _ _ h hs => sound_step h hs) hs hr

theorem mem_loaded_iff (hs : w.corpus.Sound) :
    id ∈ (loadIncluded w.corpus).map (·.sourceId) ↔ w.Loads id := by
  constructor
  · intro hid
    obtain ⟨src, hsrc, rfl⟩ := List.mem_map.mp hid
    obtain ⟨row, hrow, rfl⟩ := List.mem_map.mp hsrc
    obtain ⟨hmem, hrow⟩ := List.mem_filter.mp hrow
    rw [Bool.and_eq_true, Bool.not_eq_true'] at hrow
    exact ⟨row, row_of_mem hs hmem, hrow⟩
  · rintro ⟨row, hrow, hnot, hin⟩
    obtain ⟨hmem, rfl⟩ := mem_of_row hrow
    refine List.mem_map.mpr ⟨_, List.mem_map.mpr ⟨row, List.mem_filter.mpr ⟨hmem, ?_⟩, rfl⟩, rfl⟩
    simp [hnot, hin]

/-- The sweep looks at every source once. -/
theorem row_swept (h : step chunkMarkdown w .swept = some w') (id : Nat) :
    w'.row id = (w.row id).map (rowAfter w · .swept) ∧ w'.corpus.chunks = w.corpus.chunks ∧
      ∃ staged indexed, w.stage = some (.indexing staged [] indexed) := by
  rcases step_cases h with ⟨hne, -⟩ | ⟨_, hne, -⟩ | ⟨_, _, _, _, _, _, hne, -⟩ |
    ⟨staged, indexed, -, hstage, rfl⟩ | ⟨hne, -⟩ | ⟨c, htables, -⟩
  · cases hne
  · cases hne
  · cases hne
  · refine ⟨?_, rfl, staged, indexed, hstage⟩
    change List.find? _ (List.map (rowAfter w · .swept) w.corpus.pool.rows) = _
    rw [List.find?_map]
    have hsame : ((fun row : SourceRow => decide (row.id = id)) ∘ (rowAfter w · .swept)) =
        fun row => decide (row.id = id) := by
      funext row
      simp
    rw [hsame]
    rfl
  · cases hne
  · cases htables

/-- When the index stage of a run is done, a source is used exactly if it was until then and, in
case the stage had taken it, it has a chunk, whatever else came between. -/
theorem included_after_index_iff (chunkMarkdown : Text → Nat) (es₁ es₂ : List SourceEvent)
    {u u' v t : World} (h₁ : Runs.run (step chunkMarkdown) start es₁ = some u)
    (hload : step chunkMarkdown u .loaded = some u')
    (h₂ : Runs.run (step chunkMarkdown) u' es₂ = some v)
    (hes : ∀ e ∈ es₂, e ≠ .swept ∧ e ≠ .stopped)
    (hsweep : step chunkMarkdown v .swept = some t) (id : Nat) :
    t.Included id ↔ v.Included id ∧ (u.Loads id → 0 < t.corpus.chunks id) := by
  have hs := sound_run h₁ sound_start
  obtain ⟨hsv, hv⟩ := indexing_run h₂ (sound_step hload hs) (indexing_loaded hload hs) hes
  obtain ⟨hrow, hchunks, staged, indexed, hstage⟩ := row_swept hsweep id
  obtain ⟨hids, hdone⟩ : staged.map (·.sourceId) = (loadIncluded u.corpus).map (·.sourceId) ∧
      ∀ id ∈ indexed, 0 < v.corpus.chunks id := by
    rcases hv.stage with ⟨s, hstage', -⟩ | ⟨s, todo, i, hstage', hids, -, hdone⟩
    · rw [hstage] at hstage'
      cases hstage'
    · rw [hstage] at hstage'
      cases hstage'
      exact ⟨hids, fun id hid => (hdone id hid).2⟩
  have hunindexed : id ∈ v.unindexed ∧ v.corpus.chunks id = 0 ↔
      u.Loads id ∧ v.corpus.chunks id = 0 := by
    rw [← mem_loaded_iff hs, ← hids]
    simp only [World.unindexed, hstage, Option.map_some, Option.getD_some, IndexStage.unindexed,
      List.mem_filter, decide_eq_true_eq]
    constructor
    · rintro ⟨⟨hid, -⟩, hzero⟩
      exact ⟨hid, hzero⟩
    · rintro ⟨hid, hzero⟩
      refine ⟨⟨hid, fun hin => ?_⟩, hzero⟩
      have := hdone id hin
      omega
  cases hv : v.row id with
  | none =>
    rw [hv, Option.map_none] at hrow
    simp [World.Included, hrow, hv]
  | some row =>
    obtain ⟨-, rfl⟩ := mem_of_row hv
    rw [hv, Option.map_some] at hrow
    have hflag : (rowAfter v row .swept).isIncluded ↔
        row.isIncluded ∧ ¬ (row.id ∈ v.unindexed ∧ v.corpus.chunks row.id = 0) := by
      simp only [rowAfter]
      split_ifs with hc
      · simp [applyIndexOutcome, hc]
      · constructor
        · intro hin
          exact ⟨hin, fun hun => hc ⟨hun.1, hin, hun.2⟩⟩
        · exact fun hin => hin.1
    have hleft : t.Included row.id ↔ (rowAfter v row .swept).isIncluded := by
      simp [World.Included, hrow]
    have hright : v.Included row.id ↔ row.isIncluded := by simp [World.Included, hv]
    rw [hleft, hflag, hunindexed, hright, hchunks, not_and, Nat.pos_iff_ne_zero]

/-- A page that could not be fetched. -/
def lostPage : CollectedSource := { url := "a".toList }

/-- A source that the stage took without content is not used behind it. -/
theorem included_after_index_lost : ∃ t : World,
    Runs.run (step fun _ => 1) start [.staged [] lostPage, .loaded, .compared, .swept] = some t ∧
      ¬ t.Included 0 := by
  refine ⟨_, rfl, fun hin => ?_⟩
  have hchunk := ((included_after_index_iff (fun _ => 1) [.staged [] lostPage] [.compared]
    rfl rfl rfl (by simp) rfl 0).mp hin).2 ⟨_, rfl, rfl, rfl⟩
  exact Nat.lt_irrefl 0 hchunk

/-- Whether the source with the id is the first one of the address. -/
def World.First (w : World) (url : Text) (id : Nat) : Prop :=
  ∃ row, existing w.corpus.pool url = some row ∧ row.id = id

/-- Content for the source with the id: staged under its address, and not blank. -/
def World.Brings (w : World) (id : Nat) : SourceEvent → Prop
  | .staged contentMd src => w.First src.url id ∧ strip contentMd ≠ []
  | _ => False

/-- Whether the source with the id is not used. -/
def World.Excluded (w : World) (id : Nat) : Prop :=
  ∃ row, w.row id = some row ∧ row.isIncluded = false

/-- The first source of an address stays the first one. -/
theorem first_step (h : step chunkMarkdown w e = some w') (hs : w.corpus.Sound)
    (hlt : id < w.corpus.pool.next) (url : Text) : w'.First url id ↔ w.First url id := by
  obtain ⟨new, hg⟩ := grows_step h
  unfold World.First existing
  by_cases hurl : url.isEmpty
  · simp [hurl]
  · have hsame : ∀ row ∈ w.corpus.pool.rows,
        decide (survives row e ∧
          ((fun r : SourceRow => r.url == some url) ∘ (rowAfter w · e)) row) =
            (row.url == some url) := by
      intro row hrow
      cases hfile : row.fileBacked with
      | true =>
        have hnone := hs.file row hrow hfile
        have hafter : (rowAfter w row e).url = none := by
          rcases rowAfter_url w row e with heq | heq
          · rw [heq, hnone]
          · exact heq
        simp [hnone, hafter]
      | false =>
        have hweb : w.Web row.id := ⟨row, row_of_mem hs hrow, hfile⟩
        have hdel := ne_deleted h hweb
        have hkept : survives row e := by
          cases e with
          | deleted i =>
            have : row.id ≠ i := fun heq => hdel (by rw [heq])
            simpa [survives] using this
          | _ => rfl
        rw [Bool.eq_iff_iff]
        simp [hkept, rowAfter_url_of_web (e := e) (hs.web row hrow hfile)]
    rw [if_neg hurl, if_neg hurl, hg.rows, List.find?_append, List.find?_map, List.find?_filter,
      List.find?_congr hsame]
    cases hfound : w.corpus.pool.rows.find? fun row => row.url == some url with
    | some row => simp
    | none =>
      simp only [Option.map_none, Option.none_or, reduceCtorEq, false_and, exists_false, iff_false]
      rintro ⟨row, hrow, rfl⟩
      have := hg.ids row (List.mem_of_find?_eq_some hrow)
      omega

theorem existing_mem {pool : Pool} {url : Text} (h : existing pool url = some row) :
    row ∈ pool.rows := by
  unfold existing at h
  split at h
  · cases h
  · exact List.mem_of_find?_eq_some h

theorem awaits_iff (hs : w.corpus.Sound) (hrow : w.row id = some row) (url : Text) :
    Pool.Awaits w.corpus.pool url id ↔ w.First url id ∧ row.isBlank := by
  constructor
  · rintro ⟨found, hfound, hblank, rfl⟩
    have hfirst := row_of_mem hs (existing_mem hfound)
    rw [hrow] at hfirst
    cases hfirst
    exact ⟨⟨row, hfound, rfl⟩, hblank⟩
  · rintro ⟨⟨found, hfound, rfl⟩, hblank⟩
    have hfirst := row_of_mem hs (existing_mem hfound)
    rw [hrow] at hfirst
    cases hfirst
    exact ⟨row, hfound, hblank, rfl⟩

/-- What an event makes of an excluded web source, unless a person includes it: content brings it
back in case it was excluded for having none, and nothing else does. -/
theorem excluded_after (h : step chunkMarkdown w e = some w') (hs : w.corpus.Sound)
    (hrow : w.row id = some row) (hnot : row.fileBacked = false) (hout : row.isIncluded = false)
    (he : e ≠ .toggled id true) :
    (w.Brings id e ∧ row.autoExcluded ∧ row.isBlank → (rowAfter w row e).isIncluded) ∧
      (¬ (w.Brings id e ∧ row.autoExcluded ∧ row.isBlank) →
        (rowAfter w row e).isIncluded = false ∧
          ((rowAfter w row e).autoExcluded ∧ (rowAfter w row e).isBlank ↔
            row.autoExcluded ∧ row.isBlank)) := by
  have hweb : w.Web id := ⟨row, hrow, hnot⟩
  have hkey := not_keyed (keyOf_of_web hs hweb)
  obtain ⟨-, rfl⟩ := mem_of_row hrow
  cases e with
  | staged contentMd src =>
    have hawaits := awaits_iff hs hrow src.url
    by_cases hfirst : w.First src.url row.id
    · cases hblank : row.isBlank with
      | true =>
        have hfill : rowAfter w row (.staged contentMd src) = row.fill contentMd src := by
          rw [rowAfter, if_pos (hawaits.mpr ⟨hfirst, hblank⟩)]
        rw [hfill]
        cases hauto : row.autoExcluded <;> by_cases hstrip : strip contentMd = [] <;>
          simp [World.Brings, SourceRow.fill, SourceRow.isBlank, hfirst, hstrip, hauto, hout]
      | false =>
        have hsame : rowAfter w row (.staged contentMd src) = row := by
          rw [rowAfter, if_neg (by simp [hawaits, hblank])]
        rw [hsame]
        simp [hblank, hout]
    · have hsame : rowAfter w row (.staged contentMd src) = row := by
        rw [rowAfter, if_neg (by simp [hawaits, hfirst])]
      rw [hsame]
      simp [World.Brings, hfirst, hout]
  | attached key title => simp [World.Brings, rowAfter, hkey, hout]
  | upserted key title => simp [World.Brings, rowAfter, hkey, hout]
  | indexedInBackground key error => simp [World.Brings, rowAfter, hkey, hout]
  | indexedByRun i result =>
    have hne : row.id ≠ i := by
      rintro rfl
      obtain ⟨c, htables, -⟩ := Option.map_eq_some_iff.mp h
      simp only [tablesStep, Option.ite_none_left_eq_some] at htables
      refine htables.1 ?_
      rw [show w.corpus.pool.row row.id = some row from hrow]
      simp [hnot]
    simp [World.Brings, rowAfter, hne, hout]
  | toggled i isIncluded =>
    by_cases hi : row.id = i
    · subst hi
      cases isIncluded with
      | true => exact absurd rfl he
      | false => simp [World.Brings, rowAfter, SourceRow.isBlank]
    · simp [World.Brings, rowAfter, hi, hout]
  | decided excluded =>
    by_cases hi : row.id ∈ excluded <;> simp [World.Brings, rowAfter, hi, hout, SourceRow.isBlank]
  | swept => simp [World.Brings, rowAfter, hout]
  | _ => simp [World.Brings, rowAfter, hout]

theorem brings_step (h : step chunkMarkdown w e = some w') (hs : w.corpus.Sound)
    (hlt : id < w.corpus.pool.next) (e' : SourceEvent) : w'.Brings id e' ↔ w.Brings id e' := by
  cases e' with
  | staged contentMd src => simp only [World.Brings, first_step h hs hlt]
  | _ => exact Iff.rfl

theorem excluded_always_iff (hs : w.corpus.Sound) (hrow : w.row id = some row)
    (hnot : row.fileBacked = false) (hout : row.isIncluded = false)
    (hr : Runs.run (step chunkMarkdown) w es = some w') (hes : .toggled id true ∉ es) :
    Always (step chunkMarkdown) (World.Excluded · id) w es ↔
      ¬ (row.autoExcluded ∧ row.isBlank ∧ ∃ e ∈ es, w.Brings id e) := by
  induction es generalizing w row with
  | nil =>
    have hex : w.Excluded id := ⟨row, hrow, hout⟩
    simp [Always, hex]
  | cons e es ih =>
    obtain ⟨u, hu, hr⟩ := Option.bind_eq_some_iff.mp hr
    have hweb : w.Web id := ⟨row, hrow, hnot⟩
    have hnext := row_step hu hrow (ne_deleted hu hweb)
    have hhead : Always (step chunkMarkdown) (World.Excluded · id) w (e :: es) ↔
        Always (step chunkMarkdown) (World.Excluded · id) u es := by
      constructor
      · exact fun hall => hall.2 u hu
      · intro hall
        refine ⟨⟨row, hrow, hout⟩, fun t ht => ?_⟩
        rw [hu] at ht
        cases ht
        exact hall
    have hafter := excluded_after hu hs hrow hnot hout fun heq => hes (heq ▸ .head _)
    rw [hhead]
    by_cases hback : w.Brings id e ∧ row.autoExcluded ∧ row.isBlank
    · refine iff_of_false (fun hall => ?_)
        (fun hno => hno ⟨hback.2.1, hback.2.2, e, .head _, hback.1⟩)
      obtain ⟨r, hr', hrout⟩ := hall.head
      rw [hnext] at hr'
      cases hr'
      rw [hafter.1 hback] at hrout
      cases hrout
    · obtain ⟨hnext', hsame⟩ := hafter.2 hback
      have hbrings := brings_step hu hs (lt_of_row hs hrow)
      rw [ih (sound_step hu hs) hnext (by rw [rowAfter_fileBacked, hnot]) hnext' hr
        fun hin => hes (.tail _ hin), ← and_assoc, hsame, and_assoc]
      simp only [hbrings]
      refine not_congr ⟨?_, ?_⟩
      · rintro ⟨hauto, hblank, e', he', hbring⟩
        exact ⟨hauto, hblank, e', .tail _ he', hbring⟩
      · rintro ⟨hauto, hblank, e', he', hbring⟩
        rcases List.mem_cons.mp he' with rfl | he'
        · exact absurd ⟨hbring, hauto, hblank⟩ hback
        · exact ⟨hauto, hblank, e', he', hbring⟩

/-- A web source that is excluded stays so until a person includes it, unless it still carries the
mark of an automatic exclusion and content comes for it. -/
theorem exclusion_stands_iff (chunkMarkdown : Text → Nat) (es₁ es₂ : List SourceEvent) (id : Nat)
    {t u : World} (h₁ : Runs.run (step chunkMarkdown) start es₁ = some u)
    (hrow : u.row id = some row) (hnot : row.fileBacked = false) (hout : row.isIncluded = false)
    (h₂ : Runs.run (step chunkMarkdown) u es₂ = some t) (hes : .toggled id true ∉ es₂) :
    Always (step chunkMarkdown) (World.Excluded · id) u es₂ ↔
      ¬ (row.autoExcluded ∧ row.isBlank ∧ ∃ e ∈ es₂, u.Brings id e) :=
  excluded_always_iff (sound_run h₁ sound_start) hrow hnot hout h₂ hes

/-- A page that a person excluded stays so when its content comes. -/
theorem exclusion_stands_lost : ∃ u : World,
    Runs.run (step fun _ => 1) start [.staged [] lostPage, .toggled 0 false] = some u ∧
      Always (step fun _ => 1) (World.Excluded · 0) u [.staged "b".toList lostPage] := by
  refine ⟨_, rfl, (exclusion_stands_iff (fun _ => 1) [.staged [] lostPage, .toggled 0 false]
    [.staged "b".toList lostPage] 0 rfl rfl rfl rfl rfl (by simp)).mpr ?_⟩
  rintro ⟨hauto, -⟩
  exact Bool.false_ne_true hauto

end RownRg.Exclusion

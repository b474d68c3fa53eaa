import Mathlib.Data.List.Dedup
import RownRg.Core.SectionPlan
import RownRg.Core.State

/-! The evidence of a section, retrieved live or restored from its rehearsal. -/

open PyText

namespace RownRg.Retrieval

/-- A row of the chunk table. -/
structure ChunkRow (ι : Type) where
  id : ι
  sourceId : ι
  content : Text
  metadata : Json

/-- The chunks of a project; the id is the key. -/
structure ChunkTable (ι : Type) where
  rows : List (ChunkRow ι)
  distinct : (rows.map (·.id)).Nodup

structure SourceRow (ι : Type) where
  id : ι
  title : Option Text
  url : Option Text

/-- What a search backend finds: a row as it stands in the table, and a score. -/
structure SearchHit {ι : Type} (table : ChunkTable ι) (σ : Type) where
  row : ChunkRow ι
  stored : row ∈ table.rows
  score : σ

/-- A chunk as the writer's prompt prints it. -/
structure RetrievedChunk (ι σ : Type) extends RownRg.RetrievedChunk ι where
  sourceId : ι
  score : σ
  sourceTitle : Text
  headerPath : List Text
  publishedYear : Option Int

/-- A summary node found beside the chunks. -/
structure SummaryRow (ι σ : Type) where
  id : ι
  summary : Text
  score : σ

/-- One row for each section. An entry of `chunks` holds the text of its id. -/
structure SectionRehearsal (ι σ : Type) where
  indexVersion : Nat
  planHash : Text
  chunks : List (ι × σ)

variable {ι σ : Type}

/-- `metadata.get(key)` of a column that may hold no dictionary. -/
def metaField (metadata : Json) (key : Text) : Json :=
  match metadata with
  | .obj fields => Json.get fields key
  | _ => .null

/-- `repr` writes an entry of the path that is no text. -/
def headerPathOf (repr : Json → Text) (metadata : Json) : List Text :=
  match metaField metadata "header_path".toList with
  | .arr header => header.map (Json.toText repr)
  | _ => []

def publishedYearOf (metadata : Json) : Option Int :=
  match metaField metadata "published_year".toList with
  | .num year => some year
  -- a truth value is an integer too
  | .bool b => some (if b then 1 else 0)
  | _ => none

variable {table : ChunkTable ι}

def hitToChunk (repr : Json → Text) (hit : SearchHit table σ) : RetrievedChunk ι σ where
  chunkId := hit.row.id
  sourceId := hit.row.sourceId
  content := hit.row.content
  score := hit.score
  headerPath := headerPathOf repr hit.row.metadata
  publishedYear := publishedYearOf hit.row.metadata
  sourceTitle := []
  isSummary := false

def SummaryRow.toChunk (row : SummaryRow ι σ) : RetrievedChunk ι σ where
  chunkId := row.id
  sourceId := row.id
  content := row.summary
  score := row.score
  headerPath := []
  publishedYear := none
  sourceTitle := []
  isSummary := true

/-- `x or y` of two texts that may be missing. -/
def orText (x : Option Text) (y : Text) : Text := if x.getD [] = [] then y else x.getD []

variable [DecidableEq ι]

def titleOf (sources : List (SourceRow ι)) (id : ι) : Text :=
  ((sources.find? (·.id = id)).map fun row => orText row.title (orText row.url [])).getD []

def withSourceTitles (sources : List (SourceRow ι)) (chunks : List (RetrievedChunk ι σ)) :
    List (RetrievedChunk ι σ) :=
  chunks.map fun c =>
    if titleOf sources c.sourceId = [] then c
    else { c with sourceTitle := titleOf sources c.sourceId }

/-- The live retrieval of a section, given what the backends find. -/
def retrieveForSection (repr : Json → Text) (sources : List (SourceRow ι))
    (search : SectionPlan → List (SearchHit table σ))
    (summaryFetcher : SectionPlan → List (SummaryRow ι σ)) (s : SectionPlan) :
    List (RetrievedChunk ι σ) :=
  withSourceTitles sources
    ((search s).map (hitToChunk repr) ++ (summaryFetcher s).map SummaryRow.toChunk)

def citable (chunks : List (RetrievedChunk ι σ)) : List (RetrievedChunk ι σ) :=
  chunks.filter fun c => !c.isSummary

/-- `digest` is the hash of the JSON text. -/
def planFingerprint (digest : Json → Text) (s : SectionPlan) : Text :=
  digest (.arr [.str s.title, .str s.chapterTitle, .str s.direction, .texts s.keyPoints,
    .texts s.searchQueries, .texts s.analysts])

/-- The table of rehearsals, keyed by the section. -/
abbrev Rehearsals (ι σ : Type) := List (Uuid × SectionRehearsal ι σ)

/-- One row a section: a new one takes the place of the old. -/
def storeRehearsal (rehearsals : Rehearsals ι σ) (sectionId : Uuid) (indexVersion : Nat)
    (chunks : List (RetrievedChunk ι σ)) (planHash : Text) : Rehearsals ι σ :=
  (sectionId, ⟨indexVersion, planHash, (citable chunks).map fun c => (c.chunkId, c.score)⟩) ::
    rehearsals.filter (·.1 ≠ sectionId)

def restore (repr : Json → Text) (row : ChunkRow ι) (score : σ) : RetrievedChunk ι σ where
  chunkId := row.id
  sourceId := row.sourceId
  content := row.content
  score := score
  headerPath := headerPathOf repr row.metadata
  publishedYear := none
  sourceTitle := []
  isSummary := false

def loadRehearsal (repr : Json → Text) (table : ChunkTable ι) (rehearsals : Rehearsals ι σ)
    (sectionId : Uuid) (indexVersion : Nat) (planHash : Text) :
    Option (List (RetrievedChunk ι σ)) :=
  (rehearsals.find? (·.1 = sectionId)).bind fun (_, row) =>
    if row.indexVersion ≠ indexVersion then none
    else if planHash ≠ [] ∧ row.planHash ≠ [] ∧ row.planHash ≠ planHash then none
    else
      let ids := row.chunks.map Prod.fst
      let byId := table.rows.filter fun c => ids.contains c.id
      if byId.length ≠ ids.length then none
      else some (row.chunks.filterMap fun (id, score) =>
        (byId.find? (·.id = id)).map (restore repr · score))

/-- The retriever of a run: restored where the rehearsal holds, else live, and then recorded. -/
def cachedRetrieve (repr : Json → Text) (digest : Json → Text) (table : ChunkTable ι)
    (sources : List (SourceRow ι)) (inner : SectionPlan → List (RetrievedChunk ι σ))
    (indexVersion : Nat) (rehearsals : Rehearsals ι σ) (s : SectionPlan) :
    List (RetrievedChunk ι σ) × Rehearsals ι σ :=
  match loadRehearsal repr table rehearsals s.sectionId indexVersion (planFingerprint digest s) with
  | some cached => (withSourceTitles sources cached, rehearsals)
  | none =>
    let chunks := inner s
    (chunks, storeRehearsal rehearsals s.sectionId indexVersion (citable chunks)
      (planFingerprint digest s))

/-- What the prompt prints of a chunk. -/
def RetrievedChunk.shown (c : RetrievedChunk ι σ) : Text × List Text × Text × Option Int :=
  (c.content, c.headerPath, c.sourceTitle, c.publishedYear)

/-- What a run that finds the rehearsal of a section hands to the writer is what the retrieval
had found. -/
def Transparent (repr digest : Json → Text) (sources : List (SourceRow ι))
    (search : SectionPlan → List (SearchHit table σ))
    (summaryFetcher : SectionPlan → List (SummaryRow ι σ)) (indexVersion : Nat)
    (rehearsals : Rehearsals ι σ) (s : SectionPlan) : Prop :=
  let live := retrieveForSection repr sources search summaryFetcher
  let stored := storeRehearsal rehearsals s.sectionId indexVersion (live s)
    (planFingerprint digest s)
  (citable (cachedRetrieve repr digest table sources live indexVersion stored s).1).map (·.shown) =
    (citable (live s)).map (·.shown)

variable {repr digest : Json → Text} {sources : List (SourceRow ι)}
  {search : SectionPlan → List (SearchHit table σ)}
  {summaryFetcher : SectionPlan → List (SummaryRow ι σ)} {indexVersion : Nat}
  {rehearsals : Rehearsals ι σ} {s : SectionPlan} {chunks : List (RetrievedChunk ι σ)}
  {hits : List (SearchHit table σ)}

omit [DecidableEq ι] in
theorem citable_of_forall (h : ∀ c ∈ chunks, c.isSummary = false) : citable chunks = chunks := by
  refine List.filter_eq_self.mpr fun c hc => ?_
  simp [h c hc]

/-- Titles make no summary of a chunk. -/
theorem citable_withSourceTitles :
    citable (withSourceTitles sources chunks) = withSourceTitles sources (citable chunks) := by
  unfold citable withSourceTitles
  rw [List.filter_map]
  congr 1
  refine List.filter_congr fun c _ => ?_
  simp only [Function.comp_apply]
  split <;> rfl

/-- Of a live retrieval the hits may be cited, and the summaries not. -/
theorem citable_retrieveForSection :
    citable (retrieveForSection repr sources search summaryFetcher s) =
      withSourceTitles sources ((search s).map (hitToChunk repr)) := by
  have hhits : citable ((search s).map (hitToChunk repr)) = (search s).map (hitToChunk repr) := by
    refine citable_of_forall fun c hc => ?_
    obtain ⟨hit, -, rfl⟩ := List.mem_map.mp hc
    rfl
  have hsummaries : citable ((summaryFetcher s).map SummaryRow.toChunk) = [] := by
    refine List.filter_eq_nil_iff.mpr fun c hc => ?_
    obtain ⟨row, -, rfl⟩ := List.mem_map.mp hc
    simp [SummaryRow.toChunk]
  rw [retrieveForSection, citable_withSourceTitles]
  congr 1
  calc citable ((search s).map (hitToChunk repr) ++ (summaryFetcher s).map SummaryRow.toChunk)
      = citable ((search s).map (hitToChunk repr)) ++
          citable ((summaryFetcher s).map SummaryRow.toChunk) := List.filter_append ..
    _ = (search s).map (hitToChunk repr) := by rw [hhits, hsummaries, List.append_nil]

/-- The ids and scores that a rehearsal keeps of the hits. -/
theorem kept_retrieveForSection :
    (citable (retrieveForSection repr sources search summaryFetcher s)).map
        (fun c => (c.chunkId, c.score)) =
      (search s).map fun hit => (hit.row.id, hit.score) := by
  rw [citable_retrieveForSection, withSourceTitles, List.map_map, List.map_map]
  refine List.map_congr_left fun hit _ => ?_
  simp only [Function.comp_apply, hitToChunk]
  split <;> rfl

/-- Ids of the table that are asked for once come back once. -/
theorem found_length_iff :
    (table.rows.filter fun c => (hits.map (·.row.id)).contains c.id).length = hits.length ↔
      (hits.map (·.row.id)).Nodup := by
  have hperm : ((table.rows.filter fun c => (hits.map (·.row.id)).contains c.id).map (·.id)).Perm
      (hits.map (·.row.id)).dedup := by
    refine (List.perm_ext_iff_of_nodup (table.distinct.sublist (List.filter_sublist.map _))
      (List.nodup_dedup _)).mpr fun i => ?_
    simp only [List.mem_map, List.mem_filter, List.contains_eq_mem, decide_eq_true_eq,
      List.mem_dedup]
    constructor
    · rintro ⟨row, ⟨-, hit, hhit, he⟩, rfl⟩
      exact ⟨hit, hhit, he⟩
    · rintro ⟨hit, hhit, rfl⟩
      exact ⟨hit.row, ⟨hit.stored, hit, hhit, rfl⟩, rfl⟩
  have hlen := hperm.length_eq
  rw [List.length_map] at hlen
  rw [hlen, ← List.dedup_eq_self]
  constructor
  · intro h
    exact (List.dedup_sublist _).eq_of_length (by rw [h, List.length_map])
  · intro h
    rw [h, List.length_map]

/-- A row is found again under its id. -/
theorem find_hit {hit : SearchHit table σ} (h : hit ∈ hits) :
    (table.rows.filter fun c => (hits.map (·.row.id)).contains c.id).find? (·.id = hit.row.id) =
      some hit.row := by
  have hmem : hit.row ∈ table.rows.filter fun c => (hits.map (·.row.id)).contains c.id := by
    simp only [List.mem_filter, List.contains_eq_mem, List.mem_map, decide_eq_true_eq]
    exact ⟨hit.stored, hit, h, rfl⟩
  cases hfind : (table.rows.filter fun c => (hits.map (·.row.id)).contains c.id).find?
      (·.id = hit.row.id) with
  | none => simpa using List.find?_eq_none.mp hfind hit.row hmem
  | some row =>
    have hid : row.id = hit.row.id := by simpa using List.find?_some hfind
    have hrow := (List.mem_filter.mp (List.mem_of_find?_eq_some hfind)).1
    rw [List.inj_on_of_nodup_map table.distinct hrow hit.stored hid]

/-- What a rehearsal at the same version and fingerprint gives back. -/
theorem loadRehearsal_storeRehearsal {planHash : Text}
    (hkept : (citable chunks).map (fun c => (c.chunkId, c.score)) =
      hits.map fun hit => (hit.row.id, hit.score)) :
    loadRehearsal repr table (storeRehearsal rehearsals s.sectionId indexVersion chunks planHash)
        s.sectionId indexVersion planHash =
      if (hits.map (·.row.id)).Nodup then
        some (hits.map fun hit => restore repr hit.row hit.score)
      else none := by
  have hids : (hits.map fun hit => (hit.row.id, hit.score)).map Prod.fst =
      hits.map (·.row.id) := by
    rw [List.map_map]
    rfl
  simp only [loadRehearsal, storeRehearsal, List.find?_cons_of_pos, decide_true, hkept, hids,
    Option.bind_some, ne_eq, not_true_eq_false, and_false, if_false, List.length_map,
    found_length_iff, ite_not]
  have hrestored : (hits.map fun hit => (hit.row.id, hit.score)).filterMap (fun (id, score) =>
        ((table.rows.filter fun c => (hits.map (·.row.id)).contains c.id).find? (·.id = id)).map
          (restore repr · score)) =
      hits.map fun hit => restore repr hit.row hit.score := by
    rw [List.filterMap_map]
    calc hits.filterMap _
        = hits.filterMap fun hit => some (restore repr hit.row hit.score) := by
          refine List.filterMap_congr fun hit hhit => ?_
          simp only [Function.comp_apply, find_hit hhit, Option.map_some]
      _ = hits.map fun hit => restore repr hit.row hit.score := by rw [List.filterMap_eq_map']
  rw [hrestored]
  simp only [if_true]

/-- The year is all that a restored chunk may lack. -/
theorem shown_restore_iff :
    (withSourceTitles sources (hits.map fun hit => restore repr hit.row hit.score)).map (·.shown) =
        (withSourceTitles sources (hits.map (hitToChunk repr))).map (·.shown) ↔
      ∀ hit ∈ hits, publishedYearOf hit.row.metadata = none := by
  simp only [withSourceTitles, List.map_map, List.map_inj_left, Function.comp_apply]
  refine forall₂_congr fun hit _ => ?_
  by_cases ht : titleOf sources hit.row.sourceId = []
  · simp [restore, hitToChunk, ht, RetrievedChunk.shown, eq_comm]
  · simp [restore, hitToChunk, ht, RetrievedChunk.shown, eq_comm]

/-- A rehearsal is transparent where it is not used, or where no chunk has a year to lose. -/
theorem transparent_iff :
    Transparent repr digest sources search summaryFetcher indexVersion rehearsals s ↔
      ¬ ((search s).map (·.row.id)).Nodup ∨
        ∀ hit ∈ search s, publishedYearOf hit.row.metadata = none := by
  have hload : loadRehearsal repr table
      (storeRehearsal rehearsals s.sectionId indexVersion
        (retrieveForSection repr sources search summaryFetcher s) (planFingerprint digest s))
      s.sectionId indexVersion (planFingerprint digest s) =
      if ((search s).map (·.row.id)).Nodup then
        some ((search s).map fun hit => restore repr hit.row hit.score)
      else none := loadRehearsal_storeRehearsal kept_retrieveForSection
  by_cases hnd : ((search s).map (·.row.id)).Nodup
  · rw [if_pos hnd] at hload
    have hcitable : ∀ c ∈ (search s).map (fun hit => restore repr hit.row hit.score),
        c.isSummary = false := by
      intro c hc
      obtain ⟨hit, -, rfl⟩ := List.mem_map.mp hc
      rfl
    simp only [Transparent, cachedRetrieve, hload, citable_withSourceTitles,
      citable_of_forall hcitable, citable_retrieveForSection, shown_restore_iff, hnd,
      not_true_eq_false, false_or]
  · rw [if_neg hnd] at hload
    simp [Transparent, cachedRetrieve, hload, hnd]

/-- A report of 2022 loses its year. -/
theorem not_transparent_year : ¬ ∀ (table : ChunkTable Nat) (repr digest : Json → Text)
    (sources : List (SourceRow Nat)) (search : SectionPlan → List (SearchHit table Unit))
    (summaryFetcher : SectionPlan → List (SummaryRow Nat Unit)) (indexVersion : Nat)
    (rehearsals : Rehearsals Nat Unit) (s : SectionPlan),
    Transparent repr digest sources search summaryFetcher indexVersion rehearsals s := by
  intro h
  have hsame := h
    ⟨[⟨1, 7, "수출이 늘었다.".toList, .obj [("published_year".toList, .num 2022)]⟩], by decide⟩
    (fun _ => []) (fun _ => []) [⟨7, some "수출 동향".toList, none⟩]
    (fun _ => [⟨_, List.mem_singleton_self _, ()⟩]) (fun _ => []) 0 []
    ⟨⟨List.replicate 32 '0', by decide, by decide⟩, 1, 1, [], [], [], [], [], [], [], none, none⟩
  unfold Transparent at hsame
  revert hsame
  decide

end RownRg.Retrieval

import RownRg.Sections.Rebase
import Mathlib.Data.List.Sort

/-! Versions of a report, and sections put back from them. -/

open PyText RownRg.Citations

namespace RownRg.Sections

/-- A section as a version keeps it. -/
structure SectionSnap (ι : Type) where
  sectionId : ι
  chapterNumber : Nat
  sectionNumber : Nat
  content : Text
  sourceIds : List ι
  deriving DecidableEq

structure ReportVersion (ι δ : Type) where
  versionNo : Nat
  reason : Text
  sections : List (SectionSnap ι)
  contentHash : δ

/-- A report and its versions, newest first. -/
structure Archive (ι σ δ : Type) where
  report : Report ι σ
  versions : List (ReportVersion ι δ)

variable {ι σ δ : Type} [DecidableEq ι] [DecidableEq σ] [DecidableEq δ]

def snapOf (r : Section ι) : SectionSnap ι :=
  ⟨r.id, r.chapterNumber, r.sectionNumber, r.content, r.sourceIds⟩

/-- `(chapter_number, section_number)` -/
def inOrder (r r' : Section ι) : Bool :=
  r.chapterNumber < r'.chapterNumber ||
    (r.chapterNumber = r'.chapterNumber && r.sectionNumber ≤ r'.sectionNumber)

def snapshotSections (rows : List (Section ι)) : List (SectionSnap ι) :=
  (rows.insertionSort fun r r' => inOrder r r').map snapOf

def churnPrefixes : List Text :=
  ["rewrite:".toList, "block:".toList, "edit:".toList, "restore:".toList]

def keepRecentChurn : Nat := 20

def isChurn (v : ReportVersion ι δ) : Bool := churnPrefixes.any fun p => p.isPrefixOf v.reason

/-- Keeps all milestones and the most recent of the other versions. -/
def pruneVersions (versions : List (ReportVersion ι δ)) : List (ReportVersion ι δ) :=
  let doomed := ((versions.filter isChurn).drop keepRecentChurn).map (·.versionNo)
  versions.filter fun v => v.versionNo ∉ doomed

/-- Freezes the sections, unless there is no text or the newest version has the same one; the
number is that of the version that now holds them. -/
def snapshotReport (digest : List (SectionSnap ι) → δ) (reason : Text) (rows : List (Section ι))
    (versions : List (ReportVersion ι δ)) : Option Nat × List (ReportVersion ι δ) :=
  let sections := snapshotSections rows
  if !sections.any fun s => !(strip s.content).isEmpty then (none, versions)
  else
    let hash := digest sections
    match versions.head? with
    | none => (some 1, pruneVersions [⟨1, reason, sections, hash⟩])
    | some latest =>
      if latest.contentHash = hash then (some latest.versionNo, versions)
      else
        (some (latest.versionNo + 1),
          pruneVersions (⟨latest.versionNo + 1, reason, sections, hash⟩ :: versions))

/-- Text and sources of one section as the version has them; the table of the section stays. -/
def restoreSection (archive : Archive ι σ δ) (versionNo : Nat) (sectionId : ι) :
    Option (SectionSnap ι × List (Section ι)) :=
  match archive.versions.find? fun v => v.versionNo = versionNo with
  | none => none
  | some version =>
    match version.sections.find? fun s => s.sectionId = sectionId with
    | none => none
    | some snap =>
      if archive.report.sections.any fun r => r.id = sectionId then
        some (snap, archive.report.sections.map fun r =>
          if r.id = sectionId then
            { r with
              content := snap.content
              sourceIds := snap.sourceIds
              completed := !(strip snap.content).isEmpty }
          else r)
      else none

/-- `restore:{chapter}.{section}` -/
def restoreReason (snap : SectionSnap ι) : Text :=
  "restore:".toList ++ ofNat snap.chapterNumber ++ ['.'] ++ ofNat snap.sectionNumber

inductive ArchiveEvent (ι σ : Type) where
  | snapshot (reason : Text)
  | toggle (sourceId : σ) (isIncluded : Bool)
  | restore (versionNo : Nat) (sectionId : ι)

/-- Adopts or excludes a source; what a new numbering changes is frozen. -/
def Archive.toggle (src : ι → Option σ) (digest : List (SectionSnap ι) → δ)
    (archive : Archive ι σ δ) (sourceId : σ) (isIncluded : Bool) : Option (Archive ι σ δ) :=
  match archive.report.sources.find? fun s => s.id = sourceId with
  | none => none
  | some row =>
    if row.isIncluded = isIncluded then some archive
    else
      let sources := withIncluded archive.report.sources sourceId isIncluded
      let rebased := rebaseGlobalNumbers src sources archive.report.sections
      some
        { report := ⟨sources, rebased.1⟩
          versions :=
            if rebased.2 = 0 then archive.versions
            else (snapshotReport digest "sources".toList rebased.1 archive.versions).2 }

/-- What a request does to the report and its versions. -/
def Archive.step (src : ι → Option σ) (digest : List (SectionSnap ι) → δ)
    (archive : Archive ι σ δ) : ArchiveEvent ι σ → Option (Archive ι σ δ)
  | .snapshot reason =>
    some { archive with
      versions := (snapshotReport digest reason archive.report.sections archive.versions).2 }
  | .toggle sourceId isIncluded => archive.toggle src digest sourceId isIncluded
  | .restore versionNo sectionId =>
    (restoreSection archive versionNo sectionId).map fun x =>
      { report := { archive.report with sections := x.2 }
        versions := (snapshotReport digest (restoreReason x.1) x.2 archive.versions).2 }

/-! What the versions and the sections stand for: history that no operation reads. -/

/-- The sections as they were when a version was made, the section that a text was last put back
from, and the sources excluded since then. -/
structure History (ι σ : Type) where
  frozenAt : Nat → List (Section ι)
  origin : ι → Option (Section ι)
  gone : ι → List σ

def numbered (versions : List (ReportVersion ι δ)) (no : Nat) : Bool :=
  versions.any fun v => v.versionNo = no

def History.record (h : History ι σ) (before after : Archive ι σ δ) (event : ArchiveEvent ι σ) :
    History ι σ where
  frozenAt no :=
    if numbered after.versions no && !numbered before.versions no then after.report.sections
    else h.frozenAt no
  origin i :=
    match event with
    | .restore no id => if i = id then (h.frozenAt no).find? fun r => r.id = id else h.origin i
    | _ => h.origin i
  gone i :=
    match event with
    | .restore _ id => if i = id then [] else h.gone i
    | .toggle sid false => sid :: h.gone i
    | _ => h.gone i

/-- A step with its history. -/
def toldStep (src : ι → Option σ) (digest : List (SectionSnap ι) → δ)
    (state : Archive ι σ δ × History ι σ) (event : ArchiveEvent ι σ) :
    Option (Archive ι σ δ × History ι σ) :=
  (state.1.step src digest event).map fun after => (after, state.2.record state.1 after event)

/-- Before any version: every text is its own origin. -/
def told (report : Report ι σ) : Archive ι σ δ × History ι σ :=
  (⟨report, []⟩, ⟨fun _ => [], fun i => report.sections.find? fun r => r.id = i, fun _ => []⟩)

variable {src : ι → Option σ} {digest : List (SectionSnap ι) → δ} {row row₀ r : Section ι}
  {rows : List (Section ι)} {n m : Nat} {s : σ} {sources sources' : List (ProjectSource σ)}
  {gone : List σ} {versions : List (ReportVersion ι δ)} {v w : ReportVersion ι δ}
  {a a' : Archive ι σ δ} {h h' : History ι σ} {F : Nat → Option Nat}

/-- The source of the chunks behind a number. -/
def Denotes (src : ι → Option σ) (row : Section ι) (n : Nat) (s : σ) : Prop :=
  ∃ cids, row.sectionMeta.citationChunks.lookup n = some cids ∧ cids ≠ [] ∧
    ∀ c ∈ cids, src c = some s

/-- Each mark is what is left of a mark of the origin: a number has become the present number of
the source that it denoted there, or it is gone with that source. -/
structure TrueTo (src : ι → Option σ) (sources : List (ProjectSource σ)) (gone : List σ)
    (origin row : Section ι) : Prop where
  follows : ∃ F, markLists row.content = (markLists origin.content).filterMap (carried F) ∧
    ∀ n ∈ numbersInOrder origin.content, ∃ s, Denotes src origin n s ∧
      (∀ m, F n = some m → sourceOrder sources s = some m) ∧ (F n = none → s ∈ gone)

/-- At a restore: every number of the frozen text is now the number of the source that it had
then, in the table of the section as well. -/
def RestoreSafe (src : ι → Option σ) (a : Archive ι σ δ) (h : History ι σ) (no : Nat) (id : ι) :
    Prop :=
  ∀ r ∈ h.frozenAt no, r.id = id → ∀ row ∈ a.report.sections, row.id = id →
    NumbersTrue (chunkToGlobal src a.report.sources) r ∧
    NumbersTrue (chunkToGlobal src a.report.sources) { row with content := r.content }

def EventSafe (src : ι → Option σ) (state : Archive ι σ δ × History ι σ) :
    ArchiveEvent ι σ → Prop
  | .snapshot _ => True
  | .toggle sid included => SeamsSafe src state.1.report (sid, included)
  | .restore no id => RestoreSafe src state.1 state.2 no id

/-! Versions. -/

omit [DecidableEq ι] [DecidableEq δ] in
theorem pruneVersions_sublist (versions : List (ReportVersion ι δ)) :
    (pruneVersions versions).Sublist versions := List.filter_sublist

omit [DecidableEq ι] in
/-- What a snapshot may do: nothing, or a new version with a new number. -/
theorem snapshotReport_cases (digest : List (SectionSnap ι) → δ) (reason : Text)
    (rows : List (Section ι)) (hdesc : versions.Pairwise fun v w => w.versionNo < v.versionNo) :
    (snapshotReport digest reason rows versions).2 = versions ∨
    ∃ v, (snapshotReport digest reason rows versions).2 = pruneVersions (v :: versions) ∧
      v.sections = snapshotSections rows ∧ ∀ w ∈ versions, w.versionNo < v.versionNo := by
  unfold snapshotReport
  simp only
  split
  · exact .inl rfl
  · cases versions with
    | nil => exact .inr ⟨_, rfl, rfl, by simp⟩
    | cons latest older =>
      simp only [List.head?_cons]
      split
      · exact .inl rfl
      · refine .inr ⟨_, rfl, rfl, fun w hw => ?_⟩
        rcases List.mem_cons.mp hw with rfl | hw
        · exact Nat.lt_succ_self _
        · exact Nat.lt_succ_of_lt (List.rel_of_pairwise_cons hdesc hw)

/-- Versions and history agree. -/
structure Recorded (a : Archive ι σ δ) (h : History ι σ) : Prop where
  descending : a.versions.Pairwise fun v w => w.versionNo < v.versionNo
  sections : ∀ v ∈ a.versions, v.sections = snapshotSections (h.frozenAt v.versionNo)
  ids : ∀ v ∈ a.versions, ((h.frozenAt v.versionNo).map (·.id)).Nodup

omit [DecidableEq σ] [DecidableEq δ] in
theorem Recorded.same {event : ArchiveEvent ι σ} (hr : Recorded a h)
    (hsame : a'.versions = a.versions) : Recorded a' (h.record a a' event) := by
  have hfrozen : (h.record a a' event).frozenAt = h.frozenAt := by
    funext no
    simp [History.record, hsame]
  refine ⟨hsame ▸ hr.descending, fun v hv => ?_, fun v hv => ?_⟩
  · rw [hfrozen]
    exact hr.sections v (hsame ▸ hv)
  · rw [hfrozen]
    exact hr.ids v (hsame ▸ hv)

omit [DecidableEq σ] in
theorem Recorded.snapshot {event : ArchiveEvent ι σ} {reason : Text} (hr : Recorded a h)
    (hids : (a'.report.sections.map (·.id)).Nodup)
    (hversions : a'.versions = a.versions ∨
      a'.versions = (snapshotReport digest reason a'.report.sections a.versions).2) :
    Recorded a' (h.record a a' event) := by
  rcases hversions with hsame | hnew
  · exact hr.same hsame
  · rcases snapshotReport_cases digest reason a'.report.sections hr.descending with
      hsame | ⟨v, hprune, hsections, hlt⟩
    · exact hr.same (hnew.trans hsame)
    · have hvs : a'.versions = pruneVersions (v :: a.versions) := hnew.trans hprune
      have hdesc : (v :: a.versions).Pairwise fun v w => w.versionNo < v.versionNo :=
        List.pairwise_cons.mpr ⟨hlt, hr.descending⟩
      have hfrozen : ∀ w ∈ a'.versions, (w ∈ a.versions ∧
            (h.record a a' event).frozenAt w.versionNo = h.frozenAt w.versionNo) ∨
          (w = v ∧ (h.record a a' event).frozenAt w.versionNo = a'.report.sections) := by
        intro w hw
        have hmem := (pruneVersions_sublist (v :: a.versions)).mem (hvs ▸ hw)
        rcases List.mem_cons.mp hmem with rfl | hold
        · have hafter : numbered a'.versions w.versionNo = true :=
            List.any_eq_true.mpr ⟨w, hw, by simp⟩
          have hbefore : numbered a.versions w.versionNo = false := by
            rw [numbered, List.any_eq_false]
            intro u hu
            have hne := Nat.ne_of_lt (hlt u hu)
            simpa using hne
          exact .inr ⟨rfl, by simp [History.record, hafter, hbefore]⟩
        · have hbefore : numbered a.versions w.versionNo = true :=
            List.any_eq_true.mpr ⟨w, hold, by simp⟩
          exact .inl ⟨hold, by simp [History.record, hbefore]⟩
      refine ⟨hvs ▸ hdesc.sublist (pruneVersions_sublist _), fun w hw => ?_, fun w hw => ?_⟩
      · rcases hfrozen w hw with ⟨hw, hf⟩ | ⟨rfl, hf⟩
        · rw [hf]
          exact hr.sections w hw
        · rw [hf, hsections]
      · rcases hfrozen w hw with ⟨hw, hf⟩ | ⟨rfl, hf⟩
        · rw [hf]
          exact hr.ids w hw
        · rw [hf]
          exact hids

/-! Texts. -/

omit [DecidableEq ι] in
theorem NumbersTrue.denotes (ht : NumbersTrue (chunkToGlobal src sources) row)
    (hn : n ∈ numbersInOrder row.content) :
    ∃ s, Denotes src row n s ∧ sourceOrder sources s = some n := by
  obtain ⟨cids, hcids, hne, hall⟩ := ht n hn
  obtain ⟨c, hc⟩ := List.exists_mem_of_ne_nil _ hne
  obtain ⟨s, hs, hnumber⟩ := Option.bind_eq_some_iff.mp (hall c hc)
  refine ⟨s, ⟨cids, hcids, hne, fun d hd => ?_⟩, hnumber⟩
  obtain ⟨s', hs', hnumber'⟩ := Option.bind_eq_some_iff.mp (hall d hd)
  rw [hs', sourceOrder_injective hnumber' hnumber]

omit [DecidableEq ι] in
/-- A text is true to itself while its numbers are the present ones. -/
theorem trueTo_self (ht : NumbersTrue (chunkToGlobal src sources) r)
    (hcontent : row.content = r.content) : TrueTo src sources gone r row := by
  refine ⟨some, ?_, fun n hn => ?_⟩
  · rw [hcontent, markLists_id fun _ _ => rfl]
  · obtain ⟨s, hdenotes, hnumber⟩ := ht.denotes hn
    exact ⟨s, hdenotes, fun m hm => Option.some.inj hm ▸ hnumber, by simp⟩

theorem sourceOrder_lost {sid : σ} {included : Bool} (hs : sourceOrder sources s = some n)
    (hlost : sourceOrder (withIncluded sources sid included) s = none) :
    s = sid ∧ included = false := by
  obtain ⟨x, hx, hincluded, rfl⟩ := included_of_sourceOrder hs
  by_contra hne
  have hsome : (sourceOrder (withIncluded sources sid included) x.id).isSome := by
    rw [sourceOrder_isSome]
    refine ⟨_, List.mem_map.mpr ⟨x, hx, rfl⟩, ?_⟩
    by_cases hid : x.id = sid
    · have htrue : included = true := by simpa [hid] using hne
      simp [hid, htrue]
    · simp [hid, hincluded]
  simp [hlost] at hsome

/-- A new numbering takes the numbers of a section along. -/
theorem TrueTo.rebase {sid : σ} {included : Bool} (ht : TrueTo src sources gone r row)
    (hkeyed : Keyed src row) (hnumbers : NumbersTrue (chunkToGlobal src sources) row)
    (hsafe : SeamSafe (moved (chunkToGlobal src (withIncluded sources sid included)) row)
      row.content) :
    TrueTo src (withIncluded sources sid included) (if included then gone else sid :: gone) r
      (rebaseSection (chunkToGlobal src (withIncluded sources sid included)) row).1 := by
  obtain ⟨F, hmarks, hF⟩ := ht.follows
  obtain ⟨hfollows, -, -⟩ := rebaseSection_spec hkeyed hsafe
  have hmoved : ∀ m ∈ numbersInOrder row.content, ∀ s, sourceOrder sources s = some m →
      moved (chunkToGlobal src (withIncluded sources sid included)) row m =
        sourceOrder (withIncluded sources sid included) s := by
    intro m hm s hs
    obtain ⟨cids, s', hcids, hne, hs', hnew⟩ := hkeyed.entry (hkeyed.known m hm)
    obtain ⟨cids', hcids', -, hall⟩ := hnumbers m hm
    obtain rfl := Option.some.inj (hcids.symm.trans hcids')
    obtain ⟨c, hc⟩ := List.exists_mem_of_ne_nil _ hne
    have hnumber := hall c hc
    rw [chunkToGlobal_eq (hs' c hc)] at hnumber
    rw [hnew, sourceOrder_injective hs hnumber]
  have hreached : ∀ n ∈ numbersInOrder r.content, ∀ m, F n = some m →
      m ∈ numbersInOrder row.content := by
    intro n hn m hm
    obtain ⟨ns, hns, hnns⟩ := mem_markLists.1 hn
    obtain ⟨ns', hns'⟩ := carried_isSome hnns hm
    rw [mem_markLists, hmarks]
    exact ⟨ns', List.mem_filterMap.mpr ⟨ns, hns, hns'⟩, (mem_carried hns').mpr ⟨n, hnns, hm⟩⟩
  refine ⟨fun n => (F n).bind
    (moved (chunkToGlobal src (withIncluded sources sid included)) row), ?_, fun n hn => ?_⟩
  · rw [hfollows.marks, hmarks, List.filterMap_filterMap]
    exact List.filterMap_congr fun ns _ => carried_comp
  · obtain ⟨s, hdenotes, hsome, hnone⟩ := hF n hn
    refine ⟨s, hdenotes, fun k hk => ?_, fun hlost => ?_⟩
    · obtain ⟨m, hm, hk⟩ := Option.bind_eq_some_iff.mp hk
      rw [← hk, hmoved m (hreached n hn m hm) s (hsome m hm)]
    · cases hm : F n with
      | none =>
        have hgone := hnone hm
        split
        · exact hgone
        · exact List.mem_cons_of_mem _ hgone
      | some m =>
        simp only [hm, Option.bind_some] at hlost
        rw [hmoved m (hreached n hn m hm) s (hsome m hm)] at hlost
        obtain ⟨rfl, rfl⟩ := sourceOrder_lost (hsome m hm) hlost
        simp

/-- What holds of a section along a history. -/
structure Held (src : ι → Option σ) (sources : List (ProjectSource σ)) (h : History ι σ)
    (row : Section ι) : Prop where
  keyed : Keyed src row
  numbers : NumbersTrue (chunkToGlobal src sources) row
  trueTo : ∃ origin, h.origin row.id = some origin ∧
    TrueTo src sources (h.gone row.id) origin row

structure Restorable (src : ι → Option σ) (state : Archive ι σ δ × History ι σ) : Prop where
  ids : (state.1.report.sections.map (·.id)).Nodup
  rows : ∀ row ∈ state.1.report.sections, Held src state.1.report.sources state.2 row
  recorded : Recorded state.1 state.2

theorem rebaseSection_id (g : ι → Option Nat) (row : Section ι) :
    (rebaseSection g row).1.id = row.id := by
  unfold rebaseSection
  simp only
  split
  · rfl
  · split
    · rfl
    · split <;> rfl

omit [DecidableEq δ] in
/-- A section that the event leaves alone. -/
theorem Held.of_record {event : ArchiveEvent ι σ} (hrow : Held src sources h row)
    (horigin : (h.record a a' event).origin row.id = h.origin row.id)
    (hgone : (h.record a a' event).gone row.id = h.gone row.id) :
    Held src sources (h.record a a' event) row := by
  obtain ⟨origin, ho, htrue⟩ := hrow.trueTo
  exact ⟨hrow.keyed, hrow.numbers, origin, horigin.trans ho, hgone ▸ htrue⟩

theorem toggle_cases {sid : σ} {included : Bool}
    (hstep : a.toggle src digest sid included = some a') :
    a' = a ∨ a'.report = ⟨withIncluded a.report.sources sid included,
        (rebaseGlobalNumbers src (withIncluded a.report.sources sid included)
          a.report.sections).1⟩ ∧
      (a'.versions = a.versions ∨
        a'.versions =
          (snapshotReport digest "sources".toList a'.report.sections a.versions).2) := by
  unfold Archive.toggle at hstep
  split at hstep
  · cases hstep
  · split at hstep
    · exact .inl (Option.some.inj hstep).symm
    · obtain rfl := Option.some.inj hstep
      refine .inr ⟨rfl, ?_⟩
      simp only
      split
      · exact .inl rfl
      · exact .inr rfl

theorem Restorable.toggle {sid : σ} {included : Bool} (hst : Restorable src (a, h))
    (hstep : a.toggle src digest sid included = some a')
    (hsafe : SeamsSafe src a.report (sid, included)) :
    Restorable src (a', h.record a a' (.toggle sid included)) := by
  have hrecorded : Recorded a h := hst.recorded
  have hrows : ∀ r ∈ a.report.sections, Keyed src r := fun r hr => (hst.rows r hr).keyed
  rcases toggle_cases hstep with rfl | ⟨hreport, hversions⟩
  · refine ⟨hst.ids, fun row hrow => ?_, ?_⟩
    · obtain ⟨origin, ho, F, hmarks, hF⟩ := (hst.rows row hrow).trueTo
      refine ⟨(hst.rows row hrow).keyed, (hst.rows row hrow).numbers, origin, ho, F, hmarks, ?_⟩
      intro n hn
      obtain ⟨s, hdenotes, hsome, hnone⟩ := hF n hn
      refine ⟨s, hdenotes, hsome, fun hlost => ?_⟩
      cases included with
      | true => exact hnone hlost
      | false => exact List.mem_cons_of_mem _ (hnone hlost)
    · exact show Recorded a' (h.record a' a' (.toggle sid included)) from hrecorded.same rfl
  · have hsections : (rebaseGlobalNumbers src (withIncluded a.report.sources sid included)
        a.report.sections).1 = a.report.sections.map fun r =>
          (rebaseSection (chunkToGlobal src (withIncluded a.report.sources sid included)) r).1 :=
      rebaseGlobalNumbers_sections hrows
    have hids : (a'.report.sections.map (·.id)).Nodup := by
      rw [hreport, hsections, List.map_map]
      have hsame : (fun r : Section ι => r.id) ∘ (fun r => (rebaseSection
          (chunkToGlobal src (withIncluded a.report.sources sid included)) r).1) = (·.id) :=
        funext fun r => rebaseSection_id _ r
      rw [hsame]
      exact hst.ids
    have hafter : Recorded a' (h.record a a' (.toggle sid included)) :=
      hrecorded.snapshot hids hversions
    refine ⟨hids, fun row hrow => ?_, hafter⟩
    rw [hreport, hsections] at hrow
    obtain ⟨r, hr, rfl⟩ := List.mem_map.mp hrow
    obtain ⟨origin, ho, htrue⟩ := (hst.rows r hr).trueTo
    obtain ⟨-, hkeyed, hnumbers⟩ := rebaseSection_spec (hrows r hr) (hsafe r hr)
    have hnew := htrue.rebase (hrows r hr) (hst.rows r hr).numbers (hsafe r hr)
    rw [hreport]
    refine ⟨hkeyed, hnumbers, origin, ?_, ?_⟩
    · rw [rebaseSection_id]
      exact ho
    · rw [rebaseSection_id]
      cases included <;> exact hnew

omit [DecidableEq σ] [DecidableEq δ] in
theorem restoreSection_cases {no : Nat} {id : ι} {x : SectionSnap ι × List (Section ι)}
    (hx : restoreSection a no id = some x) :
    (∃ v ∈ a.versions, v.versionNo = no ∧ x.1 ∈ v.sections ∧ x.1.sectionId = id) ∧
    x.2 = a.report.sections.map fun r =>
      if r.id = id then
        { r with
          content := x.1.content
          sourceIds := x.1.sourceIds
          completed := !(strip x.1.content).isEmpty }
      else r := by
  unfold restoreSection at hx
  split at hx
  · cases hx
  · rename_i v hv
    split at hx
    · cases hx
    · rename_i snap hsnap
      split at hx
      · obtain rfl := Option.some.inj hx
        have hno := List.find?_some hv
        have hid := List.find?_some hsnap
        exact ⟨⟨v, List.mem_of_find?_eq_some hv, by simpa using hno,
          List.mem_of_find?_eq_some hsnap, by simpa using hid⟩, rfl⟩
      · cases hx

omit [DecidableEq σ] [DecidableEq δ] in
/-- The frozen section behind an entry of a version. -/
theorem Recorded.frozen {snap : SectionSnap ι} (hr : Recorded a h) (hv : v ∈ a.versions)
    (hsnap : snap ∈ v.sections) :
    ∃ r ∈ h.frozenAt v.versionNo, r.id = snap.sectionId ∧ r.content = snap.content ∧
      (h.frozenAt v.versionNo).find? (fun r => r.id = snap.sectionId) = some r := by
  rw [hr.sections v hv, snapshotSections] at hsnap
  obtain ⟨r, hmem, rfl⟩ := List.mem_map.mp hsnap
  have hmem : r ∈ h.frozenAt v.versionNo := (List.mem_insertionSort _).mp hmem
  refine ⟨r, hmem, rfl, rfl, ?_⟩
  obtain ⟨r', hr'⟩ : ∃ r', (h.frozenAt v.versionNo).find? (fun x => x.id = r.id) = some r' :=
    Option.isSome_iff_exists.mp (List.find?_isSome.mpr ⟨r, hmem, by simp⟩)
  have hid : r'.id = r.id := by simpa using List.find?_some hr'
  have hsame := List.inj_on_of_nodup_map (hr.ids v hv) (List.mem_of_find?_eq_some hr') hmem hid
  rw [snapOf, hr', hsame]

theorem Restorable.restore {no : Nat} {id : ι} (hst : Restorable src (a, h))
    (hstep : a.step src digest (.restore no id) = some a')
    (hsafe : RestoreSafe src a h no id) :
    Restorable src (a', h.record a a' (.restore no id)) := by
  have hrecorded : Recorded a h := hst.recorded
  obtain ⟨x, hx, ha'⟩ := Option.map_eq_some_iff.mp hstep
  obtain ⟨⟨v, hv, rfl, hsnap, rfl⟩, hrows⟩ := restoreSection_cases hx
  obtain ⟨r, hr, hid, hcontent, hfind⟩ := hst.recorded.frozen hv hsnap
  have hids : (x.2.map (·.id)).Nodup := by
    have hsame : x.2.map (·.id) = a.report.sections.map (·.id) := by
      rw [hrows, List.map_map]
      refine List.map_congr_left fun r _ => ?_
      simp only [Function.comp_apply]
      split <;> rfl
    rw [hsame]
    exact hst.ids
  obtain ⟨hsections, hsources, hversions⟩ : a'.report.sections = x.2 ∧
      a'.report.sources = a.report.sources ∧
      a'.versions = (snapshotReport digest (restoreReason x.1) a'.report.sections a.versions).2 := by
    subst ha'
    exact ⟨rfl, rfl, rfl⟩
  have hafter : Recorded a' (h.record a a' (.restore v.versionNo x.1.sectionId)) :=
    hrecorded.snapshot (hsections ▸ hids) (.inr hversions)
  refine ⟨hsections ▸ hids, fun row hrow => ?_, hafter⟩
  simp only [hsections, hrows] at hrow
  obtain ⟨row, hmem, rfl⟩ := List.mem_map.mp hrow
  have hheld : Held src a.report.sources h row := hst.rows row hmem
  simp only [hsources]
  by_cases hrid : row.id = x.1.sectionId
  · obtain ⟨hthen, hnow⟩ := hsafe r hr hid row hmem hrid
    rw [if_pos hrid]
    have hnumbers : NumbersTrue (chunkToGlobal src a.report.sources)
        { row with
          content := x.1.content
          sourceIds := x.1.sourceIds
          completed := !(strip x.1.content).isEmpty } := by
      rw [hcontent] at hnow
      exact hnow
    have horigin : (h.record a a' (.restore v.versionNo x.1.sectionId)).origin row.id = some r := by
      simp only [History.record, hrid, if_true]
      exact hfind
    refine ⟨⟨hheld.keyed.keys, hheld.keyed.source, hheld.keyed.apart, fun n hn => ?_⟩, hnumbers,
      r, horigin, trueTo_self hthen hcontent.symm⟩
    obtain ⟨cids, hcids, -, -⟩ := hnumbers n hn
    exact Pairing.lookup_isSome.mp (by simp [hcids])
  · have horigin : (h.record a a' (.restore v.versionNo x.1.sectionId)).origin row.id =
        h.origin row.id := by simp [History.record, hrid]
    have hgone : (h.record a a' (.restore v.versionNo x.1.sectionId)).gone row.id =
        h.gone row.id := by simp [History.record, hrid]
    rw [if_neg hrid]
    exact hheld.of_record horigin hgone

theorem Restorable.step {st st' : Archive ι σ δ × History ι σ} {event : ArchiveEvent ι σ}
    (hst : Restorable src st) (hstep : toldStep src digest st event = some st')
    (hsafe : EventSafe src st event) : Restorable src st' := by
  obtain ⟨a, h⟩ := st
  have hrecorded : Recorded a h := hst.recorded
  obtain ⟨a', ha', rfl⟩ := Option.map_eq_some_iff.mp hstep
  cases event with
  | snapshot reason =>
    have hafter : Recorded a' (h.record a a' (.snapshot reason)) := by
      obtain rfl := Option.some.inj ha'
      exact hrecorded.snapshot hst.ids (.inr rfl)
    have hrows : ∀ row ∈ a.report.sections,
        Held src a.report.sources (h.record a a' (.snapshot reason)) row := fun row hrow =>
      (hst.rows row hrow).of_record rfl rfl
    obtain rfl := Option.some.inj ha'
    exact ⟨hst.ids, hrows, hafter⟩
  | toggle sid included => exact hst.toggle ha' hsafe
  | restore no id => exact hst.restore ha' hsafe

omit [DecidableEq δ] in
theorem restorable_told {report : Report ι σ} (hids : (report.sections.map (·.id)).Nodup)
    (hstart : ∀ row ∈ report.sections, Numbered src report.sources row) :
    Restorable src (told report : Archive ι σ δ × History ι σ) := by
  refine ⟨hids, fun row hrow => ?_, ⟨.nil, by simp [told], by simp [told]⟩⟩
  have hnumbered := hstart row hrow
  refine ⟨hnumbered.keyed, hnumbered.numbersTrue, row, ?_, trueTo_self hnumbered.numbersTrue rfl⟩
  obtain ⟨r, hr⟩ : ∃ r, report.sections.find? (fun x => x.id = row.id) = some r :=
    Option.isSome_iff_exists.mp (List.find?_isSome.mpr ⟨row, hrow, by simp⟩)
  have hid : r.id = row.id := by simpa using List.find?_some hr
  have hsame := List.inj_on_of_nodup_map hids (List.mem_of_find?_eq_some hr) hrow hid
  simp [told, hr, hsame]

/-- Every section is true to the text it was last put back from. -/
def Restored (src : ι → Option σ) (state : Archive ι σ δ × History ι σ) : Prop :=
  ∀ row ∈ state.1.report.sections, ∃ origin, state.2.origin row.id = some origin ∧
    TrueTo src state.1.report.sources (state.2.gone row.id) origin row

/-- In a history whose restores put back numbers that still denote what they denoted, every text
stays true to the one it was put back from. -/
theorem restored_along {report : Report ι σ} {events : List (ArchiveEvent ι σ)}
    (hids : (report.sections.map (·.id)).Nodup)
    (hstart : ∀ row ∈ report.sections, Numbered src report.sources row)
    (hsafe : Runs.Along (toldStep src digest) (fun st event _ => EventSafe src st event)
      (told report) events) :
    Runs.Always (toldStep src digest) (Restored src) (told report) events := by
  have hrun := Runs.always_of_step (fun _ _ _ hstep hok hst => Restorable.step hst hstep hok)
    (restorable_told hids hstart) hsafe
  exact hrun.mono fun _ hst row hrow => (hst.rows row hrow).trueTo

instance {g : ι → Option Nat} {row : Section ι} : Decidable (NumbersTrue g row) :=
  decidable_of_iff (∀ n ∈ numbersInOrder row.content,
      (row.sectionMeta.citationChunks.lookup n).any fun cids =>
        !cids.isEmpty && cids.all fun c => g c = some n)
    (forall₂_congr fun n _ => by
      cases row.sectionMeta.citationChunks.lookup n <;> simp)

instance {no : Nat} {id : ι} : Decidable (RestoreSafe src a h no id) :=
  inferInstanceAs (Decidable (∀ r ∈ h.frozenAt no, r.id = id → ∀ row ∈ a.report.sections,
    row.id = id → _ ∧ _))

instance {st : Archive ι σ δ × History ι σ} :
    (event : ArchiveEvent ι σ) → Decidable (EventSafe src st event)
  | .snapshot _ => isTrue trivial
  | .toggle sid included => inferInstanceAs (Decidable (SeamsSafe src st.1.report (sid, included)))
  | .restore no id => inferInstanceAs (Decidable (RestoreSafe src st.1 st.2 no id))

/-- The last source goes and comes back before the text is put back. -/
theorem restored_last_source :
    Runs.Always (toldStep some id)
      (Restored some)
      (told (threeSources "가 (출처 1)[2]".toList [(1, [1]), (2, [2])]))
      [.snapshot "assemble".toList, .toggle 3 false, .toggle 3 true, .restore 1 0,
        .toggle 2 false] :=
  restored_along (by decide) (by decide) (by decide)

/-- An earlier source goes between the snapshot and the restore. -/
theorem not_restored_moved :
    ¬ ∀ (report : Report Nat Nat) (events : List (ArchiveEvent Nat Nat)),
      (report.sections.map (·.id)).Nodup →
      (∀ row ∈ report.sections, Numbered some report.sources row) →
      Runs.Always (toldStep some (id : _ → List (SectionSnap Nat))) (Restored some)
        (told report) events := by
  intro h
  have hrun := h (threeSources "나 (출처 2)".toList [(2, [2])])
    [.snapshot "assemble".toList, .toggle 1 false, .restore 1 0] (by decide)
    (by decide)
  obtain ⟨origin, horigin, F, hmarks, hF⟩ :=
    ((((hrun.2 _ rfl).2 _ rfl).2 _ rfl) _ (List.mem_singleton.mpr rfl))
  have hlists : markLists origin.content = [[2]] := by
    have hsome := congrArg (Option.map fun r => markLists r.content) horigin
    exact (Option.some.inj (hsome.symm.trans (by decide)))
  have hlookup : origin.sectionMeta.citationChunks.lookup 2 = some [2] := by
    have hsome := congrArg (Option.map fun r => r.sectionMeta.citationChunks.lookup 2) horigin
    exact (Option.some.inj (hsome.symm.trans (by decide)))
  have hmem : 2 ∈ numbersInOrder origin.content := mem_markLists.2 ⟨[2], by simp [hlists], by simp⟩
  have hkept : (markLists origin.content).filterMap (carried F) = markLists origin.content := by
    rw [← hmarks, hlists]
    decide
  obtain ⟨s, ⟨cids, hcids, hne, hall⟩, hnumber, -⟩ := hF 2 hmem
  obtain rfl := Option.some.inj (hlookup.symm.trans hcids)
  obtain rfl := Option.some.inj (hall 2 (by simp))
  have hrank := hnumber 2 (id_of_markLists hkept 2 hmem)
  revert hrank
  decide

end RownRg.Sections

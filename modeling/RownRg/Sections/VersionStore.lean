import Mathlib
import RownRg.Sections.Store
import RownRg.Sections.VersionDiff

/-! The versions of a report: which are made, which are kept, and how their contents are told
apart. -/

open PyText

namespace RownRg.Sections

/-- A row of the version table. -/
structure VersionRow (η : Type) where
  versionNo : Nat
  reason : Text
  sections : List (SnapSection Uuid)
  contentHash : η

variable {δ η : Type} [DecidableEq η] {sha1 : ByteArray → η} {rows : List (SectionRow δ)}
  {versions made : List (VersionRow η)} {v w : VersionRow η} {reason : Text} {k n : Nat}
  {a b : List (SnapSection Uuid)} {s t : SnapSection Uuid}

def rowSnap (r : SectionRow δ) : SnapSection Uuid where
  sectionId := r.id
  chapterNumber := r.chapterNumber
  sectionNumber := r.sectionNumber
  chapterTitle := r.chapterTitle
  title := r.title
  content := r.content
  sourceIds := r.sourceIds

/-- The order of `sorted(rows, key=lambda r: (r.chapter_number, r.section_number))`. -/
def rowInOrder (r r' : SectionRow δ) : Bool :=
  r.chapterNumber < r'.chapterNumber ||
    (r.chapterNumber = r'.chapterNumber && r.sectionNumber ≤ r'.sectionNumber)

def snapshotRows (rows : List (SectionRow δ)) : List (SnapSection Uuid) :=
  (rows.insertionSort fun r r' => rowInOrder r r').map rowSnap

/-- What one section adds to the hash, as text. -/
def hashedText (s : SnapSection Uuid) : Text :=
  s.sectionId.str ++ '|' :: (ofNat s.chapterNumber ++ '.' :: (ofNat s.sectionNumber ++ '|' ::
    (s.title ++ '\n' :: (s.content ++ ['\x00']))))

/-- The bytes that `_content_hash` feeds to SHA-1. -/
def hashedBytes (sections : List (SnapSection Uuid)) : ByteArray :=
  (String.ofList (sections.flatMap hashedText)).toUTF8

/-- `sha1` takes the bytes to their hexadecimal digest. -/
def contentHash (sha1 : ByteArray → η) (sections : List (SnapSection Uuid)) : η :=
  sha1 (hashedBytes sections)

/-- `reason.startswith(_CHURN_PREFIXES)` -/
def churn (v : VersionRow η) : Bool := churnPrefixes.any fun p => p.isPrefixOf v.reason

/-- `prune_versions` on the rows of a project, newest first. -/
def pruneRows (versions : List (VersionRow η)) : List (VersionRow η) :=
  let doomed := ((versions.filter churn).drop keepRecentChurn).map (·.versionNo)
  versions.filter fun v => v.versionNo ∉ doomed

/-- `snapshot_report` on the rows of a project, newest first. -/
def snapshotVersion (sha1 : ByteArray → η) (reason : Text) (rows : List (SectionRow δ))
    (versions : List (VersionRow η)) : Option Nat × List (VersionRow η) :=
  let sections := snapshotRows rows
  if !sections.any fun s => !(strip s.content).isEmpty then (none, versions)
  else
    let digest := contentHash sha1 sections
    match versions.head? with
    | none => (some 1, pruneRows (⟨1, reason, sections, digest⟩ :: versions))
    | some latest =>
      if latest.contentHash = digest then (some latest.versionNo, versions)
      else
        (some (latest.versionNo + 1),
          pruneRows (⟨latest.versionNo + 1, reason, sections, digest⟩ :: versions))

/-- A call of `snapshot_report`: why, and the section rows of that moment. -/
structure SnapshotCall (δ : Type) where
  reason : Text
  rows : List (SectionRow δ)

/-- The version table, and every version that was ever made, newest first: history that no
operation reads. -/
structure Journal (η : Type) where
  versions : List (VersionRow η)
  made : List (VersionRow η)

def Journal.step (sha1 : ByteArray → η) (j : Journal η) (call : SnapshotCall δ) : Journal η :=
  let versions := (snapshotVersion sha1 call.reason call.rows j.versions).2
  ⟨versions, (versions.filter fun v => v.versionNo ∉ j.made.map (·.versionNo)) ++ j.made⟩

/-- The calls one at a time, from a project without versions. -/
def journal (sha1 : ByteArray → η) (calls : List (SnapshotCall δ)) : Journal η :=
  calls.foldl (Journal.step sha1) ⟨[], []⟩

/-- A version without what the comparison alone reads. -/
def VersionRow.untitled (v : VersionRow η) : ReportVersion Uuid η :=
  ⟨v.versionNo, v.reason, v.sections.map (·.toSectionSnap), v.contentHash⟩

omit [DecidableEq η] in
theorem untitled_pruneRows (versions : List (VersionRow η)) :
    (pruneRows versions).map VersionRow.untitled =
      pruneVersions (versions.map VersionRow.untitled) := by
  have hchurn : (versions.map VersionRow.untitled).filter isChurn =
      (versions.filter churn).map VersionRow.untitled := by
    rw [List.filter_map]
    rfl
  rw [pruneRows, pruneVersions, hchurn, ← List.map_drop, List.map_map, List.filter_map]
  rfl

/-! What pruning keeps. -/

/-- All but the churn behind the first `k` of it. -/
def keepFrom : Nat → List (VersionRow η) → List (VersionRow η)
  | _, [] => []
  | 0, v :: rest => if churn v then keepFrom 0 rest else v :: keepFrom 0 rest
  | k + 1, v :: rest => if churn v then v :: keepFrom k rest else v :: keepFrom (k + 1) rest

omit [DecidableEq η] in
theorem keepFrom_milestone (h : ¬ churn v) (k : Nat) (rest : List (VersionRow η)) :
    keepFrom k (v :: rest) = v :: keepFrom k rest := by
  cases k with
  | zero => exact if_neg h
  | succ k => exact if_neg h

omit [DecidableEq η] in
theorem keepFrom_zero (h : churn v) (rest : List (VersionRow η)) :
    keepFrom 0 (v :: rest) = keepFrom 0 rest :=
  if_pos h

omit [DecidableEq η] in
theorem keepFrom_succ (h : churn v) (k : Nat) (rest : List (VersionRow η)) :
    keepFrom (k + 1) (v :: rest) = v :: keepFrom k rest :=
  if_pos h

omit [DecidableEq η] in
theorem pruneRows_eq_keepFrom (hdistinct : (versions.map (·.versionNo)).Nodup) (k : Nat) :
    (versions.filter fun v =>
      decide (v.versionNo ∉ ((versions.filter churn).drop k).map (·.versionNo))) =
      keepFrom k versions := by
  induction versions generalizing k with
  | nil => cases k <;> rfl
  | cons v rest ih =>
    obtain ⟨hv, hrest⟩ := List.nodup_cons.mp hdistinct
    have hstays : ∀ l : List (VersionRow η), l.Sublist rest →
        (v :: rest).filter (fun w => decide (w.versionNo ∉ l.map (·.versionNo))) =
          v :: rest.filter fun w => decide (w.versionNo ∉ l.map (·.versionNo)) := by
      intro l hl
      refine List.filter_cons_of_pos ?_
      rw [decide_eq_true_eq]
      exact fun h => hv ((hl.map _).subset h)
    have hpart : ∀ k, ((rest.filter churn).drop k).Sublist rest := fun k =>
      (List.drop_sublist _ _).trans List.filter_sublist
    by_cases hchurn : churn v
    · cases k with
      | zero =>
        rw [keepFrom_zero hchurn, ← ih hrest 0]
        rw [List.filter_cons_of_pos hchurn, List.drop_zero, List.drop_zero]
        rw [List.filter_cons_of_neg (by simp)]
        refine List.filter_congr fun w hw => ?_
        have hne : w.versionNo ≠ v.versionNo := fun h =>
          hv (List.mem_map.mpr ⟨w, hw, h⟩)
        simp [hne]
      | succ k =>
        rw [keepFrom_succ hchurn, ← ih hrest k]
        rw [List.filter_cons_of_pos hchurn, List.drop_succ_cons, hstays _ (hpart k)]
    · rw [keepFrom_milestone hchurn, ← ih hrest k, List.filter_cons_of_neg hchurn,
        hstays _ (hpart k)]

omit [DecidableEq η] in
theorem keepFrom_keepFrom (h : k ≤ n) (versions : List (VersionRow η)) :
    keepFrom k (keepFrom n versions) = keepFrom k versions := by
  induction versions generalizing k n with
  | nil => cases n <;> rfl
  | cons v rest ih =>
    by_cases hchurn : churn v
    · cases k with
      | zero =>
        cases n with
        | zero => rw [keepFrom_zero hchurn, ih (le_refl 0)]
        | succ n => rw [keepFrom_succ hchurn, keepFrom_zero hchurn, keepFrom_zero hchurn,
            ih (Nat.zero_le n)]
      | succ k =>
        cases n with
        | zero => omega
        | succ n => rw [keepFrom_succ hchurn, keepFrom_succ hchurn, keepFrom_succ hchurn,
            ih (Nat.le_of_succ_le_succ h)]
    · rw [keepFrom_milestone hchurn, keepFrom_milestone hchurn, keepFrom_milestone hchurn, ih h]

omit [DecidableEq η] in
theorem keepFrom_sublist (k : Nat) (versions : List (VersionRow η)) :
    (keepFrom k versions).Sublist versions := by
  induction versions generalizing k with
  | nil => cases k <;> exact .slnil
  | cons v rest ih =>
    by_cases hchurn : churn v
    · cases k with
      | zero =>
        rw [keepFrom_zero hchurn]
        exact (ih 0).cons v
      | succ k =>
        rw [keepFrom_succ hchurn]
        exact (ih k).cons_cons v
    · rw [keepFrom_milestone hchurn]
      exact (ih k).cons_cons v

omit [DecidableEq η] in
/-- Milestones stay, and the first `k` of the churn. -/
theorem mem_keepFrom (h : v ∈ versions) :
    (churn v = false → v ∈ keepFrom k versions) ∧
      (v ∈ (versions.filter churn).take k → v ∈ keepFrom k versions) := by
  induction versions generalizing k with
  | nil => cases h
  | cons w rest ih =>
    by_cases hchurn : churn w
    · cases k with
      | zero =>
        rw [keepFrom_zero hchurn, List.take_zero]
        refine ⟨fun hv => ?_, fun hv => by cases hv⟩
        rcases List.mem_cons.mp h with rfl | h
        · rw [hchurn] at hv
          cases hv
        · exact (ih h).1 hv
      | succ k =>
        rw [keepFrom_succ hchurn, List.filter_cons_of_pos hchurn, List.take_succ_cons]
        refine ⟨fun hv => ?_, fun hv => ?_⟩
        · rcases List.mem_cons.mp h with rfl | h
          · exact List.mem_cons_self
          · exact List.mem_cons_of_mem _ ((ih h).1 hv)
        · rcases List.mem_cons.mp hv with rfl | hv
          · exact List.mem_cons_self
          · have hmem := List.mem_of_mem_filter (List.mem_of_mem_take hv)
            exact List.mem_cons_of_mem _ ((ih hmem).2 hv)
    · rw [keepFrom_milestone hchurn, List.filter_cons_of_neg hchurn]
      refine ⟨fun hv => ?_, fun hv => ?_⟩
      · rcases List.mem_cons.mp h with rfl | h
        · exact List.mem_cons_self
        · exact List.mem_cons_of_mem _ ((ih h).1 hv)
      · have hmem := List.mem_of_mem_filter (List.mem_of_mem_take hv)
        exact List.mem_cons_of_mem _ ((ih hmem).2 hv)

omit [DecidableEq η] in
theorem keepFrom_succ_cons (v : VersionRow η) (versions : List (VersionRow η)) :
    ∃ rest, keepFrom (k + 1) (v :: versions) = v :: rest ∧ rest.Sublist versions := by
  by_cases hchurn : churn v
  · exact ⟨_, keepFrom_succ hchurn k versions, keepFrom_sublist _ _⟩
  · exact ⟨_, keepFrom_milestone hchurn (k + 1) versions, keepFrom_sublist _ _⟩

omit [DecidableEq η] in
theorem head?_keepFrom (k : Nat) (versions : List (VersionRow η)) :
    (keepFrom (k + 1) versions).head? = versions.head? := by
  cases versions with
  | nil => rfl
  | cons v rest =>
    obtain ⟨tail, htail, -⟩ := keepFrom_succ_cons (k := k) v rest
    rw [htail, List.head?_cons, List.head?_cons]

omit [DecidableEq η] in
/-- Pruning after each version keeps what pruning once would keep. -/
theorem keepFrom_cons (v : VersionRow η) (versions : List (VersionRow η)) :
    keepFrom (k + 1) (v :: keepFrom (k + 1) versions) = keepFrom (k + 1) (v :: versions) := by
  by_cases hchurn : churn v
  · rw [keepFrom_succ hchurn, keepFrom_succ hchurn, keepFrom_keepFrom (Nat.le_succ k)]
  · rw [keepFrom_milestone hchurn, keepFrom_milestone hchurn, keepFrom_keepFrom (le_refl _)]

/-! The bytes tell the documents apart. -/

/-- No title breaks its line, and no text has the character that ends a section. -/
def Plain (sections : List (SnapSection Uuid)) : Prop :=
  ∀ s ∈ sections, '\n' ∉ s.title ∧ '\x00' ∉ s.title ∧ '\x00' ∉ s.content

/-- What makes the document: ids, numbers, titles and texts of the sections. -/
def document (sections : List (SnapSection Uuid)) : List (Uuid × Nat × Nat × Text × Text) :=
  sections.map fun s => (s.sectionId, s.chapterNumber, s.sectionNumber, s.title, s.content)

/-- The first of a character parts a text in one way only. -/
theorem append_cons_inj {c : Char} {x y u u' : Text} (hx : c ∉ x) (hy : c ∉ y)
    (h : x ++ c :: u = y ++ c :: u') : x = y ∧ u = u' := by
  have hpart : ∀ {w v : Text}, c ∉ w → (w ++ c :: v).takeWhile (· != c) = w := fun {w v} hw =>
    (takeWhile_append_stop (fun d hd => by simpa using fun heq : d = c => hw (heq ▸ hd))
      (by simp)).1
  have hcut := congrArg (List.takeWhile (· != c)) h
  rw [hpart hx, hpart hy] at hcut
  subst hcut
  exact ⟨rfl, (List.cons.inj (List.append_cancel_left h)).2⟩

/-- The text of a section up to the character that ends it. -/
def sectionText (s : SnapSection Uuid) : Text :=
  s.sectionId.str ++ '|' :: (ofNat s.chapterNumber ++ '.' :: (ofNat s.sectionNumber ++ '|' ::
    (s.title ++ '\n' :: s.content)))

theorem hashedText_eq (s : SnapSection Uuid) : hashedText s = sectionText s ++ ['\x00'] := by
  simp [hashedText, sectionText]

theorem notMem_ofNat {c : Char} (hc : isDigit c = false) (n : Nat) : c ∉ ofNat n := by
  intro h
  rw [isDigit_of_mem_ofNat h] at hc
  cases hc

theorem null_notMem_sectionText (htitle : '\x00' ∉ s.title) (hcontent : '\x00' ∉ s.content) :
    '\x00' ∉ sectionText s := by
  have hid : '\x00' ∉ s.sectionId.str := Uuid.notMem_str (by decide) (by decide) _
  have hno := fun n => notMem_ofNat (c := '\x00') (by decide) n
  simp [sectionText, hid, hno, htitle, hcontent]

theorem sectionText_injective (hs : '\n' ∉ s.title) (ht : '\n' ∉ t.title)
    (h : sectionText s = sectionText t) : document [s] = document [t] := by
  have hbar := fun u : Uuid => Uuid.notMem_str (d := '|') (by decide) (by decide) u
  have hdot := fun n => notMem_ofNat (c := '.') (by decide) n
  have hnumber := fun n => notMem_ofNat (c := '|') (by decide) n
  obtain ⟨hid, h⟩ := append_cons_inj (hbar _) (hbar _) h
  obtain ⟨hchapter, h⟩ := append_cons_inj (hdot _) (hdot _) h
  obtain ⟨hsection, h⟩ := append_cons_inj (hnumber _) (hnumber _) h
  obtain ⟨htitle, hcontent⟩ := append_cons_inj hs ht h
  simp [document, Uuid.str_injective hid, ofNat_injective hchapter, ofNat_injective hsection, htitle,
    hcontent]

theorem hashedBytes_injective (ha : Plain a) (hb : Plain b) (h : hashedBytes a = hashedBytes b) :
    document a = document b := by
  have htext : a.flatMap hashedText = b.flatMap hashedText :=
    String.ofList_injective (String.toByteArray_inj.mp h)
  clear h
  induction a generalizing b with
  | nil =>
    cases b with
    | nil => rfl
    | cons t b => simp [hashedText_eq] at htext
  | cons s a ih =>
    cases b with
    | nil => simp [hashedText_eq] at htext
    | cons t b =>
      obtain ⟨hline, hnull, hzero⟩ := ha s List.mem_cons_self
      obtain ⟨hline', hnull', hzero'⟩ := hb t List.mem_cons_self
      simp only [List.flatMap_cons, hashedText_eq, List.append_assoc, List.singleton_append]
        at htext
      obtain ⟨hfirst, hrest⟩ := append_cons_inj (null_notMem_sectionText hnull hzero)
        (null_notMem_sectionText hnull' hzero') htext
      have htail := ih (fun u hu => ha u (List.mem_cons_of_mem _ hu))
        (fun u hu => hb u (List.mem_cons_of_mem _ hu)) hrest
      have hhead := sectionText_injective hline hline' hfirst
      simp only [document, List.map_cons, List.map_nil] at hhead htail ⊢
      rw [htail, (List.cons.inj hhead).1]

/-! The journal. -/

/-- Table and history agree. -/
structure Journal.Kept (sha1 : ByteArray → η) (j : Journal η) : Prop where
  table : j.versions = keepFrom keepRecentChurn j.made
  numbers : j.made.Pairwise fun v w => w.versionNo < v.versionNo
  hashed : ∀ v ∈ j.made, v.contentHash = contentHash sha1 v.sections
  apart : j.made.IsChain fun v w => v.contentHash ≠ w.contentHash

omit [DecidableEq η] in
theorem nodup_numbers (h : versions.Pairwise fun v w => w.versionNo < v.versionNo) :
    (versions.map (·.versionNo)).Nodup := by
  refine List.pairwise_map.mpr (h.imp fun hlt => ?_)
  omega

omit [DecidableEq η] in
theorem pruneRows_eq (h : versions.Pairwise fun v w => w.versionNo < v.versionNo) :
    pruneRows versions = keepFrom keepRecentChurn versions :=
  pruneRows_eq_keepFrom (nodup_numbers h) keepRecentChurn

/-- Some section has more than blanks. -/
def hasText (rows : List (SectionRow δ)) : Bool :=
  (snapshotRows rows).any fun s => !(strip s.content).isEmpty

/-- What a call does: nothing, where there is no text or the newest version has its hash, or a new
version in front of all. -/
theorem step_cases {j : Journal η} (hj : j.Kept sha1) (call : SnapshotCall δ) :
    (j.step sha1 call = j ∧ (hasText call.rows = true → ∃ v, j.made.head? = some v ∧
      v.contentHash = contentHash sha1 (snapshotRows call.rows))) ∨
    ∃ v, (j.step sha1 call).made = v :: j.made ∧
      (j.step sha1 call).versions = keepFrom keepRecentChurn (v :: j.made) ∧
      v.sections = snapshotRows call.rows ∧
      v.contentHash = contentHash sha1 v.sections ∧
      (∀ w ∈ j.made, w.versionNo < v.versionNo) ∧
      ∀ w, j.made.head? = some w → v.contentHash ≠ w.contentHash := by
  have hsub : j.versions.Sublist j.made := by
    rw [hj.table]
    exact keepFrom_sublist _ _
  have hhead : j.versions.head? = j.made.head? := by
    rw [hj.table]
    exact head?_keepFrom 19 j.made
  have hstay : (snapshotVersion sha1 call.reason call.rows j.versions).2 = j.versions →
      j.step sha1 call = j := by
    intro h
    have hnone : j.versions.filter (fun v => decide (v.versionNo ∉ j.made.map (·.versionNo))) =
        [] := by
      refine List.filter_eq_nil_iff.mpr fun v hv => ?_
      simpa using ⟨v, hsub.subset hv, rfl⟩
    unfold Journal.step
    rw [h]
    simp only [hnone, List.nil_append]
  have hnew : ∀ v : VersionRow η, (∀ w ∈ j.made, w.versionNo < v.versionNo) →
      (snapshotVersion sha1 call.reason call.rows j.versions).2 = pruneRows (v :: j.versions) →
      (j.step sha1 call).made = v :: j.made ∧
      (j.step sha1 call).versions = keepFrom keepRecentChurn (v :: j.made) := by
    intro v hv h
    have hpairs : (v :: j.versions).Pairwise fun v w => w.versionNo < v.versionNo :=
      List.pairwise_cons.mpr ⟨fun w hw => hv w (hsub.subset hw), hj.numbers.sublist hsub⟩
    have hkept : (snapshotVersion sha1 call.reason call.rows j.versions).2 =
        keepFrom keepRecentChurn (v :: j.made) := by
      rw [h, pruneRows_eq hpairs, hj.table]
      exact keepFrom_cons (k := 19) v j.made
    obtain ⟨rest, hrest, hpart⟩ := keepFrom_succ_cons (k := 19) v j.made
    have hold : rest.filter (fun w => decide (w.versionNo ∉ j.made.map (·.versionNo))) = [] := by
      refine List.filter_eq_nil_iff.mpr fun w hw => ?_
      simpa using ⟨w, hpart.subset hw, rfl⟩
    have hfresh : v.versionNo ∉ j.made.map (·.versionNo) := by
      intro hmem
      obtain ⟨w, hw, heq⟩ := List.mem_map.mp hmem
      exact absurd (hv w hw) (by omega)
    refine ⟨?_, hkept⟩
    unfold Journal.step
    rw [hkept]
    simp only
    rw [show keepFrom keepRecentChurn (v :: j.made) = v :: rest from hrest,
      List.filter_cons_of_pos (by simpa using hfresh), hold]
    rfl
  unfold hasText
  by_cases htext : (snapshotRows call.rows).any fun s => !(strip s.content).isEmpty
  · cases hlatest : j.made.head? with
    | none =>
      have hempty : j.made = [] := List.head?_eq_none_iff.mp hlatest
      obtain ⟨hmade, htable⟩ := hnew
        ⟨1, call.reason, snapshotRows call.rows, contentHash sha1 (snapshotRows call.rows)⟩
        (by simp [hempty]) (by simp [snapshotVersion, htext, hhead, hlatest])
      exact .inr ⟨_, hmade, htable, rfl, rfl, by simp [hempty], by simp⟩
    | some latest =>
      by_cases hsame : latest.contentHash = contentHash sha1 (snapshotRows call.rows)
      · refine .inl ⟨hstay (by simp [snapshotVersion, htext, hhead, hlatest, hsame]), fun _ => ?_⟩
        exact ⟨latest, rfl, hsame⟩
      · have hbelow : ∀ w ∈ j.made, w.versionNo < latest.versionNo + 1 := by
          obtain ⟨rest, hmade⟩ := List.head?_eq_some_iff.mp hlatest
          intro w hw
          rw [hmade] at hw
          have hnumbers := hj.numbers
          rw [hmade] at hnumbers
          rcases List.mem_cons.mp hw with rfl | hw
          · exact Nat.lt_succ_self _
          · exact Nat.lt_succ_of_lt (List.rel_of_pairwise_cons hnumbers hw)
        obtain ⟨hmade, htable⟩ := hnew
          ⟨latest.versionNo + 1, call.reason, snapshotRows call.rows,
            contentHash sha1 (snapshotRows call.rows)⟩
          hbelow (by simp [snapshotVersion, htext, hhead, hlatest, hsame])
        refine .inr ⟨_, hmade, htable, rfl, rfl, hbelow, fun w hw => ?_⟩
        obtain rfl := Option.some.inj hw
        exact fun h => hsame h.symm
  · exact .inl ⟨hstay (by simp [snapshotVersion, htext]), fun h => absurd h htext⟩

theorem Journal.Kept.step {j : Journal η} (hj : j.Kept sha1) (call : SnapshotCall δ) :
    (j.step sha1 call).Kept sha1 := by
  rcases step_cases hj call with ⟨hsame, -⟩ | ⟨v, hmade, htable, -, hhash, hbelow, hdiffer⟩
  · rwa [hsame]
  · refine ⟨by rw [htable, hmade], ?_, ?_, ?_⟩
    · rw [hmade]
      exact List.pairwise_cons.mpr ⟨hbelow, hj.numbers⟩
    · rw [hmade]
      intro w hw
      rcases List.mem_cons.mp hw with rfl | hw
      · exact hhash
      · exact hj.hashed w hw
    · rw [hmade]
      exact List.isChain_cons.mpr ⟨fun w hw => hdiffer w hw, hj.apart⟩

theorem kept_journal (sha1 : ByteArray → η) (calls : List (SnapshotCall δ)) :
    (journal sha1 calls).Kept sha1 := by
  have hstart : (⟨[], []⟩ : Journal η).Kept sha1 := ⟨rfl, .nil, by simp, .nil⟩
  have hrun : ∀ (calls : List (SnapshotCall δ)) (j : Journal η), j.Kept sha1 →
      (calls.foldl (Journal.step sha1) j).Kept sha1 := by
    intro calls
    induction calls with
    | nil => exact fun j hj => hj
    | cons call calls ih => exact fun j hj => ih _ (hj.step call)
  exact hrun calls _ hstart

/-- What holds of the versions of a report after any calls, and of one more. -/
theorem versions_kept (hsha1 : Function.Injective sha1) (calls : List (SnapshotCall δ)) :
    (journal sha1 calls).made.Pairwise (fun v w => w.versionNo < v.versionNo) ∧
    (∀ v ∈ (journal sha1 calls).versions, v ∈ (journal sha1 calls).made) ∧
    (∀ v ∈ (journal sha1 calls).made, churn v = false → v ∈ (journal sha1 calls).versions) ∧
    (∀ v ∈ ((journal sha1 calls).made.filter churn).take keepRecentChurn,
      v ∈ (journal sha1 calls).versions) ∧
    (journal sha1 calls).versions.head? = (journal sha1 calls).made.head? ∧
    (journal sha1 calls).made.IsChain (fun v w => v.sections ≠ w.sections) ∧
    (∀ call : SnapshotCall δ, hasText call.rows = true →
      (∀ latest, (journal sha1 calls).made.head? = some latest →
        Plain latest.sections ∧ Plain (snapshotRows call.rows) ∧
          document latest.sections ≠ document (snapshotRows call.rows)) →
      ∃ v, (journal sha1 (calls ++ [call])).made = v :: (journal sha1 calls).made ∧
        v.sections = snapshotRows call.rows) ∧
    ∀ a b, Plain a → Plain b → hashedBytes a = hashedBytes b → document a = document b := by
  have hj := kept_journal sha1 calls
  have hnext : ∀ call, journal sha1 (calls ++ [call]) = (journal sha1 calls).step sha1 call := by
    intro call
    rw [journal, List.foldl_append]
    rfl
  generalize journal sha1 calls = j at hj hnext ⊢
  have hmem : ∀ v ∈ j.made, (churn v = false → v ∈ j.versions) ∧
      (v ∈ (j.made.filter churn).take keepRecentChurn → v ∈ j.versions) := by
    intro v hv
    rw [hj.table]
    exact mem_keepFrom hv
  refine ⟨hj.numbers, ?_, fun v hv => (hmem v hv).1, fun v hv => ?_, ?_, ?_, ?_,
    fun a b => hashedBytes_injective⟩
  · rw [hj.table]
    exact fun v hv => (keepFrom_sublist _ _).subset hv
  · exact (hmem v (List.mem_of_mem_filter (List.mem_of_mem_take hv))).2 hv
  · rw [hj.table]
    cases j.made with
    | nil => rfl
    | cons v rest =>
      obtain ⟨tail, htail, -⟩ := keepFrom_succ_cons (k := 19) v rest
      rw [show keepRecentChurn = 19 + 1 from rfl, htail, List.head?_cons, List.head?_cons]
  · refine List.IsChain.imp_of_mem_imp (fun v w hv hw hne heq => hne ?_) hj.apart
    rw [hj.hashed v hv, hj.hashed w hw, heq]
  · intro call htext hdiffer
    rw [hnext]
    rcases step_cases hj call with ⟨-, hold⟩ | ⟨v, hmade, -, hsections, -⟩
    · obtain ⟨latest, hlatest, hhash⟩ := hold htext
      obtain ⟨hplain, hplain', hne⟩ := hdiffer latest hlatest
      rw [hj.hashed latest (List.mem_of_mem_head? hlatest)] at hhash
      exact absurd (hashedBytes_injective hplain hplain' (hsha1 hhash)) hne
    · exact ⟨v, hmade, hsections⟩

/-- A report of one section with the text. -/
def loneRow (content : Text) : SectionRow Unit where
  id := ⟨List.replicate 32 '0', rfl, rfl⟩
  chapterNumber := 1
  sectionNumber := 1
  chapterTitle := "개요".toList
  title := "배경".toList
  content := content
  sourceIds := []
  planHash := none
  locked := false
  rowMeta := []
  qaStatus := .pending
  status := .completed
  createdAt := 0

theorem versions_kept_edited :
    (journal (id : ByteArray → ByteArray) [⟨"assemble".toList, [loneRow "가".toList]⟩]).versions.head? =
      (journal id [⟨"assemble".toList, [loneRow "가".toList]⟩]).made.head? ∧
    ∃ v, (journal (id : ByteArray → ByteArray) ([⟨"assemble".toList, [loneRow "가".toList]⟩] ++
        [⟨"edit:1.1".toList, [loneRow "나".toList]⟩])).made =
      v :: (journal id [⟨"assemble".toList, [loneRow "가".toList]⟩]).made ∧
      v.sections = snapshotRows [loneRow "나".toList] := by
  obtain ⟨-, -, -, -, hhead, -, hmore, -⟩ := versions_kept
    (Function.injective_id : Function.Injective (id : ByteArray → ByteArray))
    [⟨"assemble".toList, [loneRow "가".toList]⟩]
  refine ⟨hhead, hmore ⟨"edit:1.1".toList, [loneRow "나".toList]⟩ (by decide)
    fun latest hlatest => ?_⟩
  have hsections : (journal (id : ByteArray → ByteArray)
      [⟨"assemble".toList, [loneRow "가".toList]⟩]).made.head?.map (·.sections) =
      some (snapshotRows [loneRow "가".toList]) := by
    decide
  rw [hlatest] at hsections
  have hfirst : latest.sections = snapshotRows [loneRow "가".toList] := Option.some.inj hsections
  rw [hfirst]
  exact ⟨by simp [Plain, snapshotRows, rowSnap, loneRow], by simp [Plain, snapshotRows, rowSnap, loneRow],
    by decide⟩

/-- A change taken back, a milestone, and twenty more changes. -/
def takenBack : List (SnapshotCall Unit) :=
  [⟨"assemble".toList, [loneRow "가".toList]⟩, ⟨"edit:1.1".toList, [loneRow "나".toList]⟩,
    ⟨"finalize".toList, [loneRow "가".toList]⟩] ++
    (List.range 20).map fun i => ⟨"edit:1.1".toList, [loneRow (ofNat i)]⟩

/-- Once the change is pruned, the milestones in front of it and behind it are neighbours. And a
line break in a title moves into the text. -/
theorem not_neighbours_differ :
    (¬ ∀ calls : List (SnapshotCall Unit),
      (journal (id : ByteArray → ByteArray) calls).versions.IsChain
        fun v w => v.sections ≠ w.sections) ∧
    ¬ ∀ a b, hashedBytes a = hashedBytes b → document a = document b := by
  constructor
  · intro h
    have hchain := List.isChain_map_of_isChain (S := (· ≠ ·)) VersionRow.sections
      (fun v w hne => hne) (h takenBack)
    have hlast : ((journal (id : ByteArray → ByteArray) takenBack).versions.map
        VersionRow.sections).drop 20 =
        [snapshotRows [loneRow "가".toList], snapshotRows [loneRow "가".toList]] := by
      decide
    have hdrop := hchain.drop 20
    rw [hlast] at hdrop
    simp at hdrop
  · intro h
    have heq := h [{ rowSnap (loneRow "다".toList) with title := "가\n나".toList }]
      [{ rowSnap (loneRow "나\n다".toList) with title := "가".toList }] (by decide)
    exact absurd heq (by decide)

end RownRg.Sections

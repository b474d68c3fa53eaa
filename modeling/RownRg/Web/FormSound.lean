import RownRg.Core.OutlineNormal
import RownRg.Lib.Dedup
import RownRg.Web.FollowedRefs
import RownRg.Web.Validation

/-! A draft that the form lets through, at the server. -/

open PyText

namespace RownRg.Web

open Outlines (Outline OutlineSection OutlineChapter normalizeOutline normalizeRef normalizeRefs
  normalizeSection positionMaps formatChapterToken formatSectionToken mapSections ensureOutlineIds)

def submittedSection (s : DraftSection) : OutlineSection where
  id := some s.id
  title := Script.trim s.title
  direction := Script.trim s.direction
  keyPoints := trimmed s.keyPoints
  analysts := s.analysts
  buildsOn := trimmed s.buildsOn
  volume := ⟨.null, .null⟩
  volumeTarget := none

def submittedChapter (ch : DraftChapter) : OutlineChapter where
  id := some ch.id
  title := Script.trim ch.title
  sections := (titledSections ch).map submittedSection

/-- What is submitted: sections with a title, and chapters with such sections. -/
def toOutline (d : Draft) : Option Outline :=
  let cleaned := (d.map submittedChapter).filter fun ch => !ch.sections.isEmpty
  if cleaned.isEmpty then none else some cleaned

/-- The item that a reference names in the editor, and the metric it asks for. -/
def refTarget (d : Draft) (raw : Text) : Option (Item × Option Text) :=
  (names d raw).map fun x =>
    (x, (((parseRefLabel raw).bind (·.metric)).map Script.trim).filter fun t => !t.isEmpty)

def targetToken : Item × Option Text → Text
  | (.chapter id, _) => formatChapterToken id
  | (.section id, metric) => formatSectionToken id metric

/-- The tokens of the references of a submitted section, each once. -/
def refTokens (d : Draft) (raws : List Text) : List Text :=
  ((raws.filterMap (refTarget d)).map targetToken).eraseDups

def NoBlocker (lower : Text → Text) (d : Draft) : Prop :=
  ∀ i ∈ collectOutlineIssues lower d, i.level ≠ .blocker

/-- What the form lets through, the server takes without an error, and every reference becomes the
token of the item it names in the editor. -/
def FormSound (lower : Text → Text) (fresh : Nat → Uuid) (d : Draft) : Prop :=
  NoBlocker lower d → ∃ o, toOutline d = some o ∧
    normalizeOutline fresh false o =
      (mapSections (fun sec => { sec with buildsOn := refTokens d sec.buildsOn }) o, []) ∧
    ∀ sec ∈ Outlines.sections o, ∀ raw ∈ sec.buildsOn, (refTarget d raw).isSome

/-- No section has more references than the server takes, where references to one item that ask
for different metrics are different. -/
def FewRefs (d : Draft) : Prop :=
  ∀ ch ∈ d, ∀ s ∈ ch.sections, titled s →
    ((trimmed s.buildsOn).map (refTarget d)).eraseDups.length ≤ BuildsOn.maxRefsPerSection

/-! Numbers after the submission. -/

variable {α : Type} {d : Draft} {ch : DraftChapter} {s : DraftSection} {st : Surviving}
  {c ci n k clean : Nat} {p : α → Bool} {xs : List α}

/-- Where the kept elements are those before the first dropped one, they keep their numbers. -/
theorem numbered_filter (h : xs.filter p = xs.takeWhile p) (n : Nat) :
    numbered (xs.filter p) n = (numbered xs n).filter p := by
  cases n with
  | zero => rfl
  | succ n =>
    change (xs.filter p)[n]? = (xs[n]?).filter p
    induction xs generalizing n with
    | nil => rfl
    | cons x xs ih =>
      by_cases hx : p x
      · rw [List.filter_cons_of_pos hx, List.takeWhile_cons_of_pos hx] at h
        rw [List.filter_cons_of_pos hx]
        cases n with
        | zero => exact (Option.filter_some_pos hx).symm
        | succ n => exact ih (List.cons.inj h).2 n
      · rw [List.filter_cons_of_neg hx, List.takeWhile_cons_of_neg hx] at h
        rw [List.filter_cons_of_neg hx, h]
        have hall := List.filter_eq_nil_iff.mp h
        cases n with
        | zero => exact (Option.filter_some_eq_none.mpr hx).symm
        | succ n =>
          rw [List.getElem?_cons_succ]
          cases hn : xs[n]? with
          | none => rfl
          | some y => exact (Option.filter_some_eq_none.mpr (hall y (List.mem_of_getElem? hn))).symm

/-- The loop over the sections of a chapter. -/
theorem surviveSections_eq (ss : List (DraftSection × Nat)) :
    (surviveSections ci ss clean st).labels = st.labels ++ (ss.filter fun y => titled y.1).map
      (fun y => BuildsOn.sectionLabel (ci + 1) (y.2 + 1)) ∧
    (surviveSections ci ss clean st).chapters = st.chapters ∧
    (surviveSections ci ss clean st).cleanCi = st.cleanCi := by
  induction ss generalizing clean st with
  | nil => simp [surviveSections]
  | cons y ss ih =>
    obtain ⟨s, si⟩ := y
    rw [surviveSections]
    split
    · rename_i hs
      obtain ⟨hlabels, hchapters, hclean⟩ := @ih { st with
        labels := st.labels ++ [BuildsOn.sectionLabel (ci + 1) (si + 1)]
        shifted := st.shifted || clean + 1 != si + 1 } (clean + 1)
      refine ⟨?_, hchapters, hclean⟩
      rw [hlabels, List.filter_cons_of_pos (by simpa using hs)]
      simp
    · rename_i hs
      rw [List.filter_cons_of_neg (by simpa using hs)]
      exact ih

theorem surviveSections_shifted (ss : List DraftSection) (hle : clean ≤ k)
    (h : (surviveSections ci (ss.zipIdx k) clean st).shifted = false) :
    st.shifted = false ∧ ss.filter titled = if clean = k then ss.takeWhile titled else [] := by
  induction ss generalizing clean k st with
  | nil => exact ⟨h, by simp⟩
  | cons s ss ih =>
    rw [List.zipIdx_cons, surviveSections] at h
    split at h
    · rename_i hs
      obtain ⟨hshifted, hrest⟩ := ih (by omega) h
      obtain ⟨hst, heq⟩ := Bool.or_eq_false_iff.mp hshifted
      obtain rfl : clean = k := by simpa using heq
      rw [if_pos rfl] at hrest ⊢
      exact ⟨hst, by rw [List.filter_cons_of_pos hs, List.takeWhile_cons_of_pos hs, hrest]⟩
    · rename_i hs
      obtain ⟨hst, hrest⟩ := ih (by omega) h
      rw [if_neg (by omega)] at hrest
      refine ⟨hst, ?_⟩
      rw [List.filter_cons_of_neg hs, List.takeWhile_cons_of_neg hs, hrest]
      split <;> rfl

/-- A chapter that is submitted. -/
def live (ch : DraftChapter) : Bool := !(titledSections ch).isEmpty

theorem surviveChapters_eq (chs : List (DraftChapter × Nat)) :
    (surviveChapters chs st).labels = st.labels ++ (chs.filter fun x => live x.1).flatMap
      (fun x => (x.1.sections.zipIdx.filter fun y => titled y.1).map
        fun y => BuildsOn.sectionLabel (x.2 + 1) (y.2 + 1)) ∧
    (surviveChapters chs st).chapters = st.chapters ++
      (chs.filter fun x => live x.1).map (fun x => x.2 + 1) := by
  induction chs generalizing st with
  | nil => simp [surviveChapters]
  | cons x chs ih =>
    obtain ⟨ch, ci⟩ := x
    rw [surviveChapters]
    split
    · rename_i hch
      rw [List.filter_cons_of_neg (by simp [live, hch])]
      exact ih
    · rename_i hch
      rw [List.filter_cons_of_pos (by simpa [live] using hch)]
      obtain ⟨hlabels, hchapters⟩ := @ih (surviveSections ci ch.sections.zipIdx 0 { st with
        cleanCi := st.cleanCi + 1
        chapters := st.chapters ++ [ci + 1]
        shifted := st.shifted || st.cleanCi + 1 != ci + 1 })
      obtain ⟨hlabels', hchapters', -⟩ := @surviveSections_eq { st with
        cleanCi := st.cleanCi + 1
        chapters := st.chapters ++ [ci + 1]
        shifted := st.shifted || st.cleanCi + 1 != ci + 1 } ci 0 ch.sections.zipIdx
      constructor
      · rw [hlabels, hlabels']
        simp
      · rw [hchapters, hchapters']
        simp

theorem surviveChapters_shifted (d : Draft) (hle : st.cleanCi ≤ k)
    (h : (surviveChapters (d.zipIdx k) st).shifted = false) :
    st.shifted = false ∧ (d.filter live = if st.cleanCi = k then d.takeWhile live else []) ∧
      ∀ ch ∈ d, ch.sections.filter titled = ch.sections.takeWhile titled := by
  induction d generalizing k st with
  | nil => exact ⟨h, by simp, by simp⟩
  | cons ch d ih =>
    rw [List.zipIdx_cons, surviveChapters] at h
    split at h
    · rename_i hch
      have hdead : ¬ live ch := by simp [live, hch]
      obtain ⟨hst, hrest, hsections⟩ := ih (by omega) h
      rw [if_neg (by omega)] at hrest
      refine ⟨hst, ?_, ?_⟩
      · rw [List.filter_cons_of_neg hdead, List.takeWhile_cons_of_neg hdead, hrest]
        split <;> rfl
      · intro ch' hch'
        rcases List.mem_cons.mp hch' with rfl | hch'
        · have hnone : ch'.sections.filter titled = [] := List.isEmpty_iff.mp hch
          rw [hnone]
          cases hss : ch'.sections with
          | nil => rfl
          | cons s ss =>
            have hs := List.filter_eq_nil_iff.mp hnone s (by simp [hss])
            rw [List.takeWhile_cons_of_neg hs]
        · exact hsections ch' hch'
    · rename_i hch
      have hlive : live ch := by simpa [live] using hch
      obtain ⟨-, -, hclean⟩ := @surviveSections_eq { st with
        cleanCi := st.cleanCi + 1
        chapters := st.chapters ++ [k + 1]
        shifted := st.shifted || st.cleanCi + 1 != k + 1 } k 0 ch.sections.zipIdx
      obtain ⟨hshifted, hrest, hsections⟩ := ih (by rw [hclean]; exact Nat.succ_le_succ hle) h
      rw [hclean] at hrest
      obtain ⟨hshifted', hfilter⟩ := surviveSections_shifted ch.sections (Nat.le_refl 0) hshifted
      obtain ⟨hst, heq⟩ := Bool.or_eq_false_iff.mp hshifted'
      have hk : st.cleanCi = k := by simpa using heq
      rw [if_pos (by simpa using hk)] at hrest
      rw [if_pos rfl] at hfilter
      refine ⟨hst, ?_, ?_⟩
      · rw [if_pos hk, List.filter_cons_of_pos hlive, List.takeWhile_cons_of_pos hlive, hrest]
      · intro ch' hch'
        rcases List.mem_cons.mp hch' with rfl | hch'
        · exact hfilter
        · exact hsections ch' hch'

theorem mem_labels {l : Text} (h : l ∈ (surviving d).labels) :
    ∃ c n s, sectionAt d c n = some s ∧ titled s ∧ l = BuildsOn.sectionLabel c n := by
  rw [surviving, (surviveChapters_eq d.zipIdx).1, List.nil_append] at h
  obtain ⟨⟨ch, ci⟩, hch, hl⟩ := List.mem_flatMap.mp h
  obtain ⟨⟨s, si⟩, hs, rfl⟩ := List.mem_map.mp hl
  obtain ⟨hs, htitled⟩ := List.mem_filter.mp hs
  have hci := List.mem_zipIdx_iff_getElem?.mp (List.mem_filter.mp hch).1
  have hsi := List.mem_zipIdx_iff_getElem?.mp hs
  have hat : sectionAt d (ci + 1) (si + 1) = some s := by
    simp only at hci hsi
    simp only [sectionAt, numbered, hci, Option.bind_some, hsi]
  exact ⟨ci + 1, si + 1, s, hat, htitled, rfl⟩

theorem mem_chapters (h : c ∈ (surviving d).chapters) : ∃ ch, numbered d c = some ch ∧ live ch := by
  rw [surviving, (surviveChapters_eq d.zipIdx).2, List.nil_append] at h
  obtain ⟨⟨ch, ci⟩, hch, rfl⟩ := List.mem_map.mp h
  obtain ⟨hch, hlive⟩ := List.mem_filter.mp hch
  exact ⟨ch, List.mem_zipIdx_iff_getElem?.mp hch, hlive⟩

/-- Without a shift the submitted outline has everything under its number in the editor. -/
structure Unshifted (d : Draft) : Prop where
  chapters : d.filter live = d.takeWhile live
  sections : ∀ ch ∈ d, ch.sections.filter titled = ch.sections.takeWhile titled

theorem unshifted (h : (surviving d).shifted = false) : Unshifted d := by
  obtain ⟨-, hchapters, hsections⟩ := surviveChapters_shifted d (Nat.le_refl 0) h
  exact ⟨hchapters, hsections⟩

/-- The chapters that are submitted. -/
def cleaned (d : Draft) : Outline := (d.filter live).map submittedChapter

theorem toOutline_eq (d : Draft) :
    toOutline d = if (cleaned d).isEmpty then none else some (cleaned d) := by
  have hlive : ((fun ch : OutlineChapter => !ch.sections.isEmpty) ∘ submittedChapter) = live := by
    funext ch
    simp [submittedChapter, live]
  rw [toOutline, List.filter_map, hlive]
  rfl

theorem numbered_cleaned (h : Unshifted d) (c : Nat) :
    numbered (cleaned d) c = ((numbered d c).filter live).map submittedChapter := by
  rw [cleaned, numbered_map, numbered_filter h.chapters]

theorem live_of_titled (hs : s ∈ ch.sections) (h : titled s) : live ch := by
  have hmem : s ∈ titledSections ch := List.mem_filter.mpr ⟨hs, h⟩
  cases hch : titledSections ch with
  | nil => rw [hch] at hmem; cases hmem
  | cons => simp [live, hch]

theorem mem_cleaned_places (h : Unshifted d) (hs : sectionAt d c n = some s) (ht : titled s) :
    (c, n, submittedSection s) ∈ Outlines.places (cleaned d) := by
  obtain ⟨ch, hch, hs⟩ := Option.bind_eq_some_iff.mp hs
  have hlive := live_of_titled (mem_of_numbered hs) ht
  have hat : numbered (cleaned d) c = some (submittedChapter ch) := by
    rw [numbered_cleaned h, hch, Option.filter_some_pos hlive, Option.map_some]
  have hin : numbered (submittedChapter ch).sections n = some (submittedSection s) := by
    rw [submittedChapter, numbered_map, titledSections,
      numbered_filter (h.sections ch (mem_of_numbered hch)), hs, Option.filter_some_pos ht,
      Option.map_some]
  exact List.mem_flatMap.mpr ⟨(submittedChapter ch, c), mem_zipIdx_one.2 hat,
    List.mem_map.mpr ⟨(submittedSection s, n), mem_zipIdx_one.2 hin, rfl⟩⟩

theorem mem_cleaned_zipIdx (h : Unshifted d) (hch : numbered d c = some ch) (hlive : live ch) :
    (submittedChapter ch, c) ∈ (cleaned d).zipIdx 1 := by
  rw [mem_zipIdx_one, numbered_cleaned h, hch, Option.filter_some_pos hlive, Option.map_some]

/-! Ids. -/

/-- The ids of a draft, in the order in which the server claims them. -/
def allIds (d : Draft) : List Text := d.flatMap fun ch => ch.id :: ch.sections.map (·.id)

/-- All ids are distinct, as the editor draws them. -/
def DistinctUuids (d : Draft) : Prop := ∃ us : List Uuid, us.Nodup ∧ allIds d = us.map Uuid.str

theorem chapterIds_sublist (d : Draft) : (chapterIds d).Sublist (allIds d) := by
  induction d with
  | nil => exact List.Sublist.refl _
  | cons ch d ih =>
    simp only [chapterIds, allIds, List.flatMap_cons, List.map_cons, List.cons_append] at ih ⊢
    exact (ih.trans (List.sublist_append_right _ _)).cons_cons _

theorem sectionIds_sublist (d : Draft) : (sectionIds d).Sublist (allIds d) := by
  induction d with
  | nil => exact List.Sublist.refl _
  | cons ch d ih =>
    simp only [sectionIds, allIds, List.flatMap_cons, List.cons_append] at ih ⊢
    exact ((List.Sublist.refl _).append ih).cons _

theorem DistinctUuids.distinct (h : DistinctUuids d) : Distinct d := by
  obtain ⟨us, hnodup, hids⟩ := h
  have hall : (allIds d).Nodup := hids ▸ hnodup.map fun _ _ => Uuid.str_injective
  exact ⟨(chapterIds_sublist d).nodup hall, (sectionIds_sublist d).nodup hall⟩

theorem DistinctUuids.of_mem {id : Text} (h : DistinctUuids d) (hid : id ∈ allIds d) :
    ∃ u : Uuid, id = u.str := by
  obtain ⟨us, -, hids⟩ := h
  rw [hids] at hid
  obtain ⟨u, -, rfl⟩ := List.mem_map.mp hid
  exact ⟨u, rfl⟩

theorem rawIds_sublist (d : Draft) :
    (Outlines.rawIds (cleaned d)).Sublist ((allIds d).map some) := by
  induction d with
  | nil => exact List.Sublist.refl _
  | cons ch d ih =>
    have hsections : ((titledSections ch).map fun s => some s.id).Sublist
        ((ch.sections.map (·.id)).map some) := by
      rw [List.map_map]
      exact List.filter_sublist.map _
    have hhead : Outlines.rawIds [submittedChapter ch] =
        some ch.id :: (titledSections ch).map fun s => some s.id := by
      simp [Outlines.rawIds, submittedChapter, submittedSection, Function.comp_def]
    have hsplit : (allIds (ch :: d)).map some =
        (some ch.id :: (ch.sections.map (·.id)).map some) ++ (allIds d).map some := by
      simp [allIds]
    rw [hsplit]
    by_cases hlive : live ch
    · have hcons : Outlines.rawIds (cleaned (ch :: d)) =
          Outlines.rawIds [submittedChapter ch] ++ Outlines.rawIds (cleaned d) := by
        rw [cleaned, List.filter_cons_of_pos hlive]
        simp [Outlines.rawIds, cleaned]
      rw [hcons, hhead]
      exact (hsections.cons_cons _).append ih
    · have hskip : cleaned (ch :: d) = cleaned d := by
        rw [cleaned, List.filter_cons_of_neg hlive, cleaned]
      rw [hskip]
      exact ih.trans (List.sublist_append_right _ _)

/-- The server keeps the ids of the editor. -/
theorem ensured_cleaned {fresh : Nat → Uuid} (h : DistinctUuids d) :
    ensureOutlineIds fresh false (cleaned d) = (cleaned d, []) := by
  obtain ⟨us, hnodup, hids⟩ := h
  have hsub := rawIds_sublist d
  rw [hids, List.map_map] at hsub
  obtain ⟨us', hsub', heq⟩ := List.sublist_map_iff.mp hsub
  exact Outlines.ensured_of_ids (hsub'.nodup hnodup) heq

/-! One reference. -/

variable {si : Nat} {raw key label : Text} {r : ParsedRef} {t t' : Item × Option Text}
  {fresh : Nat → Uuid} {lower : Text → Text}

theorem label_cases {x : Text} {a : Nat} (h : ofNat a ++ '.' :: x = BuildsOn.sectionLabel c n) :
    a = c ∧ x = ofNat n := by
  obtain ⟨ha, hx⟩ := append_inj_of_all (p := fun d => d != '.')
    (fun d hd => bne_iff_ne.mpr fun he => dot_notMem_ofNat a (he ▸ hd))
    (fun d hd => bne_iff_ne.mpr fun he => dot_notMem_ofNat c (he ▸ hd)) (by simp) (by simp) h
  exact ⟨ofNat_injective ha, (List.cons.inj hx).2⟩

/-- What the form accepts. -/
theorem refKey_ok (h : refKey (surviving d) ci si raw = .ok key) :
    ∃ r, parseRefLabel raw = some r ∧
      ((r.sectionNumber = none ∧ ∃ ch, numbered d r.chapter = some ch ∧ live ch) ∨
        ∃ n s, r.sectionNumber = some n ∧ sectionAt d r.chapter n = some s ∧ titled s ∧
          (r.chapter, n) ≠ (ci + 1, si + 1)) := by
  unfold refKey at h
  split at h
  · cases h
  · rename_i m hm
    refine ⟨refOf m, by rw [parseRefLabel, hm]; rfl, ?_⟩
    dsimp only at h
    split at h
    · rename_i hstar
      split at h
      · rename_i hchapter
        have hgroup : m.group .section = some ['*'] := by
          cases hg : m.group .section with
          | none => rw [hg] at hstar; cases hstar
          | some x => rw [hg] at hstar; exact congrArg some hstar
        obtain ⟨ch, hch, hlive⟩ := mem_chapters hchapter
        exact Or.inl ⟨by simp [refOf, hgroup], ch, by simpa [refOf, hgroup] using hch, hlive⟩
      · cases h
    · rename_i hstar
      split at h
      · cases h
      · rename_i hself
        split at h
        · rename_i hlabel
          obtain ⟨c, n, s, hs, htitled, heq⟩ := mem_labels hlabel
          obtain ⟨hc, hn⟩ := label_cases heq
          have hgroup : m.group .section ≠ some ['*'] := by
            intro hg
            rw [hg] at hstar
            exact hstar rfl
          have hnum : natOf ((m.group .section).getD []) = n := by rw [hn, natOf_ofNat]
          refine Or.inr ⟨n, s, by simp [refOf, hgroup, hnum], ?_, htitled, ?_⟩
          · simpa [refOf, hgroup, hc] using hs
          · intro hplace
            have hplace' : (c, n) = (ci + 1, si + 1) := by
              simpa [refOf, hgroup, hc] using hplace
            obtain ⟨rfl, rfl⟩ := Prod.mk.inj hplace'
            exact hself heq
        · cases h

theorem uuid_section (hids : DistinctUuids d) (hs : sectionAt d c n = some s) :
    ∃ u : Uuid, s.id = u.str :=
  hids.of_mem ((sectionIds_sublist d).subset (mem_sectionIds.2 ⟨c, n, s, hs, rfl⟩))

theorem uuid_chapter (hids : DistinctUuids d) (hch : numbered d c = some ch) :
    ∃ u : Uuid, ch.id = u.str :=
  hids.of_mem ((chapterIds_sublist d).subset (mem_chapterIds.2 ⟨c, ch, hch, rfl⟩))

theorem lookup_chapter (hu : Unshifted d) (hids : DistinctUuids d) (hch : numbered d c = some ch)
    (hlive : live ch) : lastFor c (positionMaps (cleaned d)).chByNum = some ch.id := by
  obtain ⟨u, hid⟩ := uuid_chapter hids hch
  have hat := mem_cleaned_zipIdx hu hch hlive
  have hvalid : Outlines.validId (submittedChapter ch).id = some ch.id := by
    rw [submittedChapter, hid, Outlines.validId_str]
  refine lastFor_of_mem (fun y hy => ?_) (Outlines.mem_chByNum.mpr ⟨_, hat, hvalid⟩)
  obtain ⟨ch', hch', hid'⟩ := Outlines.mem_chByNum.mp hy
  have hsame := (mem_zipIdx_one.1 hch').symm.trans (mem_zipIdx_one.1 hat)
  rw [Option.some.inj hsame, hvalid] at hid'
  exact (Option.some.inj hid').symm

theorem lookup_section (hu : Unshifted d) (hids : DistinctUuids d) (hs : sectionAt d c n = some s)
    (ht : titled s) : lastFor (c, n) (positionMaps (cleaned d)).secByPos = some s.id := by
  obtain ⟨u, hid⟩ := uuid_section hids hs
  have hat := mem_cleaned_places hu hs ht
  have hvalid : Outlines.validId (submittedSection s).id = some s.id := by
    rw [submittedSection, hid, Outlines.validId_str]
  refine lastFor_of_mem (fun y hy => ?_) (Outlines.mem_secByPos.mpr ⟨_, hat, hvalid⟩)
  obtain ⟨sec, hsec, hid'⟩ := Outlines.mem_secByPos.mp hy
  have hplace : ∀ {sec}, (c, n, sec) ∈ Outlines.places (cleaned d) →
      ((numbered (cleaned d) c).bind fun ch => numbered ch.sections n) = some sec := by
    intro sec hsec
    obtain ⟨⟨ch, i⟩, hch, hsec⟩ := List.mem_flatMap.mp hsec
    obtain ⟨⟨sec', j⟩, hj, heq⟩ := List.mem_map.mp hsec
    cases heq
    rw [mem_zipIdx_one.1 hch, Option.bind_some, mem_zipIdx_one.1 hj]
  rw [Option.some.inj ((hplace hsec).symm.trans (hplace hat)), hvalid] at hid'
  exact (Option.some.inj hid').symm

/-- A target as the server writes it. -/
def Spelled (t : Item × Option Text) : Prop :=
  ∃ T : Outlines.Target, T.token = targetToken t ∧ T.Fine ∧
    ((∃ u : Uuid, T = .ofChapter u ∧ t = (.chapter u.str, none)) ∨
      ∃ (u : Uuid) (m : Option Text), T = .ofSection u m ∧ t = (.section u.str, m))

theorem targetToken_injective (h : Spelled t) (h' : Spelled t')
    (heq : targetToken t = targetToken t') : t = t' := by
  obtain ⟨T, htoken, hfine, hcase⟩ := h
  obtain ⟨T', htoken', hfine', hcase'⟩ := h'
  obtain rfl := Outlines.Target.token_injective hfine hfine' ((htoken.trans heq).trans htoken'.symm)
  rcases hcase with ⟨u, rfl, rfl⟩ | ⟨u, m, rfl, rfl⟩
  · rcases hcase' with ⟨u', hT, rfl⟩ | ⟨u', m', hT, rfl⟩
    · obtain rfl := Outlines.Target.ofChapter.inj hT
      rfl
    · cases hT
  · rcases hcase' with ⟨u', hT, rfl⟩ | ⟨u', m', hT, rfl⟩
    · cases hT
    · obtain ⟨rfl, rfl⟩ := Outlines.Target.ofSection.inj hT
      rfl

/-- The server resolves what the form accepts to the item that has the number in the editor. -/
theorem normalizeRef_ok (hu : Unshifted d) (hids : DistinctUuids d)
    (hord : ∀ c ∈ raw, Ordinary c) (hs : sectionAt d (ci + 1) (si + 1) = some s)
    (h : refKey (surviving d) ci si raw = .ok key) :
    ∃ t, refTarget d raw = some t ∧ Spelled t ∧
      ∀ label, normalizeRef (positionMaps (cleaned d)) [] s.id label raw = .ok (targetToken t) := by
  obtain ⟨r, hr, hcase⟩ := refKey_ok h
  have hserver := parseRef_ordinary hord
  rw [hr, Option.map_some] at hserver
  have hmetric : ∀ x ∈ r.metric, ∀ c ∈ x, Ordinary c := by
    obtain ⟨m, hm, rfl⟩ := Option.map_eq_some_iff.mp hr
    intro x hx
    unfold refOf at hx
    dsimp only at hx
    split at hx
    · cases hx
    · exact group_ordinary hord hm hx
  have hfine := BuildsOn.refText_fine (BuildsOn.parseRef_eq_some.mp hserver)
  have htoken := Outlines.parseIdToken_of_parseRef hserver
  rcases hcase with ⟨hnone, ch, hch, hlive⟩ | ⟨n, s', hn, hs', htitled, hplace⟩
  · obtain ⟨u, hid⟩ := uuid_chapter hids hch
    have hnometric : r.metric = none := by
      obtain ⟨m, -, rfl⟩ := Option.map_eq_some_iff.mp hr
      unfold refOf at hnone ⊢
      dsimp only at hnone ⊢
      split at hnone
      · rename_i hstar
        rw [if_pos hstar]
      · cases hnone
    refine ⟨(.chapter ch.id, none), ?_, ⟨.ofChapter u, ?_, trivial, Or.inl ⟨u, rfl, by rw [hid]⟩⟩, ?_⟩
    · simp [refTarget, names, hr, hnone, hch, hnometric]
    · rw [hid]
      rfl
    · intro label
      rw [normalizeRef, htoken, hserver]
      simp only [hnone, lookup_chapter hu hids hch hlive]
      rfl
  · obtain ⟨u, hid⟩ := uuid_section hids hs'
    refine ⟨(.section s'.id, BuildsOn.stripped r.metric), ?_,
      ⟨.ofSection u (BuildsOn.stripped r.metric), ?_, hfine, Or.inr ⟨u, _, rfl, by rw [hid]⟩⟩, ?_⟩
    · rw [stripped_ordinary hmetric]
      simp [refTarget, names, hr, hn, hs']
    · rw [hid]
      rfl
    · intro label
      have hself : s'.id ≠ s.id := by
        intro heq
        obtain ⟨hc, hn'⟩ := hids.distinct.place hs' hs heq
        exact hplace (by rw [hc, hn'])
      rw [normalizeRef, htoken, hserver]
      simp only [hn, lookup_section hu hids hs' htitled, if_neg hself]
      rfl

/-! What the form has checked. -/

theorem NoBlocker.issue (h : NoBlocker lower d) {i : FormIssue}
    (hi : i ∈ sizeIssue d ++ (d.zipIdx.flatMap fun x => chapterTitleIssue x.2 x.1 ++
      x.1.sections.zipIdx.flatMap fun y => sectionIssues (surviving d) x.2 y.2 y.1) ++
      renumberIssue d) : i.level ≠ .blocker := by
  intro hlevel
  refine h i ?_ hlevel
  refine List.mem_append_left _ (List.mem_filter.mpr ⟨?_, by simpa using hlevel⟩)
  simp only [List.mem_append] at hi ⊢
  tauto

theorem NoBlocker.sized (h : NoBlocker lower d) : countSubmittedSections d ≠ 0 := by
  intro hzero
  have hmem : ∃ i ∈ sizeIssue d, i.level = .blocker := by
    rw [sizeIssue, if_pos hzero]
    exact ⟨_, List.mem_singleton_self _, rfl⟩
  obtain ⟨i, hi, hlevel⟩ := hmem
  exact h.issue (List.mem_append_left _ (List.mem_append_left _ hi)) hlevel

theorem NoBlocker.unshifted (h : NoBlocker lower d) (hrefs : usesRefs d) : Unshifted d := by
  cases hshifted : (surviving d).shifted with
  | false => exact Web.unshifted hshifted
  | true =>
    have hmem : ∃ i ∈ renumberIssue d, i.level = .blocker := by
      rw [renumberIssue, hshifted, hrefs]
      exact ⟨_, List.mem_singleton_self _, rfl⟩
    obtain ⟨i, hi, hlevel⟩ := hmem
    exact absurd hlevel (h.issue (List.mem_append_right _ hi))

theorem NoBlocker.section (h : NoBlocker lower d) (hs : sectionAt d (ci + 1) (si + 1) = some s) :
    ∀ i ∈ sectionIssues (surviving d) ci si s, i.level ≠ .blocker := by
  intro i hi
  obtain ⟨ch, hch, hs⟩ := Option.bind_eq_some_iff.mp hs
  refine h.issue (List.mem_append_left _ (List.mem_append_right _ ?_))
  refine List.mem_flatMap.mpr ⟨(ch, ci), List.mem_zipIdx_iff_getElem?.mpr hch, ?_⟩
  exact List.mem_append_right _
    (List.mem_flatMap.mpr ⟨(s, si), List.mem_zipIdx_iff_getElem?.mpr hs, hi⟩)

theorem refKey_error {st : Surviving} {i : FormIssue} (h : refKey st ci si raw = .error i) :
    i.level = .blocker := by
  unfold refKey at h
  split at h
  · obtain rfl := Except.error.inj h
    rfl
  · dsimp only at h
    split at h
    · split at h
      · cases h
      · obtain rfl := Except.error.inj h
        rfl
    · split at h
      · obtain rfl := Except.error.inj h
        rfl
      · split at h
        · cases h
        · obtain rfl := Except.error.inj h
          rfl

/-- Whatever the loop over the references reports blocks; without a report all are accepted. -/
theorem refIssues_accepted {st : Surviving} {accepted raws : List Text}
    (h : ∀ i ∈ refIssues (refKey st ci si) (tooManyRefs ci si) accepted raws, i.level ≠ .blocker) :
    ∀ raw ∈ raws, ∃ key, refKey st ci si raw = .ok key := by
  induction raws generalizing accepted with
  | nil => simp
  | cons raw raws ih =>
    rw [refIssues] at h
    cases hkey : refKey st ci si raw with
    | error i =>
      rw [hkey] at h
      exact absurd (refKey_error hkey) (h i (by simp))
    | ok key =>
      rw [hkey] at h
      dsimp only at h
      have hrest : ∀ raw ∈ raws, ∃ key, refKey st ci si raw = .ok key := by
        split at h
        · exact ih h
        · split at h
          · exact absurd rfl (h (tooManyRefs ci si) (by simp))
          · exact ih h
      intro raw' hraw'
      rcases List.mem_cons.mp hraw' with rfl | hraw'
      · exact ⟨key, hkey⟩
      · exact hrest raw' hraw'

theorem NoBlocker.accepted (h : NoBlocker lower d) (hs : sectionAt d (ci + 1) (si + 1) = some s)
    (ht : titled s) :
    s.analysts.length ≤ maxAgentsPerSection ∧
      ∀ raw ∈ trimmed s.buildsOn, ∃ key, refKey (surviving d) ci si raw = .ok key := by
  have hissues := h.section hs
  rw [sectionIssues, if_pos ht] at hissues
  constructor
  · by_contra hmany
    rw [if_pos (by omega : s.analysts.length > maxAgentsPerSection)] at hissues
    exact hissues _ (List.mem_append_left _ (List.mem_append_right _ (List.mem_singleton_self _))) rfl
  · exact refIssues_accepted fun i hi => hissues i (List.mem_append_right _ hi)

/-! One section. -/

/-- The server's loop, where every reference is resolved. -/
theorem normalizeRefs_all {resolve : Text → Except Outlines.OutlineError Text}
    {tok : Text → Text} {out raws : List Text} (label : Text) (hresolve : ∀ raw ∈ raws, resolve raw = .ok (tok raw))
    (hout : out.Nodup) (hlen : out.length ≤ BuildsOn.maxRefsPerSection) :
    ((out ++ raws.map tok).eraseDups.length ≤ BuildsOn.maxRefsPerSection →
      normalizeRefs resolve label out raws = ((out ++ raws.map tok).eraseDups, [])) ∧
    ((normalizeRefs resolve label out raws).2 = [] →
      (out ++ raws.map tok).eraseDups.length ≤ BuildsOn.maxRefsPerSection) := by
  rw [beq_text]
  induction raws generalizing out with
  | nil =>
    rw [List.map_nil, List.append_nil, FirstSeen.of_nodup hout]
    exact ⟨fun _ => rfl, fun _ => hlen⟩
  | cons raw raws ih =>
    have hrest := fun raw' hraw' => hresolve raw' (List.mem_cons_of_mem raw hraw')
    rw [normalizeRefs, hresolve raw (by simp), List.map_cons]
    dsimp only
    by_cases hmem : tok raw ∈ out
    · rw [if_pos hmem, FirstSeen.append_cons_of_mem hmem]
      exact ih hrest hout hlen
    · rw [if_neg hmem]
      have hnew : (out ++ [tok raw]).Nodup :=
        List.nodup_append'.mpr ⟨hout, List.nodup_singleton _, by simpa using hmem⟩
      have hsplit : out ++ tok raw :: raws.map tok = (out ++ [tok raw]) ++ raws.map tok := by simp
      rw [hsplit]
      by_cases hfull : out.length ≥ BuildsOn.maxRefsPerSection
      · rw [if_pos hfull]
        have hmany := (FirstSeen.prefix_append (out ++ [tok raw]) (raws.map tok)).length_le
        rw [FirstSeen.of_nodup hnew, List.length_append, List.length_singleton] at hmany
        constructor
        · intro hfew
          omega
        · intro hnone
          cases hnone
      · rw [if_neg hfull]
        exact ih hrest hnew (by rw [List.length_append, List.length_singleton]; omega)

theorem spelled_of_accepted (hu : Unshifted d) (hids : DistinctUuids d)
    (hs : sectionAt d (ci + 1) (si + 1) = some s) {raws : List Text}
    (hord : ∀ raw ∈ raws, ∀ c ∈ raw, Ordinary c)
    (hkeys : ∀ raw ∈ raws, ∃ key, refKey (surviving d) ci si raw = .ok key) :
    ∃ target : Text → Item × Option Text,
      (∀ raw ∈ raws, refTarget d raw = some (target raw) ∧ Spelled (target raw)) ∧
      ∀ label, ∀ raw ∈ raws, normalizeRef (positionMaps (cleaned d)) [] s.id label raw =
        .ok (targetToken (target raw)) := by
  refine ⟨fun raw => (refTarget d raw).getD (.chapter [], none), fun raw hraw => ?_,
    fun label raw hraw => ?_⟩
  · obtain ⟨key, hkey⟩ := hkeys raw hraw
    obtain ⟨t, ht, hspelled, -⟩ := normalizeRef_ok hu hids (hord raw hraw) hs hkey
    simp only [ht, Option.getD_some]
    exact ⟨trivial, hspelled⟩
  · obtain ⟨key, hkey⟩ := hkeys raw hraw
    obtain ⟨t, ht, -, hresolve⟩ := normalizeRef_ok hu hids (hord raw hraw) hs hkey
    simp only [ht, Option.getD_some]
    exact hresolve label

/-- The references of a draft are made of characters that both languages read alike. -/
def OrdinaryRefs (d : Draft) : Prop :=
  ∀ ch ∈ d, ∀ s ∈ ch.sections, ∀ raw ∈ s.buildsOn, ∀ c ∈ raw, Ordinary c

instance decidableOrdinaryRefs (d : Draft) : Decidable (OrdinaryRefs d) :=
  inferInstanceAs (Decidable (∀ ch ∈ d, ∀ s ∈ ch.sections, ∀ raw ∈ s.buildsOn, ∀ c ∈ raw, Ordinary c))

theorem ordinary_trimmed {raws : List Text} (h : ∀ raw ∈ raws, ∀ c ∈ raw, Ordinary c) :
    ∀ raw ∈ trimmed raws, ∀ c ∈ raw, Ordinary c := by
  intro raw hraw c hc
  obtain ⟨raw', hraw', rfl⟩ := List.mem_map.mp (List.mem_filter.mp hraw).1
  exact h raw' hraw' c (Script.mem_of_mem_trim hc)

theorem trimmed_nil {raws : List Text} (h : raws = []) : trimmed raws = [] := by
  rw [h]
  rfl

/-- One section at the server: no error exactly when it has few references. -/
theorem normalizeSection_submitted (hnb : NoBlocker lower d) (hids : DistinctUuids d)
    (hord : OrdinaryRefs d) (hs : sectionAt d (ci + 1) (si + 1) = some s) (ht : titled s) :
    (((trimmed s.buildsOn).map (refTarget d)).eraseDups.length ≤ BuildsOn.maxRefsPerSection →
      normalizeSection (positionMaps (cleaned d)) [] (submittedSection s) =
        ({ submittedSection s with buildsOn := refTokens d (trimmed s.buildsOn) }, [])) ∧
    ((normalizeSection (positionMaps (cleaned d)) [] (submittedSection s)).2 = [] →
      ((trimmed s.buildsOn).map (refTarget d)).eraseDups.length ≤ BuildsOn.maxRefsPerSection) ∧
    ∀ raw ∈ trimmed s.buildsOn, (refTarget d raw).isSome := by
  obtain ⟨hagents, hkeys⟩ := hnb.accepted hs ht
  have hfew : ¬ (submittedSection s).analysts.length > Outlines.maxAgentsPerSection := by
    have hle : s.analysts.length ≤ 5 := hagents
    have hlen : (submittedSection s).analysts.length = s.analysts.length := rfl
    rw [hlen, Outlines.maxAgentsPerSection]
    omega
  cases hraws : trimmed s.buildsOn with
  | nil =>
    have hsubmitted : (submittedSection s).buildsOn = [] := hraws
    refine ⟨fun _ => ?_, fun _ => by simp, by simp⟩
    have htokens : refTokens d [] = (submittedSection s).buildsOn := hsubmitted.symm
    have hsection : normalizeSection (positionMaps (cleaned d)) [] (submittedSection s) =
        (submittedSection s, []) := by
      rw [normalizeSection]
      simp only [hfew, if_false, hsubmitted, List.isEmpty_nil, if_true]
    rw [hsection, htokens]
  | cons first rest =>
    rw [← hraws]
    have hrefs : usesRefs d := by
      obtain ⟨ch, hch, hs⟩ := Option.bind_eq_some_iff.mp hs
      refine List.any_eq_true.mpr ⟨ch, mem_of_numbered hch,
        List.any_eq_true.mpr ⟨s, mem_of_numbered hs, ?_⟩⟩
      cases hbuilds : s.buildsOn with
      | nil =>
        rw [trimmed_nil hbuilds] at hraws
        cases hraws
      | cons => rfl
    have hord' : ∀ raw ∈ trimmed s.buildsOn, ∀ c ∈ raw, Ordinary c := by
      obtain ⟨ch, hch, hs⟩ := Option.bind_eq_some_iff.mp hs
      exact ordinary_trimmed (hord ch (mem_of_numbered hch) s (mem_of_numbered hs))
    obtain ⟨target, htarget, hresolve⟩ :=
      spelled_of_accepted (hnb.unshifted hrefs) hids hs hord' hkeys
    have htargets : (trimmed s.buildsOn).map (refTarget d) =
        ((trimmed s.buildsOn).map target).map some := by
      rw [List.map_map]
      exact List.map_congr_left fun raw hraw => (htarget raw hraw).1
    have htokens : ((trimmed s.buildsOn).map fun raw => targetToken (target raw)) =
        ((trimmed s.buildsOn).map target).map targetToken := by
      rw [List.map_map]
      rfl
    have hdistinct : (((trimmed s.buildsOn).map target).map targetToken).eraseDups =
        ((trimmed s.buildsOn).map target).eraseDups.map targetToken := by
      refine FirstSeen.map_of_injOn fun a ha b hb heq => ?_
      obtain ⟨raw, hraw, rfl⟩ := List.mem_map.mp ha
      obtain ⟨raw', hraw', rfl⟩ := List.mem_map.mp hb
      exact targetToken_injective (htarget raw hraw).2 (htarget raw' hraw').2 heq
    have hsome : (((trimmed s.buildsOn).map target).map some).eraseDups =
        ((trimmed s.buildsOn).map target).eraseDups.map some :=
      FirstSeen.map_of_injOn fun a _ b _ heq => Option.some.inj heq
    have hlength : ((trimmed s.buildsOn).map fun raw => targetToken (target raw)).eraseDups.length =
        ((trimmed s.buildsOn).map (refTarget d)).eraseDups.length := by
      rw [htokens, hdistinct, htargets, hsome, List.length_map, List.length_map]
    have hrefTokens : refTokens d (trimmed s.buildsOn) =
        ((trimmed s.buildsOn).map fun raw => targetToken (target raw)).eraseDups := by
      have hfilter : (trimmed s.buildsOn).filterMap (refTarget d) =
          (trimmed s.buildsOn).map target := by
        rw [← List.filterMap_eq_map]
        exact List.filterMap_congr fun raw hraw => (htarget raw hraw).1
      rw [refTokens, hfilter, List.map_map]
      rfl
    obtain ⟨hok, hfewer⟩ := normalizeRefs_all
      ((lastFor s.id (positionMaps (cleaned d)).labelBySec).getD ['?'])
      (hresolve ((lastFor s.id (positionMaps (cleaned d)).labelBySec).getD ['?'])) List.nodup_nil
      (Nat.zero_le _)
    rw [List.nil_append, hlength] at hok hfewer
    have hne : (submittedSection s).buildsOn ≠ [] := fun hnil =>
      absurd (hraws.symm.trans hnil) (List.cons_ne_nil first rest)
    rw [Outlines.normalizeSection_refs (rfl : (submittedSection s).id = some s.id) hne
      (Nat.le_of_not_gt hfew)]
    refine ⟨fun hle => ?_, fun hnone => hfewer hnone, fun raw hraw => ?_⟩
    · have hrefs := hok hle
      rw [← hrefTokens] at hrefs
      have hloop : Outlines.sectionRefs (positionMaps (cleaned d)) [] s.id
          (submittedSection s).buildsOn = (refTokens d (trimmed s.buildsOn), []) := hrefs
      rw [hloop]
    · rw [(htarget raw hraw).1]
      rfl

/-- What is submitted of a section keeps its place in the draft. -/
theorem mem_cleaned_sections {sec : OutlineSection} :
    sec ∈ Outlines.sections (cleaned d) ↔ ∃ ci si s, sectionAt d (ci + 1) (si + 1) = some s ∧
      titled s ∧ submittedSection s = sec := by
  constructor
  · intro h
    obtain ⟨ch', hch', hsec⟩ := List.mem_flatMap.mp h
    obtain ⟨ch, hch, rfl⟩ := List.mem_map.mp hch'
    obtain ⟨s, hs, rfl⟩ := List.mem_map.mp hsec
    obtain ⟨hs, ht⟩ := List.mem_filter.mp hs
    obtain ⟨ci, hci⟩ := List.getElem?_of_mem (List.mem_filter.mp hch).1
    obtain ⟨si, hsi⟩ := List.getElem?_of_mem hs
    exact ⟨ci, si, s, by simp [sectionAt, numbered, hci, hsi], ht, rfl⟩
  · rintro ⟨ci, si, s, hs, ht, rfl⟩
    obtain ⟨ch, hch, hs⟩ := Option.bind_eq_some_iff.mp hs
    have hmem := mem_of_numbered hs
    refine List.mem_flatMap.mpr ⟨submittedChapter ch, ?_, ?_⟩
    · exact List.mem_map_of_mem (List.mem_filter.mpr ⟨mem_of_numbered hch, live_of_titled hmem ht⟩)
    · exact List.mem_map_of_mem (List.mem_filter.mpr ⟨hmem, ht⟩)

theorem cleaned_ne_nil (h : countSubmittedSections d ≠ 0) : cleaned d ≠ [] := by
  intro hnil
  have hdead : d.map (fun ch => (titledSections ch).length) = d.map fun _ => 0 := by
    refine List.map_congr_left fun ch hch => ?_
    have hlive := List.filter_eq_nil_iff.mp (List.map_eq_nil_iff.mp hnil) ch hch
    simpa [live] using hlive
  exact h (by simp [countSubmittedSections, hdead])

/-! The whole draft. -/

theorem fst_normalizeOutline_cleaned (hids : DistinctUuids d) :
    (normalizeOutline fresh false (cleaned d)).1 = mapSections
      (fun sec => (normalizeSection (positionMaps (cleaned d)) [] sec).1) (cleaned d) := by
  rw [Outlines.normalizeOutline_fst, ensured_cleaned hids]

theorem snd_normalizeOutline_cleaned (hids : DistinctUuids d) :
    (normalizeOutline fresh false (cleaned d)).2 = (Outlines.sections (cleaned d)).flatMap fun sec =>
      (normalizeSection (positionMaps (cleaned d)) [] sec).2 := by
  rw [Outlines.normalizeOutline_snd, ensured_cleaned hids]

/-- The form lets through what the server takes exactly when it is silent about few references
only. -/
theorem formSound_iff (lower : Text → Text) (fresh : Nat → Uuid) (hids : DistinctUuids d)
    (hord : OrdinaryRefs d) : FormSound lower fresh d ↔ (NoBlocker lower d → FewRefs d) := by
  constructor
  · intro hsound hnb
    obtain ⟨o, ho, hnormal, -⟩ := hsound hnb
    rw [toOutline_eq, if_neg (by simpa using cleaned_ne_nil hnb.sized)] at ho
    obtain rfl := Option.some.inj ho
    have herrors := congrArg Prod.snd hnormal
    rw [snd_normalizeOutline_cleaned hids, List.flatMap_eq_nil_iff] at herrors
    intro ch hch s hs ht
    obtain ⟨ci, hci⟩ := List.getElem?_of_mem hch
    obtain ⟨si, hsi⟩ := List.getElem?_of_mem hs
    have hat : sectionAt d (ci + 1) (si + 1) = some s := by simp [sectionAt, numbered, hci, hsi]
    exact (normalizeSection_submitted hnb hids hord hat ht).2.1
      (herrors _ (mem_cleaned_sections.2 ⟨ci, si, s, hat, ht, rfl⟩))
  · intro hfew hnb
    have hsection : ∀ sec ∈ Outlines.sections (cleaned d),
        normalizeSection (positionMaps (cleaned d)) [] sec =
          ({ sec with buildsOn := refTokens d sec.buildsOn }, []) ∧
        ∀ raw ∈ sec.buildsOn, (refTarget d raw).isSome := by
      intro sec hsec
      obtain ⟨ci, si, s, hat, ht, rfl⟩ := mem_cleaned_sections.1 hsec
      obtain ⟨hok, -, htargets⟩ := normalizeSection_submitted hnb hids hord hat ht
      obtain ⟨ch, hch, hs⟩ := Option.bind_eq_some_iff.mp hat
      exact ⟨hok (hfew hnb ch (mem_of_numbered hch) s (mem_of_numbered hs) ht), htargets⟩
    refine ⟨cleaned d, ?_, Prod.ext ?_ ?_, fun sec hsec => (hsection sec hsec).2⟩
    · rw [toOutline_eq, if_neg (by simpa using cleaned_ne_nil hnb.sized)]
    · rw [fst_normalizeOutline_cleaned hids]
      refine List.map_congr_left fun ch hch => ?_
      have hsections : ch.sections.map
          (fun sec => (normalizeSection (positionMaps (cleaned d)) [] sec).1) =
          ch.sections.map fun sec => { sec with buildsOn := refTokens d sec.buildsOn } :=
        List.map_congr_left fun sec hsec => by
          rw [(hsection sec (List.mem_flatMap.mpr ⟨ch, hch, hsec⟩)).1]
      rw [hsections]
    · rw [snd_normalizeOutline_cleaned hids, List.flatMap_eq_nil_iff]
      intro sec hsec
      rw [(hsection sec hsec).1]

/-- A chapter of two sections, the second of which asks for three metrics of the first. -/
def threeMetrics : Draft :=
  [⟨(Outlines.drawn 0).str, "Market".toList,
    [⟨(Outlines.drawn 1).str, "Size".toList, [], ["total".toList], [], []⟩,
      ⟨(Outlines.drawn 2).str, "Growth".toList, [], ["rate".toList], [],
        ["1.1(a)".toList, "1.1(b)".toList, "1.1(c)".toList]⟩]⟩]

/-- The form lets the draft through, and the server rejects it. -/
theorem not_formSound_threeMetrics :
    ¬ ∀ lower fresh d, DistinctUuids d → OrdinaryRefs d → FormSound lower fresh d := by
  intro h
  have hsound := h id Outlines.drawn threeMetrics
    ⟨[Outlines.drawn 0, Outlines.drawn 1, Outlines.drawn 2], by decide, by decide⟩ (by decide)
  obtain ⟨o, ho, hnormal, -⟩ := hsound (by unfold NoBlocker; decide)
  have herrors := congrArg Prod.snd hnormal
  obtain rfl : (toOutline threeMetrics).getD [] = o := by rw [ho]; rfl
  exact absurd herrors (by decide)

/-- Without the third metric both agree. -/
def twoMetrics : Draft :=
  threeMetrics.map fun ch =>
    { ch with sections := ch.sections.map fun s => { s with buildsOn := s.buildsOn.take 2 } }

theorem formSound_twoMetrics : FormSound id Outlines.drawn twoMetrics ↔
    (NoBlocker id twoMetrics → FewRefs twoMetrics) :=
  formSound_iff id Outlines.drawn
    ⟨[Outlines.drawn 0, Outlines.drawn 1, Outlines.drawn 2], by decide, by decide⟩ (by decide)

end RownRg.Web

import RownRg.Core.State
import RownRg.Qa.CrossSection

/-! The paragraphs of a report that are cut down to a reference to an earlier section. -/

open PyText Regex RownRg.Alignment RownRg.CrossSection RownRg.Gate RownRg.Ledger

namespace RownRg.DedupRewrite

/-- `MAX_PARAGRAPHS_PER_SECTION` -/
def maxParagraphsPerSection : Nat := 3

/-- `MAX_CALLS_PER_DOC` -/
def maxCallsPerDoc : Nat := 20

structure RewriteTarget where
  sectionRef : Text
  paraIndex : Nat
  counterpartRef : Text
  dupSentences : List Text
  deriving DecidableEq

abbrev Place : Type := Text × Nat

def RewriteTarget.place (t : RewriteTarget) : Place := (t.sectionRef, t.paraIndex)

/-- `_order_key(a) < _order_key(b)` -/
def keyBefore (a b : Text) : Bool :=
  let k := sectionLabelKey a
  let k' := sectionLabelKey b
  decide (k.1 < k'.1 ∨ k.1 = k'.1 ∧ k.2 < k'.2)

/-- `min(refs, key=_order_key)`: the first of the least. -/
def earliestRef : List Text → Option Text
  | [] => none
  | ref :: refs => some (refs.foldl (fun least x => if keyBefore x least then x else least) ref)

/-- `_paragraphs` -/
def paragraphs (content : Text) : List Text := splitText "\n\n".toList content

/-- `_norm` -/
def norm (text : Text) : Text := (plus space : Regex Unit).sub (fun _ => []) text

variable (sections : List (Text × Text))

/-- `content_by_ref.get(ref) or ""` -/
def contentOf (ref : Text) : Text := (lastFor ref sections).getD []

/-- A sentence that an earlier section has too, with the paragraph that holds it. -/
structure Copy where
  place : Place
  canonRef : Text
  sentence : Text
  deriving DecidableEq

def laterCopy (p : DuplicatePair) : Option Copy :=
  let firstIsEarlier := !keyBefore p.secondRef p.firstRef
  let trailRef := if firstIsEarlier then p.secondRef else p.firstRef
  let trailText := if firstIsEarlier then p.secondText else p.firstText
  let canonRef := if firstIsEarlier then p.firstRef else p.secondRef
  let normSent := norm trailText
  if normSent.isEmpty then none
  else ((paragraphs (contentOf sections trailRef)).findIdx? fun para =>
    contains normSent (norm para)).map fun i => ⟨(trailRef, i), canonRef, trailText⟩

/-- The entry of a paragraph; the counter is kept as the list of what it counted. -/
structure Slot where
  counterparts : List Text
  sentences : List Text

def Slot.add (slot : Slot) (c : Copy) : Slot :=
  { counterparts := slot.counterparts ++ [c.canonRef]
    sentences := if c.sentence ∈ slot.sentences then slot.sentences
      else slot.sentences ++ [c.sentence] }

/-- `grouped.setdefault`, then the copy is added. -/
def file (c : Copy) : List (Place × Slot) → List (Place × Slot)
  | [] => [(c.place, Slot.add ⟨[], []⟩ c)]
  | entry :: entries =>
    if entry.1 = c.place then (entry.1, entry.2.add c) :: entries else entry :: file c entries

def grouped (copies : List Copy) : List (Place × Slot) :=
  copies.foldl (fun entries c => file c entries) []

def toTarget (entry : Place × Slot) : RewriteTarget :=
  { sectionRef := entry.1.1
    paraIndex := entry.1.2
    counterpartRef := (earliestRef entry.2.counterparts).getD []
    dupSentences := entry.2.sentences }

/-- `(-len(dup_sentences), section, para_index)` in order -/
def comesFirst (t t' : RewriteTarget) : Bool :=
  decide (t'.dupSentences.length < t.dupSentences.length) ||
    (decide (t.dupSentences.length = t'.dupSentences.length) &&
      (keyBefore t.sectionRef t'.sectionRef ||
        (decide (sectionLabelKey t.sectionRef = sectionLabelKey t'.sectionRef) &&
          decide (t.paraIndex ≤ t'.paraIndex))))

/-- `min(MAX_PARAGRAPHS_PER_SECTION, ratio_cap.get(ref, 1))` -/
def limit (ref : Text) : Nat :=
  min maxParagraphsPerSection
    ((lastFor ref (sections.map fun s => (s.1, max 1 ((paragraphs s.2).length / 4)))).getD 1)

/-- What the loop has taken so far; `per_section` is the list of what it counted. -/
structure Taken where
  perSection : List Text
  takenParas : List Place
  capped : List RewriteTarget

/-- The paragraph before or behind this one is taken. -/
def besideTaken (takenParas : List Place) (t : RewriteTarget) : Bool :=
  takenParas.any fun p => decide (p.1 = t.sectionRef) &&
    (decide (p.2 + 1 = t.paraIndex) || decide (p.2 = t.paraIndex + 1))

def takeTarget (taken : Taken) (t : RewriteTarget) : Taken :=
  if limit sections t.sectionRef ≤ taken.perSection.count t.sectionRef then taken
  else if besideTaken taken.takenParas t then taken
  else
    { perSection := t.sectionRef :: taken.perSection
      takenParas := t.place :: taken.takenParas
      capped := taken.capped ++ [t] }

def capTargets (targets : List RewriteTarget) : List RewriteTarget :=
  (targets.foldl (takeTarget sections) ⟨[], [], []⟩).capped.take maxCallsPerDoc

variable (isAlnum : Char → Bool) (set : SetOrder)

/-- The copies that the detector's pairs yield. -/
def laterCopies : List Copy :=
  (duplicatePairs isAlnum set sections duplicateThreshold).filterMap (laterCopy sections)

/-- `find_targets` -/
def findTargets : List RewriteTarget :=
  capTargets sections
    (((grouped (laterCopies sections isAlnum set)).map toTarget).mergeSort comesFirst)

/-- The caps on what is cut down. -/
structure Capped (targets : List RewriteTarget) : Prop where
  few : targets.length ≤ maxCallsPerDoc
  distinct : (targets.map RewriteTarget.place).Nodup
  perSection : ∀ s ∈ sections, (targets.map RewriteTarget.sectionRef).count s.1 ≤
    min maxParagraphsPerSection (max 1 ((paragraphs s.2).length / 4))
  apart : ∀ t ∈ targets, ∀ t' ∈ targets, t.sectionRef = t'.sectionRef →
    t.paraIndex ≠ t'.paraIndex + 1

/-- A unit of the section says what the sentence says, in a paragraph that stays. -/
def StatedIn (busy : Place → Prop) (ref sentence : Text) : Prop :=
  ∃ unit, (ref, unit) ∈ unitsBySection isAlnum sections ∧
    duplicateThreshold.le (tokenSimilarity (weightedTokens sentence) (weightedTokens unit)) ∧
    ∃ i para, (paragraphs (contentOf sections ref))[i]? = some para ∧
      contains (norm unit) (norm para) ∧ ¬ busy (ref, i)

/-- Whoever follows a reference finds each sentence in an earlier section that keeps it. -/
def StillStated (targets : List RewriteTarget) : Prop :=
  ∀ t ∈ targets, ∀ sentence ∈ t.dupSentences, keyBefore t.counterpartRef t.sectionRef ∧
    StatedIn sections isAlnum (fun p => ∃ t' ∈ targets, t'.place = p) t.counterpartRef sentence

/-- The section that comes first among those with a sentence of the paragraph. -/
def earliest (copies : List Copy) (p : Place) : Option Text :=
  earliestRef ((copies.filter fun c => c.place = p).map Copy.canonRef)

/-- The earliest section of each paragraph with copies has all of them, in paragraphs that have no
copy themselves. -/
def KeptByEarliest (copies : List Copy) : Prop :=
  ∀ c ∈ copies, ∀ ref ∈ earliest copies c.place, keyBefore ref c.place.1 ∧
    StatedIn sections isAlnum (fun p => ∃ c' ∈ copies, c'.place = p) ref c.sentence

variable {sections isAlnum set} {c : Copy} {copies : List Copy} {entry : Place × Slot}
  {entries : List (Place × Slot)} {p : Place} {ref : Text} {t t' : RewriteTarget}
  {targets : List RewriteTarget} {taken : Taken}

theorem keys_file (c : Copy) (entries : List (Place × Slot)) :
    (file c entries).map Prod.fst = if c.place ∈ entries.map Prod.fst then entries.map Prod.fst
      else entries.map Prod.fst ++ [c.place] := by
  induction entries with
  | nil => simp [file]
  | cons e entries ih =>
    by_cases he : e.1 = c.place
    · simp [file, he]
    · have hne : c.place ≠ e.1 := fun h => he h.symm
      simp only [file, if_neg he, List.map_cons, ih, List.mem_cons, hne, false_or]
      split <;> rfl

/-- An entry is another paragraph's, or the copy has been added to it. -/
theorem mem_file (hkeys : (entries.map Prod.fst).Nodup) (h : entry ∈ file c entries) :
    (entry ∈ entries ∧ entry.1 ≠ c.place) ∨ (entry.1 = c.place ∧
      ((∃ slot, (c.place, slot) ∈ entries ∧ entry.2 = slot.add c) ∨
        (c.place ∉ entries.map Prod.fst ∧ entry.2 = Slot.add ⟨[], []⟩ c))) := by
  induction entries with
  | nil =>
    obtain rfl := List.mem_singleton.mp h
    exact .inr ⟨rfl, .inr ⟨List.not_mem_nil, rfl⟩⟩
  | cons e entries ih =>
    obtain ⟨hfresh, hkeys⟩ := List.nodup_cons.mp hkeys
    by_cases he : e.1 = c.place
    · simp only [file, if_pos he] at h
      obtain rfl | hmem := List.mem_cons.mp h
      · exact .inr ⟨he, .inl ⟨e.2, he ▸ List.mem_cons_self, rfl⟩⟩
      · refine .inl ⟨List.mem_cons_of_mem _ hmem, fun heq => hfresh ?_⟩
        exact he.trans heq.symm ▸ List.mem_map_of_mem hmem
    · simp only [file, if_neg he] at h
      obtain rfl | hmem := List.mem_cons.mp h
      · exact .inl ⟨List.mem_cons_self, he⟩
      · rcases ih hkeys hmem with ⟨hold, hne⟩ | ⟨heq, ⟨slot, hslot, hadd⟩ | ⟨hnew, hadd⟩⟩
        · exact .inl ⟨List.mem_cons_of_mem _ hold, hne⟩
        · exact .inr ⟨heq, .inl ⟨slot, List.mem_cons_of_mem _ hslot, hadd⟩⟩
        · refine .inr ⟨heq, .inr ⟨?_, hadd⟩⟩
          rw [List.map_cons, List.mem_cons]
          rintro (hhead | htail)
          · exact he hhead.symm
          · exact hnew htail

/-- Each paragraph with copies has one entry, made of all its copies. -/
structure Filed (copies : List Copy) (entries : List (Place × Slot)) : Prop where
  keys : (entries.map Prod.fst).Nodup
  mem_keys : ∀ p, p ∈ entries.map Prod.fst ↔ ∃ c ∈ copies, c.place = p
  counterparts : ∀ entry ∈ entries, entry.2.counterparts =
    (copies.filter fun c => c.place = entry.1).map Copy.canonRef
  sentences : ∀ entry ∈ entries, ∀ s, s ∈ entry.2.sentences ↔
    ∃ c ∈ copies, c.place = entry.1 ∧ c.sentence = s

theorem mem_sentences_add (slot : Slot) (c : Copy) (s : Text) :
    s ∈ (slot.add c).sentences ↔ s ∈ slot.sentences ∨ c.sentence = s := by
  simp only [Slot.add]
  split
  · rename_i hmem
    constructor
    · exact .inl
    · rintro (h | rfl)
      · exact h
      · exact hmem
  · rw [List.mem_append, List.mem_singleton, eq_comm (a := s)]

theorem Filed.file (h : Filed copies entries) : Filed (copies ++ [c]) (file c entries) where
  keys := by
    rw [keys_file]
    split
    · exact h.keys
    · rename_i hnew
      exact List.nodup_append_comm.mp (List.nodup_cons.mpr ⟨hnew, h.keys⟩)
  mem_keys p := by
    have hp := h.mem_keys p
    have hc := h.mem_keys c.place
    rw [keys_file]
    simp only [List.mem_append, List.mem_singleton, or_and_right, exists_or, exists_eq_left]
    split
    · rename_i hold
      rw [hp]
      refine ⟨.inl, ?_⟩
      rintro (hmem | rfl)
      · exact hmem
      · exact hc.1 hold
    · rw [List.mem_append, List.mem_singleton, hp, eq_comm (a := p)]
  counterparts e he := by
    rw [List.filter_append, List.map_append]
    rcases mem_file h.keys he with ⟨hold, hne⟩ | ⟨heq, ⟨slot, hslot, hadd⟩ | ⟨hnew, hadd⟩⟩
    · have hother : ¬ c.place = e.1 := fun h => hne h.symm
      simp [h.counterparts e hold, hother]
    · rw [hadd, heq, Slot.add, h.counterparts _ hslot]
      simp
    · have hnone : (copies.filter fun c' => c'.place = e.1) = [] := by
        refine List.filter_eq_nil_iff.mpr fun c' hc' hplace => hnew ?_
        exact (h.mem_keys _).2 ⟨c', hc', heq ▸ of_decide_eq_true hplace⟩
      rw [hnone, hadd, heq]
      simp [Slot.add]
  sentences e he s := by
    simp only [List.mem_append, List.mem_singleton, or_and_right, exists_or, exists_eq_left]
    rcases mem_file h.keys he with ⟨hold, hne⟩ | ⟨heq, ⟨slot, hslot, hadd⟩ | ⟨hnew, hadd⟩⟩
    · have hother : ¬ c.place = e.1 := fun h => hne h.symm
      simp [h.sentences e hold, hother]
    · rw [hadd, mem_sentences_add, h.sentences _ hslot, heq]
      simp
    · have hnone : ¬ ∃ c' ∈ copies, c'.place = e.1 ∧ c'.sentence = s := by
        rintro ⟨c', hc', hplace, -⟩
        exact hnew ((h.mem_keys _).2 ⟨c', hc', heq ▸ hplace⟩)
      rw [hadd, mem_sentences_add, iff_false_intro hnone, false_or]
      simp [heq]

theorem filed_grouped (copies : List Copy) : Filed copies (grouped copies) := by
  induction copies using List.reverseRecOn with
  | nil => exact ⟨List.nodup_nil, by simp [grouped], by simp [grouped], by simp [grouped]⟩
  | append_singleton copies c ih =>
    rw [grouped, List.foldl_append]
    exact ih.file

/-- What the loop has taken keeps the caps of each section. -/
structure Taken.Within (sections : List (Text × Text)) (taken : Taken)
    (seen : List RewriteTarget) : Prop where
  sublist : taken.capped.Sublist seen
  counted : ∀ ref, taken.perSection.count ref =
    (taken.capped.map RewriteTarget.sectionRef).count ref
  paras : ∀ t ∈ taken.capped, t.place ∈ taken.takenParas
  perSection : ∀ ref, (taken.capped.map RewriteTarget.sectionRef).count ref ≤ limit sections ref
  apart : ∀ t ∈ taken.capped, ∀ t' ∈ taken.capped, t.sectionRef = t'.sectionRef →
    t.paraIndex ≠ t'.paraIndex + 1

theorem apart_of_not_beside {takenParas : List Place} (h : ¬ besideTaken takenParas t)
    (ht' : t'.place ∈ takenParas) (href : t'.sectionRef = t.sectionRef) :
    t'.paraIndex + 1 ≠ t.paraIndex ∧ t'.paraIndex ≠ t.paraIndex + 1 := by
  rw [besideTaken, List.any_eq_true] at h
  constructor
  · intro heq
    exact h ⟨_, ht', by simp [RewriteTarget.place, href, heq]⟩
  · intro heq
    exact h ⟨_, ht', by simp [RewriteTarget.place, href, heq]⟩

theorem Taken.Within.step {seen : List RewriteTarget} (h : taken.Within sections seen)
    (t : RewriteTarget) : (takeTarget sections taken t).Within sections (seen ++ [t]) := by
  have hskip : taken.Within sections (seen ++ [t]) :=
    { h with sublist := h.sublist.trans (List.sublist_append_left _ _) }
  unfold takeTarget
  split
  · exact hskip
  · rename_i hroom
    split
    · exact hskip
    · rename_i hbeside
      constructor
      · exact h.sublist.append (List.Sublist.refl _)
      · intro ref
        simp [List.count_cons, h.counted ref]
      · intro t' ht'
        rcases List.mem_append.mp ht' with hold | hnew
        · exact List.mem_cons_of_mem _ (h.paras t' hold)
        · obtain rfl := List.mem_singleton.mp hnew
          exact List.mem_cons_self
      · intro ref
        have hcount := h.counted ref
        have hle := h.perSection ref
        rw [List.map_append, List.count_append]
        by_cases href : t.sectionRef = ref
        · subst href
          simp
          omega
        · simpa [href] using hle
      · intro t₁ h₁ t₂ h₂ href
        rcases List.mem_append.mp h₁ with hold₁ | hnew₁
        · rcases List.mem_append.mp h₂ with hold₂ | hnew₂
          · exact h.apart t₁ hold₁ t₂ hold₂ href
          · obtain rfl := List.mem_singleton.mp hnew₂
            exact (apart_of_not_beside hbeside (h.paras t₁ hold₁) href).2
        · obtain rfl := List.mem_singleton.mp hnew₁
          rcases List.mem_append.mp h₂ with hold₂ | hnew₂
          · have hne := (apart_of_not_beside hbeside (h.paras t₂ hold₂) href.symm).1
            exact fun heq => hne heq.symm
          · obtain rfl := List.mem_singleton.mp hnew₂
            omega

theorem within_foldl (sections : List (Text × Text)) (targets : List RewriteTarget) :
    (targets.foldl (takeTarget sections) ⟨[], [], []⟩).Within sections targets := by
  induction targets using List.reverseRecOn with
  | nil => constructor <;> simp
  | append_singleton targets t ih =>
    rw [List.foldl_append]
    exact ih.step t

theorem capTargets_sublist (sections : List (Text × Text)) (targets : List RewriteTarget) :
    (capTargets sections targets).Sublist targets :=
  (List.take_sublist _ _).trans (within_foldl sections targets).sublist

theorem limit_of_mem (hdistinct : (sections.map Prod.fst).Nodup) {s : Text × Text}
    (hs : s ∈ sections) : limit sections s.1 =
      min maxParagraphsPerSection (max 1 ((paragraphs s.2).length / 4)) := by
  have hmem : (s.1, max 1 ((paragraphs s.2).length / 4)) ∈
      sections.map fun s => (s.1, max 1 ((paragraphs s.2).length / 4)) :=
    List.mem_map.mpr ⟨s, hs, rfl⟩
  have hkeys : ((sections.map fun s => (s.1, max 1 ((paragraphs s.2).length / 4))).map
      Prod.fst).Nodup := by
    rw [List.map_map]
    exact hdistinct
  rw [limit, (lastFor_eq_some hkeys).2 hmem]
  rfl

theorem capped_capTargets (hdistinct : (sections.map Prod.fst).Nodup)
    (h : (targets.map RewriteTarget.place).Nodup) :
    Capped sections (capTargets sections targets) := by
  have hwithin := within_foldl sections targets
  have htake := List.take_sublist maxCallsPerDoc
    (targets.foldl (takeTarget sections) ⟨[], [], []⟩).capped
  constructor
  · exact List.length_take_le _ _
  · exact ((capTargets_sublist sections targets).map _).nodup h
  · intro s hs
    rw [← limit_of_mem hdistinct hs]
    exact ((htake.map _).count_le _).trans (hwithin.perSection _)
  · intro t ht t' ht'
    exact hwithin.apart t (htake.subset ht) t' (htake.subset ht')

theorem mem_proposed : t ∈ ((grouped copies).map toTarget).mergeSort comesFirst ↔
    ∃ entry ∈ grouped copies, toTarget entry = t := by
  rw [List.mem_mergeSort, List.mem_map]

theorem nodup_proposed (copies : List Copy) :
    ((((grouped copies).map toTarget).mergeSort comesFirst).map RewriteTarget.place).Nodup := by
  refine ((List.mergeSort_perm _ _).map _).nodup_iff.mpr ?_
  rw [List.map_map]
  exact (filed_grouped copies).keys

/-- A target's reference is the earliest section, its sentences are those of its copies. -/
theorem target_of_copies (h : entry ∈ grouped copies) :
    (∃ c ∈ copies, c.place = (toTarget entry).place) ∧
    earliest copies (toTarget entry).place = some (toTarget entry).counterpartRef ∧
    ∀ s, s ∈ (toTarget entry).dupSentences ↔
      ∃ c ∈ copies, c.place = (toTarget entry).place ∧ c.sentence = s := by
  have hfiled := filed_grouped copies
  have hplace := (hfiled.mem_keys entry.1).1 (List.mem_map_of_mem h)
  refine ⟨hplace, ?_, hfiled.sentences entry h⟩
  obtain ⟨c, hc, hc'⟩ := hplace
  have hne : ((copies.filter fun c => c.place = entry.1).map Copy.canonRef) ≠ [] := by
    refine List.ne_nil_of_mem (List.mem_map_of_mem (List.mem_filter.mpr ⟨hc, ?_⟩))
    exact decide_eq_true hc'
  change earliestRef ((copies.filter fun c => c.place = entry.1).map Copy.canonRef) = _
  rw [toTarget, hfiled.counterparts entry h]
  obtain ⟨ref, refs, hrefs⟩ := List.exists_cons_of_ne_nil hne
  rw [hrefs]
  rfl

theorem mem_findTargets (h : t ∈ findTargets sections isAlnum set) :
    ∃ entry ∈ grouped (laterCopies sections isAlnum set), toTarget entry = t :=
  mem_proposed.1 ((capTargets_sublist _ _).subset h)

theorem StatedIn.mono {busy busy' : Place → Prop} {sentence : Text}
    (h : StatedIn sections isAlnum busy ref sentence) (hbusy : ∀ p, busy' p → busy p) :
    StatedIn sections isAlnum busy' ref sentence := by
  obtain ⟨unit, hunit, hsimilar, i, para, hpara, hin, hfree⟩ := h
  exact ⟨unit, hunit, hsimilar, i, para, hpara, hin, fun hbusy' => hfree (hbusy _ hbusy')⟩

/-- The detector's pairs, where what it finds is in order already. -/
theorem duplicatePairs_of_sorted {found : List (Nat × Nat)}
    (htwo : ¬ (unitsBySection isAlnum sections).length < 2)
    (hfound : (set.order (candidatePairs ((unitsBySection isAlnum sections).map fun x =>
      weightedTokens x.2))).filter (duplicates ((unitsBySection isAlnum sections).map fun x =>
      weightedTokens x.2) (unitsBySection isAlnum sections) duplicateThreshold) = found)
    (hsorted : (found.map (toPair ((unitsBySection isAlnum sections).map fun x =>
      weightedTokens x.2) (unitsBySection isAlnum sections))).Pairwise fun p q => sortsBefore p q) :
    duplicatePairs isAlnum set sections duplicateThreshold = found.map
      (toPair ((unitsBySection isAlnum sections).map fun x => weightedTokens x.2)
        (unitsBySection isAlnum sections)) := by
  rw [duplicatePairs]
  dsimp only
  rw [if_neg htwo, hfound]
  exact List.mergeSort_of_pairwise hsorted

theorem findTargets_of_sorted (hlater : laterCopies sections isAlnum set = copies)
    (hsorted : ((grouped copies).map toTarget).Pairwise fun t t' => comesFirst t t') :
    findTargets sections isAlnum set = capTargets sections ((grouped copies).map toTarget) := by
  rw [findTargets, hlater, List.mergeSort_of_pairwise hsorted]

/-- The second section says what the first and what the third say. -/
def chain : List (Text × Text) :=
  [("1.1".toList, "국내 시장은 지난 몇 해 동안 꾸준히 성장해 온 것으로 나타났음".toList),
    ("1.2".toList, ("국내 시장은 지난 몇 해 동안 꾸준히 성장해 온 것으로 나타났음에도 " ++
      "해외 공장의 설비 투자 규모는 다시 큰 폭으로 줄어들 것으로 예상됨").toList),
    ("1.3".toList, "해외 공장의 설비 투자 규모는 다시 큰 폭으로 줄어들 것으로 예상됨".toList)]

end RownRg.DedupRewrite

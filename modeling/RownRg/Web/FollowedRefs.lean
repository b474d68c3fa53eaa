import Mathlib.Data.List.Flatten
import Mathlib.Data.List.Perm.Basic
import RownRg.Web.OutlineEditor

/-! What an edit of the outline does to the references. -/

open PyText Runs

namespace RownRg.Web

/-- What a reference can name. -/
inductive Item where
  | chapter (id : Text)
  | section (id : Text)
  deriving DecidableEq

def Item.id : Item → Text
  | .chapter id => id
  | .section id => id

def items (d : Draft) : List Item :=
  (chapterIds d).map .chapter ++ (sectionIds d).map .section

/-- The element with this number, counted from one. -/
def numbered {α : Type} (xs : List α) : Nat → Option α
  | 0 => none
  | n + 1 => xs[n]?

def sectionAt (d : Draft) (chapter n : Nat) : Option DraftSection :=
  (numbered d chapter).bind fun ch => numbered ch.sections n

/-- The item whose number a reference gives. -/
def names (d : Draft) (raw : Text) : Option Item :=
  (parseRefLabel raw).bind fun r =>
    match r.sectionNumber with
    | none => (numbered d r.chapter).map fun ch => .chapter ch.id
    | some n => (sectionAt d r.chapter n).map fun s => .section s.id

/-- A reference by its place. -/
def entry (d : Draft) (ci si k : Nat) : Option Text :=
  ((d[ci]?.bind fun ch => ch.sections[si]?).bind fun s => s.buildsOn[k]?)

/-- Every reference that named an item names the same item, or none if that is gone. -/
def RefsFollow (d : Draft) (e : Edit) (d' : Draft) : Prop :=
  ∀ ci si k raw raw', entry (edited d e) ci si k = some raw → entry d' ci si k = some raw' →
    ∀ x, names d raw = some x → names d' raw' = if x ∈ items d' then some x else none

/-- No other item takes the number of one that is gone and still referred to. -/
def NumbersFree (d : Draft) (e : Edit) (_ : Draft) : Prop :=
  ∀ ci si k raw, entry (edited d e) ci si k = some raw → ∀ x, names d raw = some x →
    x ∉ items (edited d e) ∨ x.id = [] →
      names (edited d e) raw = if x ∈ items (edited d e) then some x else none

/-- No two chapters have the same id, and no two sections. -/
def Distinct (d : Draft) : Prop := (chapterIds d).Nodup ∧ (sectionIds d).Nodup

instance decidableDistinct (d : Draft) : Decidable (Distinct d) :=
  inferInstanceAs (Decidable (_ ∧ _))

/-! The tables of labels and ids. -/

variable {α : Type} {d before after : Draft} {e : Edit} {raw id : Text} {x : Item}

theorem mem_zipIdx_one {xs : List α} {y : α} {n : Nat} :
    (y, n) ∈ xs.zipIdx 1 ↔ numbered xs n = some y := by
  cases n with
  | zero => simp [numbered, List.mem_zipIdx_iff_le_and_getElem?_sub]
  | succ n => simp [numbered, List.mem_zipIdx_iff_le_and_getElem?_sub]

theorem mem_of_numbered {xs : List α} {y : α} {n : Nat} (h : numbered xs n = some y) : y ∈ xs := by
  cases n with
  | zero => cases h
  | succ n => exact List.mem_of_getElem? h

theorem mem_places {chapter n : Nat} {s : DraftSection} :
    (chapter, n, s) ∈ places d ↔ sectionAt d chapter n = some s := by
  unfold places sectionAt
  constructor
  · intro h
    obtain ⟨⟨ch, i⟩, hch, h⟩ := List.mem_flatMap.mp h
    obtain ⟨⟨s', j⟩, hs, h⟩ := List.mem_map.mp h
    cases h
    rw [mem_zipIdx_one.1 hch, Option.bind_some, mem_zipIdx_one.1 hs]
  · intro h
    obtain ⟨ch, hch, hs⟩ := Option.bind_eq_some_iff.mp h
    exact List.mem_flatMap.mpr ⟨(ch, chapter), mem_zipIdx_one.2 hch,
      List.mem_map.mpr ⟨(s, n), mem_zipIdx_one.2 hs, rfl⟩⟩

theorem sectionIds_eq (d : Draft) : sectionIds d = (places d).map fun x => x.2.2.id := by
  have hinner : ∀ (xs : List DraftSection) (c : Nat),
      ((xs.zipIdx 1).map fun y => (c, y.2, y.1)).map (fun x => x.2.2.id) = xs.map (·.id) := by
    intro xs c
    have h := List.map_map (f := Prod.fst) (g := DraftSection.id) (l := xs.zipIdx 1)
    rw [List.zipIdx_map_fst] at h
    rw [List.map_map, h]
    rfl
  have houter := List.flatMap_map (f := Prod.fst) (l := d.zipIdx 1)
    (g := fun ch : DraftChapter => ch.sections.map (·.id))
  rw [List.zipIdx_map_fst] at houter
  simp only [sectionIds, places, List.map_flatMap, hinner, houter]

theorem mem_sectionIds : id ∈ sectionIds d ↔ ∃ chapter n s, sectionAt d chapter n = some s ∧
    s.id = id := by
  rw [sectionIds_eq]
  constructor
  · intro h
    obtain ⟨⟨chapter, n, s⟩, hs, rfl⟩ := List.mem_map.mp h
    exact ⟨chapter, n, s, mem_places.1 hs, rfl⟩
  · rintro ⟨chapter, n, s, h, rfl⟩
    exact List.mem_map.mpr ⟨(chapter, n, s), mem_places.2 h, rfl⟩

theorem mem_chapterIds : id ∈ chapterIds d ↔ ∃ chapter ch, numbered d chapter = some ch ∧
    ch.id = id := by
  unfold chapterIds
  constructor
  · intro h
    obtain ⟨ch, hch, rfl⟩ := List.mem_map.mp h
    obtain ⟨i, hi⟩ := List.getElem?_of_mem hch
    exact ⟨i + 1, ch, hi, rfl⟩
  · rintro ⟨chapter, ch, h, rfl⟩
    exact List.mem_map_of_mem (mem_of_numbered h)

/-- An id has one place. -/
theorem Distinct.place {c c' n n' : Nat} {s s' : DraftSection} (hd : Distinct d)
    (hs : sectionAt d c n = some s) (hs' : sectionAt d c' n' = some s') (h : s.id = s'.id) :
    c = c' ∧ n = n' := by
  have hnodup := hd.2
  rw [sectionIds_eq] at hnodup
  have heq := List.inj_on_of_nodup_map hnodup (mem_places.2 hs) (mem_places.2 hs') h
  exact ⟨congrArg Prod.fst heq, congrArg (·.2.1) heq⟩

theorem Distinct.chapterPlace {c c' : Nat} {ch ch' : DraftChapter} (hd : Distinct d)
    (hc : numbered d c = some ch) (hc' : numbered d c' = some ch') (h : ch.id = ch'.id) :
    c = c' := by
  have hnodup : ((d.zipIdx 1).map fun x => x.1.id).Nodup := by
    have hmap := List.map_map (f := Prod.fst) (g := DraftChapter.id) (l := d.zipIdx 1)
    rw [List.zipIdx_map_fst] at hmap
    exact hmap ▸ hd.1
  have heq := List.inj_on_of_nodup_map hnodup (mem_zipIdx_one.2 hc) (mem_zipIdx_one.2 hc') h
  exact congrArg Prod.snd heq

theorem get_of_mem [DecidableEq α] {entries : List (α × Text)} {a : α} {t : Text}
    (hfun : ∀ t', (a, t') ∈ entries → t' = t) (h : (a, t) ∈ entries) :
    get entries a = if t = [] then none else some t := by
  rw [get, lastFor_of_mem hfun h]
  by_cases ht : t = []
  · simp [ht]
  · simp [ht]

theorem get_of_notMem [DecidableEq α] {entries : List (α × Text)} {a : α}
    (h : ∀ t, (a, t) ∉ entries) : get entries a = none := by
  have hnone : lastFor a entries = none := lastFor_eq_none_iff.2 fun y hy heq => h y.2 (heq ▸ hy)
  rw [get, hnone]
  rfl

theorem sectionLabel_ne_nil (c n : Nat) : BuildsOn.sectionLabel c n ≠ [] := by
  simp [BuildsOn.sectionLabel]

variable {c n : Nat} {s : DraftSection} {ch : DraftChapter}

theorem mem_idByLabel {t : Text} :
    (BuildsOn.sectionLabel c n, t) ∈ (refIndex d).idByLabel ↔
      ∃ s, sectionAt d c n = some s ∧ s.id = t := by
  constructor
  · intro h
    obtain ⟨⟨c', n', s⟩, hs, heq⟩ := List.mem_map.mp h
    obtain ⟨hlabel, rfl⟩ := Prod.mk.inj heq
    obtain ⟨rfl, rfl⟩ := BuildsOn.sectionLabel_injective hlabel
    exact ⟨s, mem_places.1 hs, rfl⟩
  · rintro ⟨s, hs, rfl⟩
    exact List.mem_map.mpr ⟨(c, n, s), mem_places.2 hs, rfl⟩

theorem mem_chapterIdByNum {t : Text} :
    (ofNat c, t) ∈ (refIndex d).chapterIdByNum ↔ ∃ ch, numbered d c = some ch ∧ ch.id = t := by
  constructor
  · intro h
    obtain ⟨⟨ch, c'⟩, hch, heq⟩ := List.mem_map.mp h
    obtain ⟨hnum, rfl⟩ := Prod.mk.inj heq
    obtain rfl := ofNat_injective hnum
    exact ⟨ch, mem_zipIdx_one.1 hch, rfl⟩
  · rintro ⟨ch, hch, rfl⟩
    exact List.mem_map.mpr ⟨(ch, c), mem_zipIdx_one.2 hch, rfl⟩

theorem mem_labelById {t : Text} :
    (id, t) ∈ (refIndex d).labelById ↔
      ∃ c n s, sectionAt d c n = some s ∧ s.id = id ∧ BuildsOn.sectionLabel c n = t := by
  constructor
  · intro h
    obtain ⟨⟨c, n, s⟩, hs, heq⟩ := List.mem_map.mp h
    obtain ⟨hid, hlabel⟩ := Prod.mk.inj heq
    exact ⟨c, n, s, mem_places.1 hs, hid, hlabel⟩
  · rintro ⟨c, n, s, hs, rfl, rfl⟩
    exact List.mem_map.mpr ⟨(c, n, s), mem_places.2 hs, rfl⟩

theorem mem_numByChapterId {t : Text} :
    (id, t) ∈ (refIndex d).numByChapterId ↔
      ∃ c ch, numbered d c = some ch ∧ ch.id = id ∧ ofNat c = t := by
  constructor
  · intro h
    obtain ⟨⟨ch, c⟩, hch, heq⟩ := List.mem_map.mp h
    obtain ⟨hid, hnum⟩ := Prod.mk.inj heq
    exact ⟨c, ch, mem_zipIdx_one.1 hch, hid, hnum⟩
  · rintro ⟨c, ch, hch, rfl, rfl⟩
    exact List.mem_map.mpr ⟨(ch, c), mem_zipIdx_one.2 hch, rfl⟩

theorem get_idByLabel (h : sectionAt d c n = some s) :
    get (refIndex d).idByLabel (BuildsOn.sectionLabel c n) =
      if s.id = [] then none else some s.id := by
  refine get_of_mem (fun t ht => ?_) (mem_idByLabel.2 ⟨s, h, rfl⟩)
  obtain ⟨s', hs', rfl⟩ := mem_idByLabel.1 ht
  rw [Option.some.inj (hs'.symm.trans h)]

theorem get_chapterIdByNum (h : numbered d c = some ch) :
    get (refIndex d).chapterIdByNum (ofNat c) = if ch.id = [] then none else some ch.id := by
  refine get_of_mem (fun t ht => ?_) (mem_chapterIdByNum.2 ⟨ch, h, rfl⟩)
  obtain ⟨ch', hch', rfl⟩ := mem_chapterIdByNum.1 ht
  rw [Option.some.inj (hch'.symm.trans h)]

theorem get_labelById (hd : Distinct d) (h : sectionAt d c n = some s) :
    get (refIndex d).labelById s.id = some (BuildsOn.sectionLabel c n) := by
  have honly : ∀ t, (s.id, t) ∈ (refIndex d).labelById → t = BuildsOn.sectionLabel c n := by
    intro t ht
    obtain ⟨c', n', s', hs', hid, rfl⟩ := mem_labelById.1 ht
    obtain ⟨rfl, rfl⟩ := hd.place hs' h hid
    rfl
  rw [get_of_mem honly (mem_labelById.2 ⟨c, n, s, h, rfl, rfl⟩), if_neg (sectionLabel_ne_nil c n)]

theorem get_numByChapterId (hd : Distinct d) (h : numbered d c = some ch) :
    get (refIndex d).numByChapterId ch.id = some (ofNat c) := by
  have honly : ∀ t, (ch.id, t) ∈ (refIndex d).numByChapterId → t = ofNat c := by
    intro t ht
    obtain ⟨c', ch', hch', hid, rfl⟩ := mem_numByChapterId.1 ht
    rw [hd.chapterPlace hch' h hid]
  rw [get_of_mem honly (mem_numByChapterId.2 ⟨c, ch, h, rfl, rfl⟩), if_neg ofNat_ne_nil]

/-! One reference. -/

theorem names_chapter (h : (parseRefLabel raw).map (fun r => (r.chapter, r.sectionNumber)) =
    some (c, none)) : names d raw = (numbered d c).map fun ch => .chapter ch.id := by
  obtain ⟨r, hr, heq⟩ := Option.map_eq_some_iff.mp h
  obtain ⟨rfl, hsection⟩ := Prod.mk.inj heq
  rw [names, hr, Option.bind_some, hsection]

theorem names_section (h : (parseRefLabel raw).map (fun r => (r.chapter, r.sectionNumber)) =
    some (c, some n)) : names d raw = (sectionAt d c n).map fun s => .section s.id := by
  obtain ⟨r, hr, heq⟩ := Option.map_eq_some_iff.mp h
  obtain ⟨rfl, hsection⟩ := Prod.mk.inj heq
  rw [names, hr, Option.bind_some, hsection]

/-- What a reference names, by the kind of its target. -/
theorem names_cases (h : names d raw = some x) : ∃ r, parseRefLabel raw = some r ∧
    ((r.sectionNumber = none ∧ ∃ ch, numbered d r.chapter = some ch ∧ x = .chapter ch.id) ∨
      ∃ n s, r.sectionNumber = some n ∧ sectionAt d r.chapter n = some s ∧ x = .section s.id) := by
  obtain ⟨r, hr, h⟩ := Option.bind_eq_some_iff.mp h
  refine ⟨r, hr, ?_⟩
  cases hn : r.sectionNumber with
  | none =>
    rw [hn] at h
    obtain ⟨ch, hch, rfl⟩ := Option.map_eq_some_iff.mp h
    exact Or.inl ⟨rfl, ch, hch, rfl⟩
  | some n =>
    rw [hn] at h
    obtain ⟨s, hs, rfl⟩ := Option.map_eq_some_iff.mp h
    exact Or.inr ⟨n, s, rfl, hs, rfl⟩

theorem chapter_mem_items : Item.chapter id ∈ items d ↔ id ∈ chapterIds d := by simp [items]

theorem section_mem_items : Item.section id ∈ items d ↔ id ∈ sectionIds d := by simp [items]

/-- A reference keeps its text when its target is gone. -/
theorem remapRef_gone (h : names before raw = some x) (hgone : x ∉ items after ∨ x.id = []) :
    remapRef (refIndex before) (refIndex after) raw = raw := by
  obtain ⟨r, hr, ⟨hnone, ch, hch, rfl⟩ | ⟨n, s, hn, hs, rfl⟩⟩ := names_cases h
  · have hget : (get (refIndex before).chapterIdByNum (ofNat r.chapter)).bind
        (get (refIndex after).numByChapterId) = none := by
      rw [get_chapterIdByNum hch]
      split
      · rfl
      · rename_i hid
        rcases hgone with hgone | hgone
        · refine get_of_notMem fun t ht => hgone ?_
          obtain ⟨c, ch', hch', heq, -⟩ := mem_numByChapterId.1 ht
          exact chapter_mem_items.2 (mem_chapterIds.2 ⟨c, ch', hch', heq⟩)
        · exact absurd hgone hid
    simp only [remapRef, hr, hnone, hget]
  · have hget : (get (refIndex before).idByLabel (BuildsOn.sectionLabel r.chapter n)).bind
        (get (refIndex after).labelById) = none := by
      rw [get_idByLabel hs]
      split
      · rfl
      · rename_i hid
        rcases hgone with hgone | hgone
        · refine get_of_notMem fun t ht => hgone ?_
          obtain ⟨c, n', s', hs', heq, -⟩ := mem_labelById.1 ht
          exact section_mem_items.2 (mem_sectionIds.2 ⟨c, n', s', hs', heq⟩)
        · exact absurd hgone hid
    simp only [remapRef, hr, hn, hget]

/-- A reference names the same item by its new number. -/
theorem names_remapRef (ha : Distinct after) (h : names before raw = some x) (hid : x.id ≠ [])
    (hx : x ∈ items after) :
    names after (remapRef (refIndex before) (refIndex after) raw) = some x := by
  obtain ⟨r, hr, ⟨hnone, ch, hch, rfl⟩ | ⟨n, s, hn, hs, rfl⟩⟩ := names_cases h
  · obtain ⟨c, ch', hch', heq⟩ := mem_chapterIds.1 (chapter_mem_items.1 hx)
    have hget : (get (refIndex before).chapterIdByNum (ofNat r.chapter)).bind
        (get (refIndex after).numByChapterId) = some (ofNat c) := by
      have hne : ch.id ≠ [] := hid
      rw [get_chapterIdByNum hch, if_neg hne, Option.bind_some, ← heq, get_numByChapterId ha hch']
    have hnew : remapRef (refIndex before) (refIndex after) raw = formatRefLabel ⟨c, none, none⟩ := by
      simp only [remapRef, hr, hnone, hget]
      rfl
    rw [hnew, names_chapter (parseRefLabel_format (by simp)), hch', Option.map_some, heq]
  · obtain ⟨c, n', s', hs', heq⟩ := mem_sectionIds.1 (section_mem_items.1 hx)
    have hget : (get (refIndex before).idByLabel (BuildsOn.sectionLabel r.chapter n)).bind
        (get (refIndex after).labelById) = some (BuildsOn.sectionLabel c n') := by
      have hne : s.id ≠ [] := hid
      rw [get_idByLabel hs, if_neg hne, Option.bind_some, ← heq, get_labelById ha hs']
    have hnew : remapRef (refIndex before) (refIndex after) raw =
        formatRefLabel ⟨c, some n', r.metric⟩ := by
      simp only [remapRef, hr, hn, hget, BuildsOn.splitOn_sectionLabel, List.getD_cons_zero,
        List.getD_cons_succ, natOf_ofNat]
    have hmetric := parseRefLabel_metric hr
    have hread := parseRefLabel_format (r := ⟨c, some n', r.metric⟩) hmetric
    rw [hnew, names_section hread, hs', Option.map_some, heq]

/-! The renumbered draft has the items of the other at the same places. -/

theorem numbered_map {β : Type} (f : α → β) (xs : List α) (n : Nat) :
    numbered (xs.map f) n = (numbered xs n).map f := by
  cases n with
  | zero => rfl
  | succ n => exact List.getElem?_map

theorem chapterIds_withRemappedRefs (before after : Draft) :
    chapterIds (withRemappedRefs before after) = chapterIds after := by
  simp [chapterIds, withRemappedRefs]

theorem sectionIds_withRemappedRefs (before after : Draft) :
    sectionIds (withRemappedRefs before after) = sectionIds after := by
  simp [sectionIds, withRemappedRefs, List.flatMap_map, Function.comp_def]

theorem items_withRemappedRefs (before after : Draft) :
    items (withRemappedRefs before after) = items after := by
  rw [items, chapterIds_withRemappedRefs, sectionIds_withRemappedRefs, items]

theorem names_withRemappedRefs (before after : Draft) (raw : Text) :
    names (withRemappedRefs before after) raw = names after raw := by
  have hchapter : ∀ c, (numbered (withRemappedRefs before after) c).map (fun ch => Item.chapter ch.id)
      = (numbered after c).map fun ch => .chapter ch.id := by
    intro c
    rw [withRemappedRefs, numbered_map, Option.map_map]
    rfl
  have hsection : ∀ c n, (sectionAt (withRemappedRefs before after) c n).map
      (fun s => Item.section s.id) = (sectionAt after c n).map fun s => .section s.id := by
    intro c n
    rw [sectionAt, withRemappedRefs, numbered_map, sectionAt]
    cases numbered after c with
    | none => rfl
    | some ch =>
      rw [Option.map_some, Option.bind_some, Option.bind_some, numbered_map, Option.map_map]
      rfl
  simp only [names, hchapter, hsection]

theorem entry_withRemappedRefs (before after : Draft) (ci si k : Nat) :
    entry (withRemappedRefs before after) ci si k =
      (entry after ci si k).map (remapRef (refIndex before) (refIndex after)) := by
  rw [entry, withRemappedRefs, List.getElem?_map, entry]
  cases after[ci]? with
  | none => rfl
  | some ch =>
    rw [Option.map_some, Option.bind_some, Option.bind_some, List.getElem?_map]
    cases ch.sections[si]? with
    | none => rfl
    | some s => exact List.getElem?_map

/-! Ids stay distinct. -/

/-- What changes in one chapter changes there only. -/
theorem sectionIds_modify (h : d[n]? = some ch) : ∃ rest,
    (sectionIds d).Perm (ch.sections.map (·.id) ++ rest) ∧ ∀ f : DraftChapter → DraftChapter,
      (sectionIds (d.modify n f)).Perm ((f ch).sections.map (·.id) ++ rest) := by
  induction d generalizing n with
  | nil => cases h
  | cons c d ih =>
    cases n with
    | zero =>
      obtain rfl : c = ch := by simpa using h
      exact ⟨sectionIds d, List.Perm.refl _, fun f => List.Perm.refl _⟩
    | succ n =>
      obtain ⟨rest, hperm, hmodify⟩ := ih (by simpa using h)
      have hswap : ∀ xs : List Text, (c.sections.map (·.id) ++ (xs ++ rest)).Perm
          (xs ++ (c.sections.map (·.id) ++ rest)) := by
        intro xs
        rw [← List.append_assoc, ← List.append_assoc]
        exact List.perm_append_comm.append_right rest
      refine ⟨c.sections.map (·.id) ++ rest, ?_, fun f => ?_⟩
      · exact (hperm.append_left _).trans (hswap _)
      · exact ((hmodify f).append_left _).trans (hswap _)

theorem chapterIds_modify {f : DraftChapter → DraftChapter} (h : ∀ ch, (f ch).id = ch.id) :
    chapterIds (d.modify n f) = chapterIds d := by
  induction d generalizing n with
  | nil => rw [List.modify_nil]
  | cons c d ih =>
    cases n with
    | zero => simp [chapterIds, h]
    | succ n =>
      have htail := ih (n := n)
      simp_all [chapterIds]

theorem modify_of_none {f : α → α} {xs : List α} (h : xs[n]? = none) : xs.modify n f = xs := by
  rw [List.modify_eq_self]
  exact List.getElem?_eq_none_iff.mp h

theorem perm_insertAt (xs : List α) (i : Nat) (y : α) : (insertAt xs i y).Perm (y :: xs) := by
  have h : (insertAt xs i y).Perm (y :: (xs.take i ++ xs.drop i)) := List.perm_middle
  rwa [List.take_append_drop] at h

theorem perm_eraseIdx {xs : List α} {i : Nat} {y : α} (h : xs[i]? = some y) :
    xs.Perm (y :: xs.eraseIdx i) := by
  obtain ⟨hlt, rfl⟩ := List.getElem?_eq_some_iff.mp h
  exact (List.getElem_cons_eraseIdx_perm hlt).symm

theorem perm_swap {xs : List α} {i : Nat} {y z : α} (hy : xs[i]? = some y)
    (hz : xs[i + 1]? = some z) : ((xs.set i z).set (i + 1) y).Perm xs := by
  induction xs generalizing i with
  | nil => cases hy
  | cons c xs ih =>
    cases i with
    | zero =>
      obtain rfl : c = y := by simpa using hy
      cases xs with
      | nil => cases hz
      | cons e xs =>
        obtain rfl : e = z := by simpa using hz
        exact List.Perm.swap _ _ _
    | succ i => exact (ih (by simpa using hy) (by simpa using hz)).cons c

theorem perm_move (xs : List α) (i : Nat) (down : Bool) : (move xs i down).Perm xs := by
  unfold move
  split
  · split
    · rename_i hx hy
      exact perm_swap hx hy
    · exact List.Perm.refl _
  · split
    · exact List.Perm.refl _
    · split
      · rename_i hx hy
        exact perm_swap hx hy
      · exact List.Perm.refl _

/-- Same chapters, and the sections of one chapter in another order or fewer. -/
theorem Distinct.modify {f : DraftChapter → DraftChapter} (hd : Distinct d)
    (hid : ∀ ch, (f ch).id = ch.id)
    (h : ∀ ch, ((f ch).sections.map (·.id)).Subperm (ch.sections.map (·.id))) :
    Distinct (d.modify n f) := by
  cases hn : d[n]? with
  | none => rwa [modify_of_none hn]
  | some ch =>
    obtain ⟨rest, hperm, hmodify⟩ := sectionIds_modify hn
    refine ⟨(chapterIds_modify hid).symm ▸ hd.1, ?_⟩
    have hsub : (sectionIds (d.modify n f)).Subperm (sectionIds d) :=
      ((hmodify f).subperm.trans ((List.subperm_append_right rest).mpr (h ch))).trans
        hperm.symm.subperm
    obtain ⟨ids, hids, hsublist⟩ := hsub
    exact hids.nodup_iff.mp (hsublist.nodup hd.2)

theorem Distinct.perm (hd : Distinct before) (h : after.Perm before) : Distinct after :=
  ⟨(h.map _).nodup_iff.mpr hd.1, (h.flatMap_right _).nodup_iff.mpr hd.2⟩

theorem Distinct.moveSectionTo {ci si toCi toSi : Nat} (hd : Distinct d) (hto : toCi < d.length) :
    Distinct (moveSectionTo d ci si toCi toSi) := by
  unfold Web.moveSectionTo
  split
  · exact hd
  · rename_i moving hmoving
    obtain ⟨ch, hch, hsi⟩ := Option.bind_eq_some_iff.mp hmoving
    dsimp only
    generalize (if ci = toCi ∧ si < toSi then toSi - 1 else toSi) = at'
    obtain ⟨rest, hperm, hmodify⟩ := sectionIds_modify hch
    let out (c : DraftChapter) : DraftChapter := { c with sections := c.sections.eraseIdx si }
    let into (c : DraftChapter) : DraftChapter :=
      { c with sections := insertAt c.sections (min at' c.sections.length) moving }
    change Distinct ((d.modify ci out).modify toCi into)
    have hids : chapterIds ((d.modify ci out).modify toCi into) = chapterIds d :=
      (chapterIds_modify (f := into) fun _ => rfl).trans (chapterIds_modify (f := out) fun _ => rfl)
    have hlen : toCi < (d.modify ci out).length := by rwa [List.length_modify]
    obtain ⟨rest', hperm', hmodify'⟩ := sectionIds_modify (List.getElem?_eq_getElem hlen)
    refine ⟨hids.symm ▸ hd.1, ?_⟩
    have hout : (sectionIds d).Perm (moving.id :: sectionIds (d.modify ci out)) := by
      refine hperm.trans (List.Perm.trans ?_ ((hmodify out).symm.cons _))
      exact ((perm_eraseIdx hsi).map DraftSection.id).append_right rest
    have hinto : (sectionIds ((d.modify ci out).modify toCi into)).Perm
        (moving.id :: sectionIds (d.modify ci out)) := by
      refine (hmodify' into).trans (List.Perm.trans ?_ (hperm'.symm.cons _))
      exact ((perm_insertAt _ _ _).map DraftSection.id).append_right rest'
    exact hinto.nodup_iff.mpr (hout.nodup_iff.mp hd.2)

theorem Distinct.append_new (hd : Distinct d) (hch : ch.id ∉ chapterIds d)
    (hnodup : (ch.sections.map (·.id)).Nodup) (hs : ∀ s ∈ ch.sections, s.id ∉ sectionIds d) :
    Distinct (ch :: d) := by
  refine ⟨List.nodup_cons.mpr ⟨hch, hd.1⟩, List.nodup_append.mpr ⟨hnodup, hd.2, ?_⟩⟩
  intro a ha b hb hab
  obtain ⟨s, hmem, rfl⟩ := List.mem_map.mp ha
  exact hs s hmem (hab ▸ hb)

theorem map_id_copyOf {ids : List Text} (h : ids.length = ch.sections.length) :
    (copyOf ch id ids).sections.map (·.id) = ids := by
  have hzip : (ch.sections.zip ids).map Prod.snd = ids := List.map_snd_zip (by omega)
  rw [copyOf, List.map_map]
  exact hzip

/-- Every edit keeps the ids distinct. -/
theorem Distinct.edited (hd : Distinct d) (hf : e.Fresh d) : Distinct (edited d e) := by
  cases e with
  | moveSection ci si toCi toSi => exact hd.moveSectionTo hf
  | moveChapter i dest =>
    change Distinct (moveChapterTo d i dest)
    unfold moveChapterTo
    split
    · exact hd
    · rename_i moving hmoving
      exact hd.perm ((perm_insertAt _ _ _).trans (perm_eraseIdx hmoving).symm)
  | shiftSection ci si down =>
    exact hd.modify (fun _ => rfl) fun ch => ((perm_move _ _ _).map _).subperm
  | removeSection ci si =>
    exact hd.modify (fun _ => rfl) fun ch => ((List.eraseIdx_sublist _ _).map _).subperm
  | addSection ci id =>
    cases hn : d[ci]? with
    | none =>
      change Distinct (d.modify ci _)
      rwa [modify_of_none hn]
    | some ch =>
      obtain ⟨rest, hperm, hmodify⟩ := sectionIds_modify hn
      have hids : chapterIds (Web.edited d (.addSection ci id)) = chapterIds d :=
        chapterIds_modify fun _ => rfl
      refine ⟨hids.symm ▸ hd.1, ?_⟩
      have hnew : (sectionIds (Web.edited d (.addSection ci id))).Perm (id :: sectionIds d) := by
        refine (hmodify _).trans (List.Perm.trans ?_ (hperm.symm.cons id))
        simp only [List.map_append, List.map_cons, List.map_nil, List.append_assoc,
          List.singleton_append]
        exact List.perm_middle
      exact hnew.nodup_iff.mpr (List.nodup_cons.mpr ⟨hf, hd.2⟩)
  | shiftChapter i down => exact hd.perm (perm_move _ _ _)
  | removeChapter i =>
    have hsub := List.eraseIdx_sublist d i
    exact ⟨(hsub.map _).nodup hd.1, (hsub.flatMap _).nodup hd.2⟩
  | duplicateChapter i id ids =>
    obtain ⟨hid, hnodup, hfresh, hlen⟩ := hf
    cases hn : d[i]? with
    | none =>
      have hsame : Web.edited d (.duplicateChapter i id ids) = d := by simp only [Web.edited, hn]
      rwa [hsame]
    | some ch =>
      have hinsert : Web.edited d (.duplicateChapter i id ids) =
          insertAt d (i + 1) (copyOf ch id ids) := by simp only [Web.edited, hn, insertAt]
      rw [hn] at hlen
      have hmap : (copyOf ch id ids).sections.map (·.id) = ids := map_id_copyOf hlen
      have hnew : Distinct (copyOf ch id ids :: d) := by
        refine hd.append_new hid (hmap.symm ▸ hnodup) fun s hs => hfresh _ ?_
        rw [← hmap]
        exact List.mem_map_of_mem hs
      rw [hinsert]
      exact hnew.perm (perm_insertAt d (i + 1) _)
  | addChapter id sectionId =>
    obtain ⟨hid, hsection⟩ := hf
    have hnew : Distinct (⟨id, [], [emptySection sectionId]⟩ :: d) := by
      refine hd.append_new hid (by simp) fun s hs => ?_
      obtain rfl := List.mem_singleton.mp hs
      exact hsection
    exact hnew.perm (List.perm_append_singleton _ _)

theorem Distinct.step (hd : Distinct before) (h : step before e = some after) : Distinct after := by
  obtain ⟨hf, heq⟩ := Option.ite_none_right_eq_some.mp h
  obtain rfl := Option.some.inj heq
  have hedited := hd.edited hf
  constructor
  · rw [chapterIds_withRemappedRefs]
    exact hedited.1
  · rw [sectionIds_withRemappedRefs]
    exact hedited.2

/-! Whole runs of edits. -/

/-- One edit carries the references along exactly when the numbers of what it deletes stay free. -/
theorem refsFollow_iff (hd : Distinct before) (h : step before e = some after) :
    RefsFollow before e after ↔ NumbersFree before e after := by
  obtain ⟨hf, heq⟩ := Option.ite_none_right_eq_some.mp h
  obtain rfl := Option.some.inj heq
  have hedited := hd.edited hf
  unfold RefsFollow NumbersFree
  constructor
  · intro hfollow ci si k raw hraw x hx hgone
    have hsame : remapRef (refIndex before) (refIndex (edited before e)) raw = raw :=
      remapRef_gone hx hgone
    have hnew := hfollow ci si k raw raw hraw (by
      rw [entry_withRemappedRefs, hraw, Option.map_some, hsame]) x hx
    rwa [names_withRemappedRefs, items_withRemappedRefs] at hnew
  · intro hfree ci si k raw raw' hraw hraw' x hx
    rw [entry_withRemappedRefs, hraw, Option.map_some] at hraw'
    obtain rfl := Option.some.inj hraw'
    rw [names_withRemappedRefs, items_withRemappedRefs]
    by_cases hgone : x ∉ items (edited before e) ∨ x.id = []
    · rw [remapRef_gone hx hgone]
      exact hfree ci si k raw hraw x hx hgone
    · rw [not_or, not_not] at hgone
      rw [names_remapRef hedited hx hgone.2 hgone.1, if_pos hgone.1]

/-- The references follow the items through a run of edits exactly when no edit of the run leaves
the number of an item it deletes to another. -/
theorem along_refsFollow_iff (hd : Distinct d) (es : List Edit) :
    Along step RefsFollow d es ↔ Along step NumbersFree d es :=
  along_congr (fun _ _ _ h hs => hs.step h) (fun _ _ _ h hs => refsFollow_iff hs h) hd

/-- The chapter of three sections, of which the first builds on the second. -/
def threeSections : Draft :=
  [⟨"c".toList, "Markets".toList,
    [⟨"a".toList, "Outlook".toList, [], [[]], [], ["1.2".toList]⟩,
      ⟨"b".toList, "Costs".toList, [], [[]], [], []⟩,
      ⟨"d".toList, "Risks".toList, [], [[]], [], []⟩]⟩]

/-- The second section goes, and the third takes its number. -/
theorem not_refsFollow_removeSection :
    ¬ ∀ d : Draft, Distinct d → ∀ es, Along step RefsFollow d es := by
  intro h
  have hrun := h threeSections (by decide) [.removeSection 0 1]
  have hfollow := (hrun (withRemappedRefs threeSections (edited threeSections (.removeSection 0 1)))
    (by rfl)).1 0 0 0 "1.2".toList "1.2".toList (by decide) (by decide)
    (.section "b".toList) (by decide)
  exact absurd hfollow (by decide)

theorem along_refsFollow_threeSections :
    Along step RefsFollow threeSections [.moveSection 0 0 0 3, .removeSection 0 0] ↔
      Along step NumbersFree threeSections [.moveSection 0 0 0 3, .removeSection 0 0] :=
  along_refsFollow_iff (by decide) _

end RownRg.Web

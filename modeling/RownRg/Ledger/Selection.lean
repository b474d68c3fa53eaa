import RownRg.Core.BuildsOn
import RownRg.Ledger.Entry
import RownRg.Lib.Dedup
import RownRg.Lib.Pairing
import Mathlib.Data.List.Sort
import Mathlib.Data.Prod.Lex
import Mathlib.Order.Lex

/-! The values of earlier sections that a section is given. -/

open PyText FirstSeen RownRg.BuildsOn

namespace RownRg.Ledger

/-- `INJECT_CAP_PER_SECTION` -/
def injectCapPerSection : Nat := 10

/-- The order of the outline; a label that is none comes first. -/
def sectionLabelKey (label : Text) : Int × Int :=
  let a := label.takeWhile (· ≠ '.')
  let b := (label.dropWhile (· ≠ '.')).drop 1
  let key := do
    let chapter ← toInt? a
    let sectionNumber ← if b.isEmpty then some 0 else toInt? b
    return (chapter, sectionNumber)
  key.getD (0, 0)

/-- `ledger_by_section`: every entry is filed under the section that it names. -/
structure LedgerBySection where
  rows : List (Text × List Entry)
  keys : (rows.map (·.1)).Nodup
  filed : ∀ row ∈ rows, ∀ e ∈ row.2, e.sectionRef = row.1

variable {lower : Text → Text} {ledger : LedgerBySection} {e f : Entry} {out : List Entry}
  {raw sec s t : Text} {refs before after : List Text} {ref : BuildsOnRef}

/-- `ledger_by_section.get(sec, [])` -/
def LedgerBySection.get (ledger : LedgerBySection) (sec : Text) : List Entry :=
  (ledger.rows.lookup sec).getD []

def Entry.injected (e : Entry) : Bool := e.sourceKind = .table || e.sourceKind = .explicit

def injectable (entries : List Entry) : List Entry :=
  (entries.filter Entry.injected).take injectCapPerSection

/-- By what a value is not given twice. -/
def Entry.key (e : Entry) : Text × Text × Text := (e.sectionRef, e.metric, e.value)

/-- The entries so far and the warnings. -/
structure Selection where
  out : List Entry
  warnings : List Text

def Selection.push (st : Selection) (items : List Entry) : Selection :=
  { st with out := pushNew Entry.key items st.out }

def Selection.warn (st : Selection) (raw : Text) (text : String) : Selection :=
  { st with warnings := st.warnings ++ [raw ++ text.toList] }

def chapterSecs (ledger : LedgerBySection) (chapter : Nat) : List Text :=
  (ledger.rows.map (·.1)).filter fun s => s.takeWhile (· ≠ '.') = ofNat chapter

/-- `sorted(chapter_secs)`: by characters. -/
def sortedSecs (ledger : LedgerBySection) (chapter : Nat) : List Text :=
  (chapterSecs ledger chapter).insertionSort (· ≤ ·)

/-- One of the two names stands in the other. -/
def matchesMetric (lower : Text → Text) (m : Text) (e : Entry) : Bool :=
  let want := normMetric lower m
  let have' := normMetric lower e.metric
  contains want have' || contains have' want

def selectRef (lower : Text → Text) (ledger : LedgerBySection) (st : Selection) (raw : Text) :
    Selection :=
  match parseRef raw with
  | none => st
  | some ref =>
    match ref.sectionNumber with
    | none =>
      let st := (sortedSecs ledger ref.chapter).foldl
        (fun st sec => st.push (injectable (ledger.get sec))) st
      if (chapterSecs ledger ref.chapter).isEmpty then st.warn raw ": 장에 적립된 확정값이 없음"
      else st
    | some n =>
      let pool := injectable (ledger.get (sectionLabel ref.chapter n))
      if pool.isEmpty then st.warn raw ": 대상 절에 적립된 확정값이 없음"
      else
        match ref.metric with
        | none => st.push pool
        | some m =>
          let hit := pool.filter (matchesMetric lower m)
          if !hit.isEmpty then st.push hit
          else (st.warn raw ": 지표를 못 찾아 절 전체로 완화").push pool

def selectForRefs (lower : Text → Text) (refs : List Text) (ledger : LedgerBySection) :
    Selection :=
  refs.foldl (selectRef lower ledger) ⟨[], []⟩

/-! What is asked of a selection. -/

/-- The entries that a reference names: those of its chapter, or those of its section, of which
only the ones with its metric where there are any. -/
def Names (lower : Text → Text) (ledger : LedgerBySection) (raw : Text) (e : Entry) : Prop :=
  ∃ ref, parseRef raw = some ref ∧
    match ref.sectionNumber with
    | none => ∃ sec ∈ chapterSecs ledger ref.chapter, e ∈ injectable (ledger.get sec)
    | some n => e ∈ injectable (ledger.get (sectionLabel ref.chapter n)) ∧
        ∀ m ∈ ref.metric,
          (∃ f ∈ injectable (ledger.get (sectionLabel ref.chapter n)), matchesMetric lower m f) →
            matchesMetric lower m e

/-- No reference before names the value. -/
def New (lower : Text → Text) (ledger : LedgerBySection) (before : List Text) (e : Entry) : Prop :=
  ∀ raw ∈ before, ∀ f, Names lower ledger raw f → f.key ≠ e.key

/-- The value is there for this reference. -/
def Brings (lower : Text → Text) (ledger : LedgerBySection) (before : List Text) (raw : Text)
    (e : Entry) : Prop :=
  (∃ f, Names lower ledger raw f ∧ f.key = e.key) ∧ New lower ledger before e

/-- The first section does not stand behind the second one in the outline. -/
def InOutline (sec sec' : Text) : Prop :=
  toLex (sectionLabelKey sec) ≤ toLex (sectionLabelKey sec')

structure Lawful (lower : Text → Text) (refs : List Text) (ledger : LedgerBySection)
    (out : List Entry) : Prop where
  once : (out.map Entry.key).Nodup
  kinds : ∀ e ∈ out, e.sourceKind = .table ∨ e.sourceKind = .explicit
  cap : ∀ sec, (out.filter (·.sectionRef = sec)).length ≤ injectCapPerSection
  named : ∀ e ∈ out, ∃ raw ∈ refs, Names lower ledger raw e
  all : ∀ raw ∈ refs, ∀ e, Names lower ledger raw e → e.key ∈ out.map Entry.key
  outline : ∀ before raw after ref, refs = before ++ raw :: after → parseRef raw = some ref →
    ref.sectionNumber = none → ∀ e f, [e, f].Sublist out → Brings lower ledger before raw e →
      Brings lower ledger before raw f → InOutline e.sectionRef f.sectionRef

/-- What each reference of a chapter brings from two of its sections stands by characters as it
stands in the outline. -/
def SortsAsOutlined (lower : Text → Text) (refs : List Text) (ledger : LedgerBySection) : Prop :=
  ∀ before raw after ref, refs = before ++ raw :: after → parseRef raw = some ref →
    ref.sectionNumber = none → ∀ s ∈ chapterSecs ledger ref.chapter,
      ∀ t ∈ chapterSecs ledger ref.chapter, s < t →
        (∃ e ∈ injectable (ledger.get s), New lower ledger before e) →
        (∃ f ∈ injectable (ledger.get t), New lower ledger before f) → InOutline s t

/-! What a reference adds. -/

/-- The entries in the order in which a reference adds them. -/
def listed (lower : Text → Text) (ledger : LedgerBySection) (raw : Text) : List Entry :=
  match parseRef raw with
  | none => []
  | some ref =>
    match ref.sectionNumber with
    | none => (sortedSecs ledger ref.chapter).flatMap fun sec => injectable (ledger.get sec)
    | some n =>
      let pool := injectable (ledger.get (sectionLabel ref.chapter n))
      match ref.metric with
      | none => pool
      | some m =>
        let hit := pool.filter (matchesMetric lower m)
        if !hit.isEmpty then hit else pool

theorem foldl_push {st : Selection} (secs : List Text) :
    (secs.foldl (fun st sec => st.push (injectable (ledger.get sec))) st).out =
      pushNew Entry.key (secs.flatMap fun sec => injectable (ledger.get sec)) st.out := by
  rw [← foldl_pushNew]
  induction secs generalizing st with
  | nil => rfl
  | cons sec secs ih => exact ih

theorem selectRef_out (st : Selection) (raw : Text) :
    (selectRef lower ledger st raw).out =
      pushNew Entry.key (listed lower ledger raw) st.out := by
  unfold selectRef listed
  cases parseRef raw with
  | none => rfl
  | some ref =>
    simp only
    cases ref.sectionNumber with
    | none =>
      simp only
      split
      · exact foldl_push _
      · exact foldl_push _
    | some n =>
      simp only
      by_cases hpool : (injectable (ledger.get (sectionLabel ref.chapter n))).isEmpty
      · have hnil := List.isEmpty_iff.mp hpool
        rw [if_pos hpool, hnil]
        cases ref.metric with
        | none => rfl
        | some m => rfl
      · rw [if_neg hpool]
        cases ref.metric with
        | none => rfl
        | some m =>
          simp only
          split
          · rfl
          · rfl

theorem selectForRefs_out (lower : Text → Text) (ledger : LedgerBySection) (refs : List Text)
    (st : Selection) :
    (refs.foldl (selectRef lower ledger) st).out =
      pushNew Entry.key (refs.flatMap (listed lower ledger)) st.out := by
  rw [← foldl_pushNew]
  induction refs generalizing st with
  | nil => rfl
  | cons raw refs ih => rw [List.foldl_cons, ih, selectRef_out, List.foldl_cons]

theorem mem_sortedSecs {chapter : Nat} :
    sec ∈ sortedSecs ledger chapter ↔ sec ∈ chapterSecs ledger chapter :=
  (List.perm_insertionSort _ _).mem_iff

theorem mem_listed : e ∈ listed lower ledger raw ↔ Names lower ledger raw e := by
  unfold listed Names
  cases parseRef raw with
  | none => simp
  | some ref =>
    simp only [Option.some.injEq, exists_eq_left']
    cases ref.sectionNumber with
    | none => simp only [List.mem_flatMap, mem_sortedSecs]
    | some n =>
      simp only
      cases ref.metric with
      | none => simp
      | some m =>
        simp only [Option.mem_def, Option.some.injEq, forall_eq']
        by_cases hhit : (injectable (ledger.get (sectionLabel ref.chapter n))).filter
            (matchesMetric lower m) = []
        · rw [hhit]
          have hno : ¬ ∃ f ∈ injectable (ledger.get (sectionLabel ref.chapter n)),
              matchesMetric lower m f := by
            rintro ⟨f, hf, hm⟩
            exact List.filter_eq_nil_iff.mp hhit f hf hm
          simp [hno]
        · have hsome : ∃ f ∈ injectable (ledger.get (sectionLabel ref.chapter n)),
              matchesMetric lower m f := by
            obtain ⟨f, hf⟩ := List.exists_mem_of_ne_nil _ hhit
            exact ⟨f, List.mem_filter.mp hf⟩
          rw [if_pos (by simpa using hhit), List.mem_filter]
          exact ⟨fun h => ⟨h.1, fun _ => h.2⟩, fun h => ⟨h.1, h.2 hsome⟩⟩

theorem filed_get (he : e ∈ injectable (ledger.get sec)) :
    e ∈ ledger.get sec ∧ e.sectionRef = sec ∧ e.injected := by
  obtain ⟨hmem, hkind⟩ := List.mem_filter.mp (List.mem_of_mem_take he)
  refine ⟨hmem, ?_, hkind⟩
  unfold LedgerBySection.get at hmem
  cases hrow : ledger.rows.lookup sec with
  | none =>
    rw [hrow] at hmem
    cases hmem
  | some entries =>
    rw [hrow] at hmem
    rw [beq_text] at hrow
    exact ledger.filed _ ((Pairing.lookup_eq_some ledger.keys).mp hrow) e hmem

/-- Whatever a reference names is filed under its section, among the first of the section. -/
theorem Names.pooled (h : Names lower ledger raw e) :
    e ∈ injectable (ledger.get e.sectionRef) := by
  obtain ⟨ref, href, h⟩ := h
  cases hsec : ref.sectionNumber with
  | none =>
    rw [hsec] at h
    obtain ⟨sec, -, he⟩ := h
    rw [(filed_get he).2.1]
    exact he
  | some n =>
    rw [hsec] at h
    rw [(filed_get h.1).2.1]
    exact h.1

/-! The order in which a reference of a chapter adds its entries. -/

theorem listed_sorted (lower : Text → Text) (ledger : LedgerBySection)
    (href : parseRef raw = some ref) (hsec : ref.sectionNumber = none) :
    (listed lower ledger raw).Pairwise fun e f => e.sectionRef ≤ f.sectionRef := by
  have hlisted : listed lower ledger raw =
      (sortedSecs ledger ref.chapter).flatMap fun sec => injectable (ledger.get sec) := by
    rw [listed, href]
    simp only
    rw [hsec]
  rw [hlisted, List.pairwise_flatMap]
  constructor
  · intro sec _
    refine List.pairwise_of_forall_mem_list fun e he f hf => ?_
    rw [(filed_get he).2.1, (filed_get hf).2.1]
  · refine List.Pairwise.imp (fun {s t} hst e he f hf => ?_)
      (List.pairwise_insertionSort (· ≤ ·) (chapterSecs ledger ref.chapter))
    rw [(filed_get he).2.1, (filed_get hf).2.1]
    exact hst

/-- What one reference brings, in the order in which it lists it, and what is there before and
behind it. -/
theorem exists_parts (lower : Text → Text) (ledger : LedgerBySection)
    (hrefs : refs = before ++ raw :: after) :
    ∃ front part back, (selectForRefs lower refs ledger).out = front ++ part ++ back ∧
      part.Sublist (listed lower ledger raw) ∧
      (∀ f, Names lower ledger raw f → New lower ledger before f → ∃ e ∈ part, e.key = f.key) ∧
      ∀ e ∈ front ++ part ++ back, Brings lower ledger before raw e ↔ e ∈ part := by
  have hout : (selectForRefs lower refs ledger).out =
      pushNew Entry.key (after.flatMap (listed lower ledger))
        (pushNew Entry.key (listed lower ledger raw)
          (pushNew Entry.key (before.flatMap (listed lower ledger)) [])) := by
    rw [selectForRefs, selectForRefs_out, hrefs, List.flatMap_append, List.flatMap_cons,
      pushNew_append, pushNew_append]
  obtain ⟨front, hfront, hsub, -, -, hall⟩ :=
    pushNew_spec Entry.key (before.flatMap (listed lower ledger)) []
  obtain ⟨part, hpart, hsub', -, hnew', hall'⟩ :=
    pushNew_spec Entry.key (listed lower ledger raw) front
  obtain ⟨back, hback, -, -, hnew'', -⟩ :=
    pushNew_spec Entry.key (after.flatMap (listed lower ledger)) (front ++ part)
  rw [List.nil_append] at hfront hall
  -- What stands in front was named by an earlier reference, under its key.
  have hearlier : ∀ e ∈ front, ¬ New lower ledger before e := by
    intro e he hnew
    obtain ⟨r, hr, hnamed⟩ := List.mem_flatMap.mp (hsub.subset he)
    exact hnew r hr e (mem_listed.1 hnamed) rfl
  have hkeyed : ∀ e, New lower ledger before e → e.key ∉ front.map Entry.key := by
    intro e hnew hmem
    obtain ⟨f, hf, hkey⟩ := List.mem_map.mp hmem
    obtain ⟨r, hr, hnamed⟩ := List.mem_flatMap.mp (hsub.subset hf)
    exact hnew r hr f (mem_listed.1 hnamed) hkey
  refine ⟨front, part, back, by rw [hout, hfront, hpart, hback], hsub', fun f hf hnew => ?_,
    fun e he => ⟨fun hbring => ?_, fun he => ?_⟩⟩
  · have hmem := hall' f (mem_listed.2 hf)
    rw [List.map_append, List.mem_append] at hmem
    exact List.mem_map.mp (hmem.resolve_left (hkeyed f hnew))
  · obtain ⟨⟨f, hf, hkey⟩, hnew⟩ := hbring
    rcases List.mem_append.mp he with he | he
    · exact (List.mem_append.mp he).resolve_left fun h => hearlier e h hnew
    · have hmem := hall' f (mem_listed.2 hf)
      rw [hkey] at hmem
      exact absurd hmem (hnew'' e he)
  · refine ⟨⟨e, mem_listed.1 (hsub'.subset he), rfl⟩, fun r hr f hf hkey => ?_⟩
    have hmem := hall f (List.mem_flatMap.mpr ⟨r, hr, mem_listed.2 hf⟩)
    rw [hkey] at hmem
    exact hnew' e he hmem

/-- Of the values of one section no more are there than the section may give. -/
theorem length_filter_le (hnodup : (out.map Entry.key).Nodup)
    (hpool : ∀ e ∈ out, e ∈ injectable (ledger.get e.sectionRef)) (sec : Text) :
    (out.filter (·.sectionRef = sec)).length ≤ injectCapPerSection := by
  have hsub : (out.filter (·.sectionRef = sec)).Subperm (injectable (ledger.get sec)) := by
    refine List.subperm_of_subset (hnodup.of_map.filter _) fun e he => ?_
    obtain ⟨hmem, hsec⟩ := List.mem_filter.mp he
    have hsec : e.sectionRef = sec := by simpa using hsec
    rw [← hsec]
    exact hpool e hmem
  exact hsub.length_le.trans (List.length_take_le _ _)

/-- The selection is lawful exactly when the sections of every chapter that is named sort by
characters as they stand in the outline. -/
theorem lawful_iff (lower : Text → Text) (refs : List Text) (ledger : LedgerBySection) :
    Lawful lower refs ledger (selectForRefs lower refs ledger).out ↔
      SortsAsOutlined lower refs ledger := by
  constructor
  · intro h before raw after ref hrefs href hsec s hs t ht hst ⟨e, he, hnewe⟩ ⟨f, hf, hnewf⟩
    obtain ⟨front, part, back, hout, hsub, hall, hbrings⟩ :=
      exists_parts lower ledger hrefs
    have hnames : ∀ sec ∈ chapterSecs ledger ref.chapter, ∀ e ∈ injectable (ledger.get sec),
        Names lower ledger raw e := by
      intro sec hmem e he
      refine ⟨ref, href, ?_⟩
      rw [hsec]
      exact ⟨sec, hmem, he⟩
    obtain ⟨e', he', hkey⟩ := hall e (hnames s hs e he) hnewe
    obtain ⟨f', hf', hkey'⟩ := hall f (hnames t ht f hf) hnewf
    have hs' : e'.sectionRef = s := (Prod.mk.inj hkey).1.trans (filed_get he).2.1
    have ht' : f'.sectionRef = t := (Prod.mk.inj hkey').1.trans (filed_get hf).2.1
    have hne : e' ≠ f' := by
      rintro rfl
      exact lt_irrefl t (hs'.symm.trans ht' ▸ hst)
    have hpart : part.Sublist (front ++ part ++ back) :=
      (List.sublist_append_right front part).trans (List.sublist_append_left _ back)
    rcases sublist_or_sublist he' hf' hne with hpair | hpair
    · rw [← hs', ← ht']
      refine h.outline before raw after ref hrefs href hsec e' f' ?_ ?_ ?_
      · rw [hout]
        exact hpair.trans hpart
      · exact (hbrings e' (hpart.subset he')).mpr he'
      · exact (hbrings f' (hpart.subset hf')).mpr hf'
    · have hle := List.pairwise_iff_forall_sublist.mp (listed_sorted lower ledger
        href hsec) (hpair.trans hsub)
      rw [hs', ht'] at hle
      exact absurd hst (not_lt.mpr hle)
  · intro h
    have hout := selectForRefs_out lower ledger refs ⟨[], []⟩
    obtain ⟨fresh, hfresh, hsub, hnodup, -, hall⟩ := pushNew_spec Entry.key
      (refs.flatMap (listed lower ledger)) []
    rw [List.nil_append] at hfresh hall
    have heq : (selectForRefs lower refs ledger).out = fresh := hout.trans hfresh
    rw [heq]
    have hnamed : ∀ e ∈ fresh, ∃ raw ∈ refs, Names lower ledger raw e := by
      intro e he
      obtain ⟨raw, hraw, hmem⟩ := List.mem_flatMap.mp (hsub.subset he)
      exact ⟨raw, hraw, mem_listed.1 hmem⟩
    have hpool : ∀ e ∈ fresh, e ∈ injectable (ledger.get e.sectionRef) := by
      intro e he
      obtain ⟨raw, -, hraw⟩ := hnamed e he
      exact hraw.pooled
    refine ⟨hnodup, fun e he => ?_, length_filter_le hnodup hpool, hnamed, fun raw hraw e he => ?_,
      fun before raw after ref hrefs href hsec e f hpair he hf => ?_⟩
    · simpa [Entry.injected] using (filed_get (hpool e he)).2.2
    · exact hall e (List.mem_flatMap.mpr ⟨raw, hraw, mem_listed.2 he⟩)
    · obtain ⟨front, part, back, hout', hsub', hall', hbrings⟩ :=
        exists_parts lower ledger hrefs
      rw [heq] at hout'
      have hpart : part.Sublist fresh := by
        rw [hout']
        exact (List.sublist_append_right front part).trans (List.sublist_append_left _ back)
      have hmem : ∀ x ∈ [e, f], x ∈ fresh := fun x hx => hpair.subset hx
      have he' : e ∈ part := (hbrings e (hout' ▸ hmem e (by simp))).mp he
      have hf' : f ∈ part := (hbrings f (hout' ▸ hmem f (by simp))).mp hf
      have hle := List.pairwise_iff_forall_sublist.mp (listed_sorted lower ledger
        href hsec) ((pair_sublist hpart hnodup.of_map hf' he' hpair).trans hsub')
      obtain ⟨ref', href', hin⟩ := mem_listed.1 (hsub'.subset he')
      obtain ⟨ref'', href'', hin'⟩ := mem_listed.1 (hsub'.subset hf')
      obtain rfl := Option.some.inj (href'.symm.trans href)
      obtain rfl := Option.some.inj (href''.symm.trans href)
      rw [hsec] at hin hin'
      obtain ⟨s, hs, hins⟩ := hin
      obtain ⟨t, ht, hint⟩ := hin'
      rw [(filed_get hins).2.1, (filed_get hint).2.1] at hle ⊢
      rcases le_iff_lt_or_eq.mp hle with hlt | rfl
      · exact h before raw after _ hrefs href hsec s hs t ht hlt ⟨e, hins, he.2⟩ ⟨f, hint, hf.2⟩
      · exact le_refl _

def exportsOfSecond : Entry :=
  ⟨"수출액".toList, "12".toList, none, ⟨none, none, none, none⟩, "4.2".toList, [], .table⟩

def costOfTenth : Entry :=
  ⟨"사업비".toList, "7".toList, none, ⟨none, none, none, none⟩, "4.10".toList, [], .table⟩

/-- A chapter of more than nine sections. -/
def longChapter : LedgerBySection where
  rows := [("4.2".toList, [exportsOfSecond]), ("4.10".toList, [costOfTenth])]
  keys := by decide
  filed := by decide

theorem not_lawful_longChapter :
    ¬ ∀ lower refs ledger, Lawful lower refs ledger (selectForRefs lower refs ledger).out := by
  intro h
  have hlaw := h id ["4.*".toList] longChapter
  have hout : (selectForRefs id ["4.*".toList] longChapter).out =
      [costOfTenth, exportsOfSecond] := by decide
  rw [hout] at hlaw
  have hbrings : ∀ e ∈ [costOfTenth, exportsOfSecond],
      Brings id longChapter [] "4.*".toList e := by
    intro e he
    obtain ⟨raw, hraw, hnamed⟩ := hlaw.named e he
    obtain rfl := List.mem_singleton.mp hraw
    refine ⟨⟨e, hnamed, rfl⟩, fun r hr => ?_⟩
    cases hr
  have href : parseRef "4.*".toList = some ⟨4, none, none⟩ := by decide
  have horder := hlaw.outline [] "4.*".toList [] _ rfl href rfl costOfTenth exportsOfSecond
    (List.Sublist.refl _) (hbrings _ (by simp)) (hbrings _ (by simp))
  revert horder
  unfold InOutline
  decide

end RownRg.Ledger

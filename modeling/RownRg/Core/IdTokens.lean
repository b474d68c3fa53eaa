import RownRg.Core.BuildsOn
import RownRg.Lib.Uuid

/-! The tokens that name a section or a chapter by its id. -/

open PyText Regex

namespace RownRg.Outlines

open RownRg.BuildsOn

inductive TokenGroup where
  | id
  | metric
  deriving DecidableEq

variable {γ : Type} {raw t w v tid tid' : Text} {m m' : Option Text} {u : Uuid} {c : Char} {n : Nat}

/-- `[0-9a-fA-F]{n}` -/
def hexes (n : Nat) : Regex γ := between (cls isHex) n n

def uuidRe : Regex γ :=
  cat [hexes 8, chr '-', hexes 4, chr '-', hexes 4, chr '-', hexes 4, chr '-', hexes 12]

def sectionTokenRe : Regex TokenGroup :=
  cat [textStart, blank, chr 's', chr ':', group .id uuidRe, metricTail .metric]

def chapterTokenRe : Regex TokenGroup :=
  cat [textStart, blank, chr 'c', chr ':', group .id uuidRe, opt (lit ".*".toList), blank, textEnd]

def formatSectionToken (sectionId : Text) (metric : Option Text) : Text :=
  withMetric ("s:".toList ++ sectionId) metric

def formatChapterToken (chapterId : Text) : Text := "c:".toList ++ chapterId

inductive IdToken where
  | section (id : Text) (metric : Option Text)
  | chapter (id : Text)
  deriving DecidableEq

def IdToken.id : IdToken → Text
  | .section id _ => id
  | .chapter id => id

def parseIdToken (raw : Text) : Option IdToken :=
  match sectionTokenRe.matchStart raw with
  | some m => some (.section (((m.group .id).getD []).map Char.toLower) (stripped (m.group .metric)))
  | none =>
    (chapterTokenRe.matchStart raw).map fun m => .chapter (((m.group .id).getD []).map Char.toLower)

/-! How tokens are spelled. -/

theorem accepts_hexes : (hexes n : Regex γ).Accepts w ↔ w.length = n ∧ ∀ c ∈ w, isHex c := by
  induction n generalizing w with
  | zero =>
    simp only [hexes, between, upTo, Accepts, List.length_eq_zero_iff]
    exact ⟨fun h => ⟨h, by simp [h]⟩, And.left⟩
  | succ n ih =>
    have hstep : (hexes (n + 1) : Regex γ).Accepts w ↔
        ∃ x y, (cls isHex : Regex γ).Accepts x ∧ (hexes n : Regex γ).Accepts y ∧ w = x ++ y :=
      Iff.rfl
    rw [hstep]
    constructor
    · rintro ⟨x, y, ⟨c, hc, rfl⟩, hy, rfl⟩
      obtain ⟨hlen, hall⟩ := ih.mp hy
      exact ⟨by simp [hlen], List.forall_mem_cons.mpr ⟨hc, hall⟩⟩
    · rintro ⟨hlen, hall⟩
      obtain ⟨c, y, rfl⟩ := List.exists_cons_of_length_eq_add_one hlen
      obtain ⟨hc, hy⟩ := List.forall_mem_cons.mp hall
      exact ⟨[c], y, ⟨c, hc, rfl⟩, ih.mpr ⟨by simpa using hlen, hy⟩, rfl⟩

theorem plain_hexes (n : Nat) : (hexes n : Regex γ).Plain := by
  induction n with
  | zero => trivial
  | succ n ih => exact ⟨trivial, ih⟩

theorem plain_uuidRe : (uuidRe : Regex γ).Plain :=
  ⟨plain_hexes _, trivial, plain_hexes _, trivial, plain_hexes _, trivial, plain_hexes _, trivial,
    plain_hexes _⟩

theorem length_of_accepts (h : (uuidRe : Regex γ).Accepts w) : w.length = 36 := by
  obtain ⟨a, _, ha, ⟨_, _, hd₁, ⟨b, _, hb, ⟨_, _, hd₂, ⟨c, _, hc, ⟨_, _, hd₃, ⟨d, _, hd,
    ⟨_, e, hd₄, he, rfl⟩, rfl⟩, rfl⟩, rfl⟩, rfl⟩, rfl⟩, rfl⟩, rfl⟩ := h
  obtain rfl := accepts_chr.1 hd₁
  obtain rfl := accepts_chr.1 hd₂
  obtain rfl := accepts_chr.1 hd₃
  obtain rfl := accepts_chr.1 hd₄
  simp [(accepts_hexes.1 ha).1, (accepts_hexes.1 hb).1, (accepts_hexes.1 hc).1,
    (accepts_hexes.1 hd).1, (accepts_hexes.1 he).1]

theorem isHex_of_isLowerHex (h : isLowerHex c) : isHex c := by
  rwa [isHex, Uuid.toLower_of_isLowerHex h]

theorem accepts_str (u : Uuid) : (uuidRe : Regex γ).Accepts u.str := by
  have hhex : ∀ {c}, c ∈ u.hex → isHex c := fun hc =>
    isHex_of_isLowerHex (List.all_eq_true.mp u.lower _ hc)
  have hpart : ∀ i n, i + n ≤ 32 → (hexes n : Regex γ).Accepts ((u.hex.drop i).take n) := by
    intro i n hin
    refine accepts_hexes.2 ⟨by simp [u.length]; omega, fun c hc => ?_⟩
    exact hhex (List.mem_of_mem_drop (List.mem_of_mem_take hc))
  have hlast : (hexes 12 : Regex γ).Accepts (u.hex.drop 20) :=
    accepts_hexes.2 ⟨by simp [u.length], fun c hc => hhex (List.mem_of_mem_drop hc)⟩
  have hdash : (chr '-' : Regex γ).Accepts ['-'] := accepts_chr.2 rfl
  exact ⟨_, _, hpart 0 8 (by omega), ⟨_, _, hdash, ⟨_, _, hpart 8 4 (by omega), ⟨_, _, hdash,
    ⟨_, _, hpart 12 4 (by omega), ⟨_, _, hdash, ⟨_, _, hpart 16 4 (by omega), ⟨_, _, hdash,
      hlast, rfl⟩, rfl⟩, rfl⟩, rfl⟩, rfl⟩, rfl⟩, rfl⟩, rfl⟩

/-- The id and the metric that a text spells as the token of a section. -/
inductive SectionText : Text → Text → Option Text → Prop
  | mk {w tid x v : Text} {m : Option Text} (hw : ∀ c ∈ w, isSpace c)
      (hid : (uuidRe : Regex TokenGroup).Accepts tid) (hx : MetricPart x m)
      (hv : ∀ c ∈ v, isSpace c) :
      SectionText (w ++ 's' :: ':' :: (tid ++ (x ++ v))) (tid.map Char.toLower) m

/-- The id that a text spells as the token of a chapter. -/
inductive ChapterText : Text → Text → Prop
  | mk {w tid x v : Text} (hw : ∀ c ∈ w, isSpace c) (hid : (uuidRe : Regex TokenGroup).Accepts tid)
      (hx : x = [] ∨ x = ".*".toList) (hv : ∀ c ∈ v, isSpace c) :
      ChapterText (w ++ 'c' :: ':' :: (tid ++ (x ++ v))) (tid.map Char.toLower)

theorem letter_unique {a b : Char} {x y : Text} (ha : isSpace a = false) (hb : isSpace b = false)
    (hw : ∀ c ∈ w, isSpace c) (hv : ∀ c ∈ v, isSpace c) (h : w ++ a :: x = v ++ b :: y) :
    a = b ∧ x = y := by
  obtain ⟨-, htail⟩ := append_inj_of_all hw hv (by simpa using ha) (by simpa using hb) h
  exact List.cons.inj htail

theorem sectionText_unique (h : SectionText raw tid m) (h' : SectionText raw tid' m') :
    tid = tid' ∧ m = m' := by
  obtain ⟨hw, hid, hx, hv⟩ := h
  rename_i w tid x v
  generalize ht : w ++ 's' :: ':' :: (tid ++ (x ++ v)) = t at h'
  obtain ⟨hw', hid', hx', hv'⟩ := h'
  obtain ⟨-, htail⟩ := letter_unique (by decide) (by decide) hw hw' ht
  obtain ⟨rfl, hrest⟩ := List.append_inj (List.cons.inj htail).2
    ((length_of_accepts hid).trans (length_of_accepts hid').symm)
  exact ⟨rfl, (metricPart_unique hx hx' hv hv' hrest).2⟩

theorem chapterText_unique (h : ChapterText raw tid) (h' : ChapterText raw tid') : tid = tid' := by
  obtain ⟨hw, hid, -, -⟩ := h
  rename_i w tid x v
  generalize ht : w ++ 'c' :: ':' :: (tid ++ (x ++ v)) = t at h'
  obtain ⟨hw', hid', -, -⟩ := h'
  obtain ⟨-, htail⟩ := letter_unique (by decide) (by decide) hw hw' ht
  obtain ⟨rfl, -⟩ := List.append_inj (List.cons.inj htail).2
    ((length_of_accepts hid).trans (length_of_accepts hid').symm)
  rfl

theorem not_chapterText_of_section (h : SectionText raw tid m) : ¬ ChapterText raw tid' := by
  intro h'
  obtain ⟨hw, -, -, -⟩ := h
  rename_i w tid x v
  generalize ht : w ++ 's' :: ':' :: (tid ++ (x ++ v)) = t at h'
  obtain ⟨hw', -, -, -⟩ := h'
  obtain ⟨hletter, -⟩ := letter_unique (by decide) (by decide) hw hw' ht
  exact absurd hletter (by decide)

theorem sectionText_of_mem {q : Pos TokenGroup} (h : q ∈ sectionTokenRe.run ⟨[], raw, []⟩)
    (t : Text) :
    SectionText raw ((((⟨t, q.caps⟩ : Match TokenGroup).group .id).getD []).map Char.toLower)
      (stripped ((⟨t, q.caps⟩ : Match TokenGroup).group .metric)) := by
  simp only [sectionTokenRe, cat] at h
  rw [run, textStart_run, List.flatMap_singleton, mem_run_seq_plain (by trivial)] at h
  obtain ⟨w, _, hw, rfl, h⟩ := h
  rw [mem_run_seq_plain (by trivial)] at h
  obtain ⟨_, _, hs, rfl, h⟩ := h
  obtain rfl := accepts_chr.1 hs
  rw [mem_run_seq_plain (by trivial)] at h
  obtain ⟨_, _, hcolon, rfl, h⟩ := h
  obtain rfl := accepts_chr.1 hcolon
  rw [mem_run_seq_group plain_uuidRe] at h
  obtain ⟨tid, _, hid, rfl, h⟩ := h
  obtain ⟨x, v, m, hx, hv, rfl, hcaps⟩ := mem_metricTail h
  have htext := SectionText.mk (accepts_blank.1 hw) hid hx hv
  rcases hcaps with ⟨hcaps, rfl⟩ | ⟨y, hcaps, rfl, -⟩ <;> rw [hcaps] <;> exact htext

theorem exists_sectionTokenRe (h : SectionText raw tid m) :
    ∃ q, q ∈ sectionTokenRe.run ⟨[], raw, []⟩ := by
  obtain ⟨hw, hid, hx, hv⟩ := h
  rename_i w tid x v
  obtain ⟨q, hq⟩ := exists_metricTail (g := TokenGroup.metric)
    (b := tid.reverse ++ ':' :: 's' :: (w.reverse ++ [])) (k := [(.id, tid)]) hx hv
  refine ⟨q, ?_⟩
  simp only [sectionTokenRe, cat]
  rw [run, textStart_run, List.flatMap_singleton, mem_run_seq_plain (by trivial)]
  refine ⟨w, _, accepts_blank.2 hw, rfl, ?_⟩
  rw [mem_run_seq_plain (by trivial)]
  refine ⟨['s'], _, accepts_chr.2 rfl, rfl, ?_⟩
  rw [mem_run_seq_plain (by trivial)]
  refine ⟨[':'], _, accepts_chr.2 rfl, rfl, ?_⟩
  rw [mem_run_seq_group plain_uuidRe]
  exact ⟨tid, x ++ v, hid, rfl, by simpa using hq⟩

theorem chapterText_of_mem {q : Pos TokenGroup} (h : q ∈ chapterTokenRe.run ⟨[], raw, []⟩)
    (t : Text) :
    ChapterText raw ((((⟨t, q.caps⟩ : Match TokenGroup).group .id).getD []).map Char.toLower) := by
  simp only [chapterTokenRe, cat] at h
  rw [run, textStart_run, List.flatMap_singleton, mem_run_seq_plain (by trivial)] at h
  obtain ⟨w, _, hw, rfl, h⟩ := h
  rw [mem_run_seq_plain (by trivial)] at h
  obtain ⟨_, _, hs, rfl, h⟩ := h
  obtain rfl := accepts_chr.1 hs
  rw [mem_run_seq_plain (by trivial)] at h
  obtain ⟨_, _, hcolon, rfl, h⟩ := h
  obtain rfl := accepts_chr.1 hcolon
  rw [mem_run_seq_group plain_uuidRe] at h
  obtain ⟨tid, _, hid, rfl, h⟩ := h
  rw [mem_run_seq_plain (show (opt (lit ".*".toList) : Regex TokenGroup).Plain from
    ⟨plain_lit _, trivial⟩)] at h
  obtain ⟨x, _, hx, rfl, h⟩ := h
  rw [mem_run_seq_plain (by trivial)] at h
  obtain ⟨v, v', hv, rfl, h⟩ := h
  obtain ⟨rfl, hv'⟩ := mem_textEnd h
  have hx : x = [] ∨ x = ".*".toList := by
    rcases hx with hx | hx
    · exact .inr (accepts_lit.1 hx)
    · exact .inl hx
  refine ChapterText.mk (accepts_blank.1 hw) hid hx fun c hc => ?_
  exact (List.mem_append.mp hc).elim (accepts_blank.1 hv c) (hv' c)

theorem exists_chapterTokenRe (h : ChapterText raw tid) :
    ∃ q, q ∈ chapterTokenRe.run ⟨[], raw, []⟩ := by
  obtain ⟨hw, hid, hx, hv⟩ := h
  rename_i w tid x v
  refine ⟨⟨v.reverse ++ (x.reverse ++ (tid.reverse ++ ':' :: 'c' :: (w.reverse ++ []))), [],
    [(.id, tid)]⟩, ?_⟩
  simp only [chapterTokenRe, cat]
  rw [run, textStart_run, List.flatMap_singleton, mem_run_seq_plain (by trivial)]
  refine ⟨w, _, accepts_blank.2 hw, rfl, ?_⟩
  rw [mem_run_seq_plain (by trivial)]
  refine ⟨['c'], _, accepts_chr.2 rfl, rfl, ?_⟩
  rw [mem_run_seq_plain (by trivial)]
  refine ⟨[':'], _, accepts_chr.2 rfl, rfl, ?_⟩
  rw [mem_run_seq_group plain_uuidRe]
  refine ⟨tid, x ++ v, hid, rfl, ?_⟩
  rw [mem_run_seq_plain (show (opt (lit ".*".toList) : Regex TokenGroup).Plain from
    ⟨plain_lit _, trivial⟩)]
  have hx : (opt (lit ".*".toList) : Regex TokenGroup).Accepts x :=
    hx.elim .inr fun h => .inl (accepts_lit.2 h)
  refine ⟨x, v, hx, rfl, ?_⟩
  rw [mem_run_seq_plain (by trivial)]
  exact ⟨v, [], accepts_blank.2 hv, by simp, by simp [run]⟩

/-- The texts that `parseIdToken` reads as the token of a section. -/
theorem parseIdToken_section : parseIdToken raw = some (.section tid m) ↔ SectionText raw tid m := by
  unfold parseIdToken
  constructor
  · intro h
    split at h
    · rename_i k hk
      obtain ⟨q, hq, t, rfl⟩ := mem_of_matchStart hk
      have htext := sectionText_of_mem hq t
      simp only [Option.some.injEq, IdToken.section.injEq] at h
      rwa [h.1, h.2] at htext
    · simp at h
  · intro h
    obtain ⟨q, hq, t, hk⟩ := exists_matchStart (exists_sectionTokenRe h)
    rw [hk]
    obtain ⟨hid, hm⟩ := sectionText_unique (sectionText_of_mem hq t) h
    simp [hid, hm]

/-- The texts that `parseIdToken` reads as the token of a chapter. -/
theorem parseIdToken_chapter : parseIdToken raw = some (.chapter tid) ↔ ChapterText raw tid := by
  unfold parseIdToken
  constructor
  · intro h
    split at h
    · simp at h
    · simp only [Option.map_eq_some_iff, IdToken.chapter.injEq] at h
      obtain ⟨k, hk, rfl⟩ := h
      obtain ⟨q, hq, t, rfl⟩ := mem_of_matchStart hk
      exact chapterText_of_mem hq t
  · intro h
    have hsection : sectionTokenRe.matchStart raw = none := by
      by_contra hsome
      obtain ⟨k, hk⟩ := Option.ne_none_iff_exists'.mp hsome
      obtain ⟨q, hq, t, -⟩ := mem_of_matchStart hk
      exact not_chapterText_of_section (sectionText_of_mem hq t) h
    obtain ⟨q, hq, t, hk⟩ := exists_matchStart (exists_chapterTokenRe h)
    rw [hsection, hk]
    simp [chapterText_unique (chapterText_of_mem hq t) h]

theorem toLower_str (u : Uuid) : u.str.map Char.toLower = u.str := by
  refine (List.map_congr_left fun c hc => ?_).trans (List.map_id _)
  rcases Uuid.mem_str hc with rfl | hhex
  · rfl
  · exact Uuid.toLower_of_isLowerHex hhex

/-- A section reads back from its token, and the metric with it. -/
theorem parseIdToken_formatSection (u : Uuid) (hm : MetricFine m) :
    parseIdToken (formatSectionToken u.str m) = some (.section u.str m) := by
  rw [parseIdToken_section]
  have hx : ∃ x, MetricPart x m ∧ formatSectionToken u.str m = 's' :: ':' :: (u.str ++ x) := by
    cases m with
    | none => exact ⟨[], .absent, by simp [formatSectionToken, withMetric]⟩
    | some t => exact ⟨_, metricPart_ok (hm t rfl), by simp [formatSectionToken, withMetric]⟩
  obtain ⟨x, hx, heq⟩ := hx
  have h := SectionText.mk (w := []) (v := []) (by simp) (accepts_str u) hx (by simp)
  rw [heq]
  simpa [toLower_str] using h

theorem parseIdToken_formatChapter (u : Uuid) :
    parseIdToken (formatChapterToken u.str) = some (.chapter u.str) := by
  rw [parseIdToken_chapter]
  have h := ChapterText.mk (w := []) (v := []) (by simp) (accepts_str u) (.inl rfl) (by simp)
  simpa [toLower_str, formatChapterToken] using h

/-- A number is no token. -/
theorem parseIdToken_of_parseRef {r : BuildsOnRef} (h : parseRef raw = some r) :
    parseIdToken raw = none := by
  obtain ⟨hv, hne, hdigit, -, -, -⟩ := parseRef_eq_some.1 h
  rename_i w d s x v n m
  obtain ⟨c, d, rfl⟩ := List.exists_cons_of_ne_nil hne
  have hc : isDigit c := hdigit c (by simp)
  have hletter : ∀ {a : Char} {w' y z : Text}, isSpace a = false → isDigit a = false →
      (∀ c ∈ w', isSpace c) → w ++ (c :: d ++ y) ≠ w' ++ a :: z := by
    intro a w' y z hspace hdigit' hw' heq
    obtain ⟨rfl, -⟩ := letter_unique (not_isSpace_of_digit hc) hspace hv hw' heq
    exact absurd hc (by simp [hdigit'])
  cases hparse : parseIdToken (w ++ (c :: d ++ '.' :: (s ++ (x ++ v)))) with
  | none => rfl
  | some token =>
    cases token with
    | chapter tid =>
      have htext := parseIdToken_chapter.1 hparse
      generalize ht : w ++ (c :: d ++ '.' :: (s ++ (x ++ v))) = t at htext
      obtain ⟨hw', -, -, -⟩ := htext
      exact absurd ht (hletter (by decide) (by decide) hw')
    | «section» tid metric =>
      have htext := parseIdToken_section.1 hparse
      generalize ht : w ++ (c :: d ++ '.' :: (s ++ (x ++ v))) = t at htext
      obtain ⟨hw', -, -, -⟩ := htext
      exact absurd ht (hletter (by decide) (by decide) hw')

theorem parseIdToken_fine (h : parseIdToken raw = some (.section tid m)) : MetricFine m := by
  obtain ⟨-, -, hx, -⟩ := parseIdToken_section.1 h
  exact metricPart_fine hx

end RownRg.Outlines

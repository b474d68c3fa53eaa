import Mathlib.Order.Bounds.Image
import RownRg.Lib.Lines
import RownRg.Lib.Placing
import RownRg.Lib.Stretch

/-! The pages of chunks: page markers are taken out of a text, and chunks traced back to their pages. -/

open PyText Placing

namespace RownRg.ChunkPages

/-- `PAGE_BREAK_MARKER` -/
def pageBreakMarker : Text := "<!-- rown:page-break -->".toList

def probeChars : Nat := 80

def minProbeChars : Nat := 8

/-- Where each part begins when the first begins at `pos`. -/
def startsFrom : Nat → List Text → List Nat
  | _, [] => []
  | pos, part :: parts => pos :: startsFrom (pos + part.length) parts

/-- The text without markers, and where each page begins in it. -/
def stripPageMarkers (markdown : Text) : Text × List Nat :=
  let parts := splitText pageBreakMarker markdown
  if parts.length ≤ 1 then (markdown, [0]) else (parts.flatten, startsFrom 0 parts)

/-- The first line that is not blank, stripped and cut. -/
def probe (text : Text) : Text :=
  ((((splitLines text).map strip).find? fun ln => !ln.isEmpty).getD []).take probeChars

/-- `bisect_right(starts, at)` for sorted starts. -/
def bisectRight (starts : List Nat) (at' : Nat) : Nat := (starts.takeWhile (· ≤ at')).length

/-- Where a probe is found: behind the cursor, else anywhere. -/
def locate (cleanMd : Text) (cursor : Nat) (p : Text) : Option Nat :=
  (findFrom p cleanMd cursor).or (findFrom p cleanMd 0)

def assignFrom (cleanMd : Text) (pageStarts : List Nat) : Nat → List Text → List (Option Nat)
  | _, [] => []
  | cursor, text :: texts =>
    if (probe text).length < minProbeChars then none :: assignFrom cleanMd pageStarts cursor texts
    else
      match locate cleanMd cursor (probe text) with
      | none => none :: assignFrom cleanMd pageStarts cursor texts
      | some found =>
        some (bisectRight pageStarts found) :: assignFrom cleanMd pageStarts (found + 1) texts

/-- The page on which each chunk begins, counted from 1. -/
def assignChunkPages (chunkTexts : List Text) (cleanMd : Text) (pageStarts : List Nat) :
    List (Option Nat) :=
  if pageStarts.length ≤ 1 then chunkTexts.map fun _ => none
  else assignFrom cleanMd pageStarts 0 chunkTexts

/-- The pages that indexing gives to the chunks of a text. -/
def pagesOf (markdown : Text) (chunkTexts : List Text) : List (Option Nat) :=
  let (cleanMd, pageStarts) := stripPageMarkers markdown
  assignChunkPages chunkTexts cleanMd pageStarts

/-! What the pages are for. -/

/-- The place stands on the page, counted from 1, of the text between markers. -/
def OnPage (markdown : Text) (n page : Nat) : Prop :=
  ∃ before part after, splitText pageBreakMarker markdown = before ++ part :: after ∧
    before.length + 1 = page ∧ before.flatten.length ≤ n ∧
    n < before.flatten.length + part.length

/-- Chunks, each with its place in the text, in the order of the text. -/
structure InOrder (cleanMd : Text) (chunks : List (Text × Nat)) : Prop where
  occurs : ∀ x ∈ chunks, x.1 <+: cleanMd.drop x.2
  increasing : (chunks.map Prod.snd).Pairwise (· < ·)

/-- No chunk is given another page than the one on which it begins, and the pages do not decrease. -/
structure PagesRight (markdown : Text) (chunks : List (Text × Nat)) : Prop where
  onPage : List.Forall₂ (fun x page => ∀ k ∈ page, OnPage markdown x.2 k) chunks
    (pagesOf markdown (chunks.map Prod.fst))
  ordered : (pagesOf markdown (chunks.map Prod.fst)).reduceOption.Pairwise (· ≤ ·)

/-- The clean text and the starts delimit exactly the pages. -/
structure Delimits (markdown : Text) (cleanMd : Text) (pageStarts : List Nat) : Prop where
  clean : cleanMd = (splitText pageBreakMarker markdown).flatten
  sorted : pageStarts.Pairwise (· ≤ ·)
  page : ∀ n, n < cleanMd.length → ∀ k, OnPage markdown n k ↔ bisectRight pageStarts n = k

def StandsAt (cleanMd p : Text) (n : Nat) : Prop := p <+: cleanMd.drop n

/-- Every chunk with a probe begins on the earliest page on which the probes of its run up to it,
placed in order, can end. -/
def Traced (cleanMd : Text) (pageStarts : List Nat) : List Text → List (Text × Nat) → Prop
  | _, [] => True
  | run, x :: chunks =>
    if (probe x.1).length < minProbeChars then Traced cleanMd pageStarts run chunks
    else
      let run' := extend (StandsAt cleanMd) run (probe x.1)
      IsLeast (Set.image (bisectRight pageStarts) {n | Placed (StandsAt cleanMd) run' n})
        (bisectRight pageStarts x.2) ∧ Traced cleanMd pageStarts run' chunks

variable {markdown cleanMd t p old : Text} {parts before after : List Text} {part : Text}
  {pageStarts : List Nat} {chunks : List (Text × Nat)} {run : List Text} {pos n m k cursor : Nat}

/-! The markers. -/

theorem parts_single (h : (splitText old t).length ≤ 1) : splitText old t = [t] := by
  cases t with
  | nil => rfl
  | cons c t =>
    rw [splitText, List.length_cons, splitFrom] at h ⊢
    cases hcut : cutAt old (c :: t) with
    | none => rfl
    | some x =>
      rw [hcut] at h
      have hpos : 0 < (splitFrom old t.length x.2).length := by
        cases t.length <;> rw [splitFrom]
        · exact Nat.one_pos
        · split <;> simp
      simp only [List.length_cons] at h
      omega

theorem length_startsFrom (pos : Nat) (parts : List Text) :
    (startsFrom pos parts).length = parts.length := by
  induction parts generalizing pos with
  | nil => rfl
  | cons part parts ih => rw [startsFrom, List.length_cons, ih, List.length_cons]

theorem le_startsFrom (h : n ∈ startsFrom pos parts) : pos ≤ n := by
  induction parts generalizing pos with
  | nil => cases h
  | cons part parts ih =>
    rcases List.mem_cons.mp h with rfl | h
    · exact Nat.le_refl n
    · exact Nat.le_trans (Nat.le_add_right _ _) (ih h)

theorem sorted_startsFrom (pos : Nat) (parts : List Text) :
    (startsFrom pos parts).Pairwise (· ≤ ·) := by
  induction parts generalizing pos with
  | nil => exact .nil
  | cons part parts ih =>
    exact .cons (fun n hn => Nat.le_trans (Nat.le_add_right _ _) (le_startsFrom hn)) (ih _)

/-- Where the text falls into two at a place, so many pages begin up to there. -/
theorem bisectRight_startsFrom (hle : pos + before.flatten.length ≤ n)
    (hlt : n < pos + before.flatten.length + part.length) :
    bisectRight (startsFrom pos (before ++ part :: after)) n = before.length + 1 := by
  induction before generalizing pos with
  | nil =>
    simp only [List.flatten_nil, List.length_nil, Nat.add_zero] at hle hlt
    have hstop : (startsFrom (pos + part.length) after).takeWhile (fun m => m ≤ n) = [] := by
      cases after with
      | nil => rfl
      | cons part' after => simp [startsFrom, hlt]
    simp [bisectRight, startsFrom, hle, hstop]
  | cons part' before ih =>
    simp only [List.flatten_cons, List.length_append] at hle hlt
    have h := @ih (pos + part'.length) (by omega) (by omega)
    have hpos : pos ≤ n := by omega
    simpa [bisectRight, startsFrom, hpos] using h

/-- Every place of the text is on a page. -/
theorem exists_part (hle : pos ≤ n) (hlt : n < pos + parts.flatten.length) :
    ∃ before part after, parts = before ++ part :: after ∧
      pos + before.flatten.length ≤ n ∧ n < pos + before.flatten.length + part.length := by
  induction parts generalizing pos with
  | nil => simp at hlt; omega
  | cons part parts ih =>
    by_cases hpart : n < pos + part.length
    · exact ⟨[], part, parts, rfl, by simpa using hle, by simpa using hpart⟩
    · simp only [List.flatten_cons, List.length_append] at hlt
      obtain ⟨before, part', after, rfl, hle', hlt'⟩ :=
        @ih (pos + part.length) (by omega) (by omega)
      refine ⟨part :: before, part', after, rfl, ?_, ?_⟩ <;>
        simp only [List.flatten_cons, List.length_append] <;> omega

theorem onPage_bisect (h : OnPage markdown n k) :
    bisectRight (startsFrom 0 (splitText pageBreakMarker markdown)) n = k := by
  obtain ⟨before, part, after, hparts, rfl, hle, hlt⟩ := h
  rw [hparts]
  exact bisectRight_startsFrom (by omega) (by omega)

/-- `stripPageMarkers`, in one case. -/
theorem stripPageMarkers_eq (markdown : Text) : stripPageMarkers markdown =
    ((splitText pageBreakMarker markdown).flatten,
      startsFrom 0 (splitText pageBreakMarker markdown)) := by
  unfold stripPageMarkers
  dsimp only
  split
  · rename_i h
    rw [parts_single h]
    simp [startsFrom]
  · rfl

theorem strip_delimits (markdown : Text) :
    Delimits markdown (stripPageMarkers markdown).1 (stripPageMarkers markdown).2 := by
  rw [stripPageMarkers_eq]
  refine ⟨rfl, sorted_startsFrom _ _, fun n hn k => ⟨onPage_bisect, fun hk => ?_⟩⟩
  obtain ⟨before, part, after, hparts, hle, hlt⟩ := exists_part (Nat.zero_le n) (by simpa using hn)
  refine ⟨before, part, after, hparts, ?_, by omega, by omega⟩
  rw [← hk, hparts]
  exact (bisectRight_startsFrom hle hlt).symm

theorem bisectRight_mono : Monotone (bisectRight pageStarts) := by
  intro n m h
  unfold bisectRight
  refine List.IsPrefix.length_le ?_
  induction pageStarts with
  | nil => exact List.prefix_refl _
  | cons a starts ih =>
    by_cases ha : a ≤ n
    · simpa [ha, Nat.le_trans ha h] using ih
    · simp [ha]

/-! The probes. -/

/-- What a probe is cut from. -/
theorem probe_stretch (t : Text) : probe t <:+: t := by
  have htake : ∀ l : Text, l.take probeChars <:+: l := fun l => (List.take_prefix _ l).isInfix
  unfold probe
  cases hfind : ((splitLines t).map strip).find? fun ln => !ln.isEmpty with
  | none => simp
  | some ln =>
    obtain ⟨l, hl, rfl⟩ := List.mem_map.mp (List.mem_of_find?_eq_some hfind)
    obtain ⟨u, v, -, -, hstrip⟩ := exists_strip l
    have hline : strip l <:+: l := ⟨u, v, by rw [List.append_assoc, ← hstrip]⟩
    exact (htake _).trans (hline.trans (infix_of_mem_splitLines hl))

theorem exists_standsAt (hp : p <:+: t) (h : t <+: cleanMd.drop n) : ∃ m, StandsAt cleanMd p m := by
  obtain ⟨u, v, hu⟩ := hp.trans h.isInfix
  refine ⟨n + u.length, v, ?_⟩
  rw [← List.drop_drop, ← hu, List.append_assoc, List.drop_left]

/-- What a search finds, against the leftmost placement of the run. -/
theorem locate_extend (hp : ∃ m, StandsAt cleanMd p m) (h : Behind (StandsAt cleanMd) run cursor) :
    ∃ n, locate cleanMd cursor p = some n ∧
      IsLeast {n | Placed (StandsAt cleanMd) (extend (StandsAt cleanMd) run p) n} n := by
  unfold locate
  cases hfound : findFrom p cleanMd cursor with
  | some n => exact ⟨n, rfl, extend_of_first h (findFrom_some hfound)⟩
  | none =>
    cases hall : findFrom p cleanMd 0 with
    | none =>
      obtain ⟨m, hm⟩ := hp
      exact absurd hm (findFrom_none hall (Nat.zero_le m))
    | some n =>
      have hleast := findFrom_some hall
      simp only [Nat.zero_le, true_and] at hleast
      exact ⟨n, rfl, extend_of_none h (fun _ hle => findFrom_none hfound hle) hleast⟩

theorem occurs_lt (hne : t ≠ []) (h : t <+: cleanMd.drop n) : n < cleanMd.length := by
  obtain ⟨v, hv⟩ := h
  have hlen := congrArg List.length hv
  have hpos := List.length_pos_of_ne_nil hne
  simp only [List.length_append, List.length_drop] at hlen
  omega

/-- The pages against the leftmost placements. -/
theorem assignFrom_right_iff (hd : Delimits markdown cleanMd pageStarts)
    (hocc : ∀ x ∈ chunks, x.1 <+: cleanMd.drop x.2)
    (h : Behind (StandsAt cleanMd) run cursor) :
    List.Forall₂ (fun x page => ∀ k ∈ page, OnPage markdown x.2 k) chunks
      (assignFrom cleanMd pageStarts cursor (chunks.map Prod.fst)) ↔
        Traced cleanMd pageStarts run chunks := by
  induction chunks generalizing run cursor with
  | nil => exact iff_of_true .nil trivial
  | cons x chunks ih =>
    obtain ⟨hx, hocc⟩ := List.forall_mem_cons.mp hocc
    rw [List.map_cons, assignFrom, Traced]
    by_cases hshort : (probe x.1).length < minProbeChars
    · rw [if_pos hshort, if_pos hshort, List.forall₂_cons, ih hocc h]
      simp
    · obtain ⟨n, hn, hleast⟩ := locate_extend (exists_standsAt (probe_stretch x.1) hx) h
      have hne : x.1 ≠ [] := by
        intro hnil
        rw [hnil] at hshort
        exact hshort (by decide)
      have himage := Monotone.map_isLeast (f := bisectRight pageStarts) bisectRight_mono hleast
      rw [if_neg hshort, if_neg hshort, hn]
      dsimp only
      rw [List.forall₂_cons, ih hocc (behind_of_isLeast hleast)]
      refine and_congr_left fun _ => ?_
      have hpage := hd.page x.2 (occurs_lt hne hx) (bisectRight pageStarts n)
      constructor
      · intro hon
        rw [hpage.mp (hon _ rfl)]
        exact himage
      · rintro hright k hk
        obtain rfl := Option.some.inj hk
        exact hpage.mpr (hright.unique himage)

theorem exists_of_mem_reduce {R : Text × Nat → Option Nat → Prop} {pages : List (Option Nat)}
    (h : List.Forall₂ R chunks pages) (hk : k ∈ pages.reduceOption) :
    ∃ x ∈ chunks, R x (some k) := by
  induction h with
  | nil => cases hk
  | @cons x page chunks pages hpage _ ih =>
    have hrest : k ∈ pages.reduceOption → ∃ y ∈ x :: chunks, R y (some k) := by
      intro hk
      obtain ⟨y, hy, hR⟩ := ih hk
      exact ⟨y, List.mem_cons_of_mem x hy, hR⟩
    cases page with
    | none => exact hrest hk
    | some k' =>
      rcases List.mem_cons.mp hk with rfl | hk
      · exact ⟨x, List.mem_cons_self, hpage⟩
      · exact hrest hk

/-- Right pages do not decrease. -/
theorem ordered_of_onPage {pages : List (Option Nat)} (hinc : (chunks.map Prod.snd).Pairwise (· < ·))
    (h : List.Forall₂ (fun x page => ∀ k ∈ page, OnPage markdown x.2 k) chunks pages) :
    pages.reduceOption.Pairwise (· ≤ ·) := by
  induction h with
  | nil => exact .nil
  | @cons x page chunks pages hpage hrest ih =>
    rw [List.map_cons, List.pairwise_cons] at hinc
    cases page with
    | none => exact ih hinc.2
    | some k =>
      refine .cons (fun k' hk' => ?_) (ih hinc.2)
      obtain ⟨y, hy, hon⟩ := exists_of_mem_reduce hrest hk'
      rw [← onPage_bisect (hpage k rfl), ← onPage_bisect (hon k' rfl)]
      exact bisectRight_mono (Nat.le_of_lt (hinc.1 _ (List.mem_map_of_mem hy)))

theorem unmarked_iff : (stripPageMarkers markdown).2.length ≤ 1 ↔ ¬ pageBreakMarker <:+: markdown := by
  rw [stripPageMarkers_eq, length_startsFrom, ← count_eq_zero (by decide), count]
  omega

theorem unmarked_pages {R : Text × Nat → Option Nat → Prop} (hR : ∀ x, R x none)
    (chunks : List (Text × Nat)) :
    List.Forall₂ R chunks ((chunks.map Prod.fst).map fun _ => none) ∧
      ((chunks.map Prod.fst).map fun _ => (none : Option Nat)).reduceOption = [] := by
  induction chunks with
  | nil => exact ⟨.nil, rfl⟩
  | cons x chunks ih => exact ⟨.cons (hR x) ih.1, ih.2⟩

theorem pagesOf_eq (markdown : Text) (texts : List Text) : pagesOf markdown texts =
    assignChunkPages texts (stripPageMarkers markdown).1 (stripPageMarkers markdown).2 := rfl

/-- The pages of the chunks are right if and only if, in every run of probes, the earliest page that a
placement of them in order can end on is the page of the chunk. -/
theorem chunk_pages_right_iff (h : InOrder (stripPageMarkers markdown).1 chunks) :
    Delimits markdown (stripPageMarkers markdown).1 (stripPageMarkers markdown).2 ∧
      (PagesRight markdown chunks ↔ ¬ pageBreakMarker <:+: markdown ∨
        Traced (stripPageMarkers markdown).1 (stripPageMarkers markdown).2 [] chunks) := by
  have hd := strip_delimits markdown
  have hright : PagesRight markdown chunks ↔ List.Forall₂
      (fun x page => ∀ k ∈ page, OnPage markdown x.2 k) chunks
        (pagesOf markdown (chunks.map Prod.fst)) :=
    ⟨fun hp => hp.onPage, fun hp => ⟨hp, ordered_of_onPage h.increasing hp⟩⟩
  refine ⟨hd, hright.trans ?_⟩
  rw [← unmarked_iff, pagesOf_eq, assignChunkPages]
  by_cases hone : (stripPageMarkers markdown).2.length ≤ 1
  · rw [if_pos hone]
    exact iff_of_true (unmarked_pages (fun _ => by simp) chunks).1 (.inl hone)
  · rw [if_neg hone, assignFrom_right_iff hd h.occurs behind_nil]
    exact ⟨.inr, fun hor => hor.resolve_left hone⟩

theorem chunk_pages_right_repeated :
    Traced "반복되는 소제목 줄\n하나반복되는 소제목 줄\n둘".toList [0, 13] []
      [("반복되는 소제목 줄\n하나".toList, 0), ("반복되는 소제목 줄\n둘".toList, 13)] := by
  obtain ⟨hmarked, hstrip, hparts, hpages⟩ : contains pageBreakMarker
        "반복되는 소제목 줄\n하나<!-- rown:page-break -->반복되는 소제목 줄\n둘".toList ∧
      stripPageMarkers
        "반복되는 소제목 줄\n하나<!-- rown:page-break -->반복되는 소제목 줄\n둘".toList =
        ("반복되는 소제목 줄\n하나반복되는 소제목 줄\n둘".toList, [0, 13]) ∧
      splitText pageBreakMarker
        "반복되는 소제목 줄\n하나<!-- rown:page-break -->반복되는 소제목 줄\n둘".toList =
        ["반복되는 소제목 줄\n하나".toList, "반복되는 소제목 줄\n둘".toList] ∧
      pagesOf "반복되는 소제목 줄\n하나<!-- rown:page-break -->반복되는 소제목 줄\n둘".toList
        ([("반복되는 소제목 줄\n하나".toList, 0), ("반복되는 소제목 줄\n둘".toList, 13)].map Prod.fst) =
        [some 1, some 2] := by
    decide
  have hin : InOrder (stripPageMarkers
      "반복되는 소제목 줄\n하나<!-- rown:page-break -->반복되는 소제목 줄\n둘".toList).1
      [("반복되는 소제목 줄\n하나".toList, 0), ("반복되는 소제목 줄\n둘".toList, 13)] := by
    rw [hstrip]
    exact ⟨by decide, by decide⟩
  have hright : PagesRight "반복되는 소제목 줄\n하나<!-- rown:page-break -->반복되는 소제목 줄\n둘".toList
      [("반복되는 소제목 줄\n하나".toList, 0), ("반복되는 소제목 줄\n둘".toList, 13)] := by
    constructor
    · rw [hpages, List.forall₂_cons, List.forall₂_cons]
      refine ⟨?_, ?_, .nil⟩
      · rintro k ⟨⟩
        exact ⟨[], _, _, hparts, rfl, by decide, by decide⟩
      · rintro k ⟨⟩
        exact ⟨[_], _, [], hparts, rfl, by decide, by decide⟩
    · rw [hpages]
      decide
  have h := (chunk_pages_right_iff hin).2.mp hright
  rw [hstrip] at h
  exact h.resolve_left fun hno => hno (contains_iff.1 hmarked)

theorem contents_line_misleads :
    InOrder (stripPageMarkers
        "목차\n제1장 서론의 배경\n<!-- rown:page-break -->제1장 서론의 배경\n본문이다".toList).1
      [("목차\n제1장 서론의 배경\n".toList, 0), ("제1장 서론의 배경\n본문이다".toList, 14)] ∧
    ¬ PagesRight "목차\n제1장 서론의 배경\n<!-- rown:page-break -->제1장 서론의 배경\n본문이다".toList
      [("목차\n제1장 서론의 배경\n".toList, 0), ("제1장 서론의 배경\n본문이다".toList, 14)] := by
  obtain ⟨hstrip, hpages⟩ : stripPageMarkers
        "목차\n제1장 서론의 배경\n<!-- rown:page-break -->제1장 서론의 배경\n본문이다".toList =
        ("목차\n제1장 서론의 배경\n제1장 서론의 배경\n본문이다".toList, [0, 14]) ∧
      pagesOf "목차\n제1장 서론의 배경\n<!-- rown:page-break -->제1장 서론의 배경\n본문이다".toList
        ([("목차\n제1장 서론의 배경\n".toList, 0), ("제1장 서론의 배경\n본문이다".toList, 14)].map Prod.fst) =
        [none, some 1] := by
    decide
  constructor
  · rw [hstrip]
    exact ⟨by decide, by decide⟩
  · intro h
    have hpage := h.onPage
    rw [hpages] at hpage
    -- the line of the contents on the first page is found, not the heading on the second
    obtain ⟨-, hpage⟩ := List.forall₂_cons.mp hpage
    have hon := onPage_bisect ((List.forall₂_cons.mp hpage).1 1 rfl)
    have hstarts := (Prod.ext_iff.mp (hstrip.symm.trans (stripPageMarkers_eq _))).2
    dsimp only at hstarts hon
    rw [← hstarts] at hon
    exact absurd hon (by decide)

/-! Chunks without leading blanks: no page lies ahead. -/

/-- A text that begins with no blank begins with its probe. -/
theorem probe_prefix {c : Char} (hc : isSpace c = false) (t : Text) : probe (c :: t) <+: c :: t := by
  obtain ⟨w, ls, hlines, hw⟩ := splitLines_cons (not_isBreak_of_not_isSpace hc) t
  have hne : strip (c :: w) ≠ [] := by
    intro hnil
    have hblank := isSpace_of_strip hnil c List.mem_cons_self
    rw [hc] at hblank
    cases hblank
  have hstart : strip (c :: w) <+: c :: w := by
    have hstrip : strip (c :: w) = rstrip (c :: w) := by simp [strip, lstrip, hc]
    rw [hstrip, ← List.reverse_suffix, rstrip, List.reverse_reverse]
    exact List.dropWhile_suffix _
  have hprobe : probe (c :: t) = (strip (c :: w)).take probeChars := by
    rw [probe, hlines, List.map_cons, List.find?_cons_of_pos (by simpa using hne)]
    rfl
  rw [hprobe]
  exact (List.take_prefix _ _).trans (hstart.trans ((List.prefix_cons_inj c).mpr hw))

/-- The search is never ahead of the chunk, and moves forward only. -/
theorem assignFrom_behind (hocc : ∀ x ∈ chunks, x.1 <+: cleanMd.drop x.2)
    (hinc : (chunks.map Prod.snd).Pairwise (· < ·))
    (hhead : ∀ x ∈ chunks, ∀ c ∈ x.1.head?, isSpace c = false)
    (hcursor : ∀ x ∈ chunks, cursor ≤ x.2) :
    List.Forall₂ (fun x page => ∀ k ∈ page, ∃ n, cursor ≤ n ∧ n ≤ x.2 ∧ bisectRight pageStarts n = k)
      chunks (assignFrom cleanMd pageStarts cursor (chunks.map Prod.fst)) ∧
    (assignFrom cleanMd pageStarts cursor (chunks.map Prod.fst)).reduceOption.Pairwise (· ≤ ·) := by
  induction chunks generalizing cursor with
  | nil => exact ⟨.nil, .nil⟩
  | cons x chunks ih =>
    obtain ⟨hx, hocc⟩ := List.forall_mem_cons.mp hocc
    obtain ⟨hxhead, hhead⟩ := List.forall_mem_cons.mp hhead
    obtain ⟨hxcursor, hrest⟩ := List.forall_mem_cons.mp hcursor
    rw [List.map_cons, List.pairwise_cons] at hinc
    rw [List.map_cons, assignFrom]
    by_cases hshort : (probe x.1).length < minProbeChars
    · obtain ⟨hpages, hordered⟩ := ih hocc hinc.2 hhead hrest
      rw [if_pos hshort]
      exact ⟨.cons (by simp) hpages, hordered⟩
    · obtain ⟨c, t, hct⟩ : ∃ c t, x.1 = c :: t := by
        refine List.exists_cons_of_ne_nil fun hnil => hshort ?_
        rw [hnil]
        decide
      have hstands : StandsAt cleanMd (probe x.1) x.2 := by
        have hstart := probe_prefix (hxhead c (by rw [hct]; rfl)) t
        rw [← hct] at hstart
        exact hstart.trans hx
      rw [if_neg hshort]
      unfold locate
      cases hfound : findFrom (probe x.1) cleanMd cursor with
      | none => exact absurd hstands (findFrom_none hfound hxcursor)
      | some n =>
        have hleast := findFrom_some hfound
        have hle : n ≤ x.2 := hleast.2 ⟨hxcursor, hstands⟩
        have hbehind : ∀ y ∈ chunks, n + 1 ≤ y.2 := fun y hy =>
          Nat.lt_of_le_of_lt hle (hinc.1 _ (List.mem_map_of_mem hy))
        obtain ⟨hpages, hordered⟩ := ih hocc hinc.2 hhead hbehind
        refine ⟨.cons ?_ (hpages.imp fun y page hpage k hk => ?_), .cons (fun k hk => ?_) hordered⟩
        · rintro k hk
          obtain rfl := Option.some.inj hk
          exact ⟨n, hleast.1.1, hle, rfl⟩
        · obtain ⟨m, hm, hmle, hbisect⟩ := hpage k hk
          exact ⟨m, by have := hleast.1.1; omega, hmle, hbisect⟩
        · obtain ⟨y, -, hy⟩ := exists_of_mem_reduce hpages hk
          obtain ⟨m, hm, -, hbisect⟩ := hy k rfl
          rw [← hbisect]
          exact bisectRight_mono (Nat.le_of_lt hm)

end RownRg.ChunkPages

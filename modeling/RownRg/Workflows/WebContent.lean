import RownRg.Lib.Lexing
import RownRg.Lib.Lines

/-! Web pages as markdown, without what is not their text. -/

open PyText Regex

namespace RownRg.WebCollect

/-- `_WEB_FRONTMATTER_RE` -/
def frontmatterRe : Regex Unit :=
  cat [textStart, star space, lit "---".toList, star space, chr '\n', lazy (cls fun _ => true),
    chr '\n', star space, lit "---".toList, star space, opt (chr '\n')]

def stripWebFrontmatter (md : Text) : Text :=
  match frontmatterRe.first [] md with
  | none => md
  | some (_, rest) => rest

/-- `_REPLACEMENT_CHAR` -/
def replacementChar : Char := '\uFFFD'

/-- The line without the replacement character, unless three tenths of it are garbled. -/
def ungarbled (line : Text) : Option Text :=
  let bad := line.count replacementChar
  let stripped := strip line
  if bad = 0 then some line
  else if !stripped.isEmpty && 10 * bad ≥ 3 * stripped.length then none
  else some (line.filter (· != replacementChar))

def stripReplacementChars (markdown : Text) : Text :=
  if replacementChar ∉ markdown then markdown
  else joinWith ['\n'] ((markdown.splitOn '\n').filterMap ungarbled)

/-- `!\[[^\]]*\]\([^)]*\)` -/
def imageRe : Regex Unit :=
  cat [lit "![".toList, star (noneOf "]".toList), lit "](".toList, star (noneOf ")".toList), chr ')']

/-- `\[[^\n]*?\]\([^\s)]*\)` -/
def linkRe : Regex Unit :=
  cat [chr '[', lazy (noneOf "\n".toList), lit "](".toList,
    star (cls fun c => !isSpace c && c != ')'), chr ')']

/-- `https?://\S+` -/
def urlRe : Regex Unit :=
  cat [lit "http".toList, opt (chr 's'), lit "://".toList, plus (cls fun c => !isSpace c)]

/-- `[\s>*#|:•·—–×✕✖\-\[\]()!]+` -/
def syntaxRe : Regex Unit := plus (cls fun c => isSpace c || ">*#|:•·—–×✕✖-[]()!".toList.contains c)

/-- `[A-Za-z0-9가-힣]` -/
def wordRe : Regex Unit := cls fun c =>
  ('A' ≤ c && c ≤ 'Z') || ('a' ≤ c && c ≤ 'z') || ('0' ≤ c && c ≤ '9') || ('가' ≤ c && c ≤ '힣')

/-- `pattern.sub(text, line)` -/
def replaced (r : Regex Unit) (t line : Text) : Text := r.sub (fun _ => t) line

/-- Nothing is left of the line without its links, addresses and signs. -/
def isLinkOnly (line : Text) : Bool :=
  let rest := replaced urlRe [' '] (replaced linkRe [' '] line)
  !wordRe.found (replaced syntaxRe [] rest)

/-- `_BOILERPLATE_MARKERS` -/
def boilerplateMarkers : List Text :=
  ["googletagmanager.com".toList, "javascript:void(0)".toList, "대한민국 공식 전자정부 누리집".toList,
    "공식 누리집 주소 확인".toList, "아이콘 또는 HTTPS 확인".toList, "자물쇠 아이콘과 주소 앞".toList,
    "- Loading…".toList, "화면크기".toList, "인기검색어".toList, "최근검색어".toList,
    "검색어 자동완성".toList, "검색어를 입력".toList, "본문 바로가기".toList, "주메뉴 바로가기".toList]

/-- One line; empty lines are kept between paragraphs, one at a time. -/
def keepLine (kept : List Text) (line : Text) : List Text :=
  if boilerplateMarkers.any fun marker => contains marker line then kept
  else
    let noImg := replaced imageRe [] line
    if (strip noImg).isEmpty || isLinkOnly noImg then
      if kept.getLast?.any (!·.isEmpty) then kept ++ [[]] else kept
    else kept ++ [noImg]

def cleanWebMarkdown (md : Text) : Text :=
  let md := stripReplacementChars (stripWebFrontmatter md)
  strip (joinWith ['\n'] ((splitLines md).foldl keepLine []))

/-- `_MIN_CONTENT_CHARS` -/
def minContentChars : Nat := 200

def hasUsableContent (contentMd : Text) : Bool :=
  !contentMd.isEmpty && (cleanWebMarkdown contentMd).length ≥ minContentChars

variable {t line : Text} {r : Regex Unit}

/-! A blank page has no content. -/

theorem mem_of_mem_removed {c : Char} (h : c ∈ replaced r [] t) : c ∈ t := by
  obtain ⟨p, hp, hc⟩ := List.mem_flatMap.mp h
  cases p with
  | plain d =>
    obtain rfl := List.mem_singleton.mp hc
    rw [← render_pieces r t]
    exact List.mem_flatMap.mpr ⟨_, hp, hc⟩
  | hit m => cases hc

theorem keepLine_blank (hline : ∀ c ∈ line, isSpace c) : keepLine [] line = [] := by
  have hblank : (strip (replaced imageRe [] line)).isEmpty := by
    rw [strip_blank fun c hc => hline c (mem_of_mem_removed hc)]
    rfl
  unfold keepLine
  split
  · rfl
  · simp [hblank]

theorem cleanWebMarkdown_blank (ht : ∀ c ∈ t, isSpace c) : cleanWebMarkdown t = [] := by
  have hrest : ∀ c ∈ stripWebFrontmatter t, isSpace c := by
    unfold stripWebFrontmatter
    split
    · exact ht
    · rename_i m rest hfirst
      rw [first_reads hfirst] at ht
      exact fun c hc => ht c (List.mem_append_right _ hc)
  have hnone : replacementChar ∉ stripWebFrontmatter t :=
    fun hmem => absurd (hrest _ hmem) (by decide)
  have hlines : ∀ line ∈ splitLines (stripWebFrontmatter t), ∀ c ∈ line, isSpace c :=
    fun line hline c hc => hrest c (mem_splitLines hline hc).2
  have hkept : ∀ lines : List Text, (∀ line ∈ lines, ∀ c ∈ line, isSpace c) →
      lines.foldl keepLine [] = [] := by
    intro lines
    induction lines with
    | nil => exact fun _ => rfl
    | cons line lines ih =>
      intro h
      obtain ⟨hline, hlines⟩ := List.forall_mem_cons.mp h
      rw [List.foldl_cons, keepLine_blank hline, ih hlines]
  rw [cleanWebMarkdown, stripReplacementChars, if_pos hnone]
  rw [hkept _ hlines]
  rfl

/-- Content that can be used is not blank. -/
theorem not_blank_of_usable (h : hasUsableContent t) : strip t ≠ [] := by
  intro hblank
  have hclean := cleanWebMarkdown_blank (fun c hc => isSpace_of_strip hblank c hc)
  simp [hasUsableContent, hclean, minContentChars] at h

end RownRg.WebCollect

import RownRg.Core.ChartFences

/-! A body line by line: which lines belong to chart fences. -/

open PyText Regex

namespace RownRg.Charts

/-- A fence, or a line outside all fences. -/
inductive Block where
  | line (l : Text)
  | fence (hd : Text) (body : List Text) (cl : Text)
  deriving DecidableEq

def Block.lines : Block → List Text
  | .line l => [l]
  | .fence hd body cl => hd :: (body ++ [cl])

/-- The lines before the first closing line, that line, and the lines behind it. -/
def cutClosing : List Text → Option (List Text × Text × List Text)
  | [] => none
  | l :: ls =>
    if isClosing l then some ([], l, ls)
    else (cutClosing ls).map fun x => (l :: x.1, x.2)

variable {l hd cl : Text} {ls ks body rest : List Text} {b : Block} {bs : List Block}

theorem cutClosing_some (h : cutClosing ls = some (body, cl, rest)) :
    ls = body ++ cl :: rest ∧ isClosing cl ∧ ∀ x ∈ body, isClosing x = false := by
  induction ls generalizing body with
  | nil => simp [cutClosing] at h
  | cons l ls ih =>
    rw [cutClosing] at h
    by_cases hl : isClosing l
    · rw [if_pos hl] at h
      obtain ⟨rfl, rfl, rfl⟩ : [] = body ∧ l = cl ∧ ls = rest := by simpa using h
      exact ⟨rfl, hl, by simp⟩
    · rw [if_neg hl] at h
      obtain ⟨⟨body', cl', rest'⟩, hx, hxy⟩ := Option.map_eq_some_iff.mp h
      obtain ⟨rfl, rfl, rfl⟩ : l :: body' = body ∧ cl' = cl ∧ rest' = rest := by simpa using hxy
      obtain ⟨rfl, hcl, hbody⟩ := ih hx
      exact ⟨rfl, hcl, List.forall_mem_cons.mpr ⟨by simpa using hl, hbody⟩⟩

theorem cutClosing_none (h : cutClosing ls = none) : ∀ x ∈ ls, isClosing x = false := by
  induction ls with
  | nil => simp
  | cons l ls ih =>
    rw [cutClosing] at h
    by_cases hl : isClosing l
    · simp [hl] at h
    · rw [if_neg hl, Option.map_eq_none_iff] at h
      exact List.forall_mem_cons.mpr ⟨by simpa using hl, ih h⟩

theorem cutClosing_append (hbody : ∀ x ∈ body, isClosing x = false) (hcl : isClosing cl) :
    cutClosing (body ++ cl :: rest) = some (body, cl, rest) := by
  induction body with
  | nil => simp [cutClosing, hcl]
  | cons l body ih =>
    obtain ⟨hl, hbody⟩ := List.forall_mem_cons.mp hbody
    simp [cutClosing, hl, ih hbody]

theorem length_cutClosing (h : cutClosing ls = some (body, cl, rest)) :
    rest.length < ls.length := by
  obtain ⟨rfl, -, -⟩ := cutClosing_some h
  simp
  omega

/-- The blocks of a body: a fence runs from a header to the next closing line. -/
def layout : List Text → List Block
  | [] => []
  | l :: ls =>
    if isHeader l then
      match _h : cutClosing ls with
      | none => .line l :: layout ls
      | some (body, cl, rest) => .fence l body cl :: layout rest
    else .line l :: layout ls
termination_by ls => ls.length
decreasing_by
  · simp
  · have := length_cutClosing _h
    simp
    omega
  · simp

theorem layout_line (h : isHeader l → ∀ x ∈ ls, isClosing x = false) :
    layout (l :: ls) = .line l :: layout ls := by
  rw [layout]
  split
  · rename_i hl
    split
    · rfl
    · rename_i hcut
      obtain ⟨rfl, hcl, -⟩ := cutClosing_some hcut
      simp [h hl _ (List.mem_append_right _ List.mem_cons_self)] at hcl
  · rfl

theorem layout_fence (hhd : isHeader hd) (hbody : ∀ x ∈ body, isClosing x = false)
    (hcl : isClosing cl) :
    layout (hd :: (body ++ cl :: rest)) = .fence hd body cl :: layout rest := by
  rw [layout, if_pos hhd]
  split
  · rename_i hcut
    rw [cutClosing_append hbody hcl] at hcut
    cases hcut
  · rename_i hcut
    rw [cutClosing_append hbody hcl] at hcut
    cases hcut
    rfl

/-- Induction along the blocks of a body. -/
@[elab_as_elim]
theorem layout_induction {motive : List Text → Prop} (ls : List Text) (nil : motive [])
    (line : ∀ l ls, (isHeader l → ∀ x ∈ ls, isClosing x = false) → motive ls → motive (l :: ls))
    (fence : ∀ hd body cl rest, isHeader hd → (∀ x ∈ body, isClosing x = false) → isClosing cl →
      motive rest → motive (hd :: (body ++ cl :: rest))) : motive ls := by
  induction hn : ls.length using Nat.strongRecOn generalizing ls with
  | _ n ih =>
    cases ls with
    | nil => exact nil
    | cons l ls =>
      have hline : (isHeader l → ∀ x ∈ ls, isClosing x = false) → motive (l :: ls) := fun h =>
        line l ls h (ih ls.length (by simp [← hn]) ls rfl)
      by_cases hl : isHeader l
      · cases hcut : cutClosing ls with
        | none => exact hline fun _ => cutClosing_none hcut
        | some x =>
          obtain ⟨body, cl, rest⟩ := x
          have hlen := length_cutClosing hcut
          obtain ⟨rfl, hcl, hbody⟩ := cutClosing_some hcut
          refine fence l body cl rest hl hbody hcl (ih rest.length ?_ rest rfl)
          simp at hn hlen
          omega
      · exact hline fun h => absurd h hl

/-- The blocks hold the lines of the body, in order. -/
theorem lines_layout (ls : List Text) : (layout ls).flatMap Block.lines = ls := by
  induction ls using layout_induction with
  | nil => simp [layout]
  | line l ls h ih => simp [layout_line h, Block.lines, ih]
  | fence hd body cl rest hhd hbody hcl ih =>
    simp [layout_fence hhd hbody hcl, Block.lines, ih]

/-! The search for fences runs along the blocks. -/

def blockPieces : Block → List (Piece FenceGroup)
  | .line l => l.map .plain
  | .fence hd body cl => [.hit (fenceMatch hd body cl)]

def joinPieces : List Block → List (Piece FenceGroup)
  | [] => []
  | [b] => blockPieces b
  | b :: bs => blockPieces b ++ .plain '\n' :: joinPieces bs

theorem joinPieces_cons (b : Block) (h : bs ≠ []) :
    joinPieces (b :: bs) = blockPieces b ++ .plain '\n' :: joinPieces bs := by
  cases bs with
  | nil => exact absurd rfl h
  | cons => rfl

theorem layout_ne_nil (h : ls ≠ []) : layout ls ≠ [] := by
  intro hnil
  have hlines := lines_layout ls
  rw [hnil] at hlines
  exact h hlines.symm

theorem joinLines_cons (l : Text) (h : ls ≠ []) : joinLines (l :: ls) = l ++ '\n' :: joinLines ls := by
  obtain ⟨x, xs, rfl⟩ := List.exists_cons_of_ne_nil h
  rfl

theorem joinLines_fence (hd : Text) (body : List Text) (cl : Text) (rest : List Text) :
    joinLines (hd :: (body ++ cl :: rest)) =
      hd ++ '\n' :: (closed body ++ (cl ++ below rest)) := by
  have hclosed := congrArg (· ++ (cl ++ below rest)) (below_closed body)
  simp [joinLines] at hclosed ⊢
  exact hclosed.symm

theorem joinLines_splitOn (t : Text) : joinLines (t.splitOn '\n') = t := by
  have h := below_splitOn t
  cases hls : t.splitOn '\n' with
  | nil => simp [hls] at h
  | cons l ls =>
    rw [hls] at h
    simpa [joinLines] using h

theorem fenceMatch_text (hd : Text) (body : List Text) (cl : Text) :
    (fenceMatch hd body cl).text = hd ++ '\n' :: (closed body ++ cl) := rfl

theorem fenceMatch_ne_nil (hd : Text) (body : List Text) (cl : Text) :
    (fenceMatch hd body cl).text ≠ [] := by simp [fenceMatch_text]

theorem fenceMatch_last (hcl : isClosing cl) :
    (fenceMatch hd body cl).text.getLast? ≠ some '\n' := by
  have hne : cl ≠ [] := by
    rintro rfl
    simp [isClosing, isFenceLine] at hcl
  have hc := List.getLast?_eq_some_getLast hne
  have hlast : (fenceMatch hd body cl).text.getLast? = some (cl.getLast hne) := by
    simp [fenceMatch_text, List.getLast?_append, List.getLast?_cons, hc]
  rw [hlast]
  intro h
  exact notMem_closing hcl (Option.some.inj h ▸ List.getLast_mem hne)

/-- `chartFenceRe` behind its `lineStart`. -/
def fenceRest : Regex FenceGroup :=
  cat [lit "```chart".toList, blanks, chr '\n', group .body (lazy anyChar), lineStart,
    lit "```".toList, blanks, lineEnd]

theorem lined_fenceRest : fenceRest.Lined := by
  simp [fenceRest, cat, lit, blanks, anyChar, chr, oneOf, Lined]

/-- The pieces of a body are those of its blocks, with the line breaks between them. -/
theorem pieces_layout (hls : ∀ l ∈ ls, '\n' ∉ l) :
    chartFenceRe.pieces (joinLines ls) = joinPieces (layout ls) := by
  have hre : chartFenceRe = seq lineStart fenceRest := rfl
  induction ls using layout_induction with
  | nil => simp [layout, joinPieces, joinLines]
  | line l ls h ih =>
    obtain ⟨hl, hls⟩ := List.forall_mem_cons.mp hls
    have hnone : chartFenceRe.first [] (l ++ below ls) = none := first_noFence hl hls h
    rw [layout_line h]
    by_cases hne : ls = []
    · subst hne
      rw [below_nil, List.append_nil] at hnone
      rw [hre] at hnone ⊢
      rw [joinLines, below_nil, List.append_nil, pieces_lastLine hl hnone]
      simp [layout, joinPieces, blockPieces]
    · have hjoin : l ++ below ls = l ++ '\n' :: joinLines ls := joinLines_cons l hne
      rw [joinPieces_cons _ (layout_ne_nil hne), ← ih hls, joinLines, hjoin, blockPieces]
      rw [hjoin] at hnone
      rw [hre] at hnone ⊢
      exact pieces_line lined_fenceRest hl hnone
  | fence hd body cl rest hhd hbody hcl ih =>
    have hbody' : ∀ l ∈ body, '\n' ∉ l ∧ isClosing l = false := fun l hl =>
      ⟨hls l (by simp [hl]), hbody l hl⟩
    have hrest : ∀ l ∈ rest, '\n' ∉ l := fun l hl => hls l (by simp [hl])
    have hfirst := first_fence hhd hbody' hcl (broken_below rest)
    rw [layout_fence hhd hbody hcl, joinLines_fence]
    by_cases hne : rest = []
    · subst hne
      have hpieces := pieces_lastHit (fenceMatch_ne_nil hd body cl) hfirst
      simpa [layout, joinPieces, blockPieces] using hpieces
    · obtain ⟨x, xs, rfl⟩ := List.exists_cons_of_ne_nil hne
      rw [joinPieces_cons _ (layout_ne_nil hne), ← ih hrest]
      exact pieces_lineHit lined_fenceRest (fenceMatch_ne_nil hd body cl) (fenceMatch_last hcl)
        hfirst

end RownRg.Charts

import RownRg.Core.Renumbering
import RownRg.Lib.Lexing
import RownRg.Lib.Unread
import RownRg.Qa.CrossSection

/-! Taking the source marks out of the sentences that state no figure. -/

open PyText Regex RownRg.Citations
open RownRg.CrossSection (sourceMarkRe)

namespace RownRg.SourceMarks

/-- `_SENTENCE_BOUNDARY` -/
def isBoundary (c : Char) : Bool := "。.!?\n".toList.contains c

/-- The part of a sentence that ends where `before` ends; both have the nearest character first. -/
def sentence (before : Text) : Text := before.takeWhile fun c => !isBoundary c

/-- `re.search(r"\d", sentence)` -/
def hasFigure (before : Text) : Bool := (sentence before).any isDigit

/-- The loop over the marks; `before` is what was read. -/
def stripFrom (before : Text) : List (Piece Unit) → Text
  | [] => []
  | .plain c :: ps => c :: stripFrom (c :: before) ps
  | .hit m :: ps =>
    (if hasFigure before then m.text else []) ++ stripFrom (m.text.reverse ++ before) ps

def stripNonnumericSourceMarks (content : Text) : Text := stripFrom [] (sourceMarkRe.pieces content)

/-! What is meant: a mark stays by the digits of its sentence that stand in no mark. -/

/-- The characters of the pieces, nearest first when the pieces are. -/
def textOf (read : List (Piece MarkGroup)) : Text := read.flatMap fun p => p.text.reverse

/-- The characters outside the marks. -/
def own : List (Piece MarkGroup) → Text
  | [] => []
  | .plain c :: read => c :: own read
  | .hit _ :: read => own read

def isSource (m : Match MarkGroup) : Bool := (m.group .source).isSome

/-- For each source mark the pieces before it, nearest first. -/
def sourceMarks (read : List (Piece MarkGroup)) :
    List (Piece MarkGroup) → List (List (Piece MarkGroup))
  | [] => []
  | .plain c :: ps => sourceMarks (.plain c :: read) ps
  | .hit m :: ps => (if isSource m then [read] else []) ++ sourceMarks (.hit m :: read) ps

/-- The pieces without the source marks that `stays` gives up for the pieces before them. -/
def keepBy (stays : List (Piece MarkGroup) → Bool) (read : List (Piece MarkGroup)) :
    List (Piece MarkGroup) → List (Piece MarkGroup)
  | [] => []
  | .plain c :: ps => .plain c :: keepBy stays (.plain c :: read) ps
  | .hit m :: ps =>
    if isSource m && !stays read then keepBy stays (.hit m :: read) ps
    else .hit m :: keepBy stays (.hit m :: read) ps

/-- The text without the source marks whose sentence has no digit of its own. -/
def supported (content : Text) : List (Piece MarkGroup) :=
  keepBy (fun read => hasFigure (own read)) [] (marks content)

/-- The marks are judged by the digits of their sentence outside all marks, exactly the others go,
a second run finds nothing to take, and marks behind the same words go or stay together. -/
structure StripsExactly (content : Text) : Prop where
  exact : ∀ read ∈ sourceMarks [] (marks content), hasFigure (textOf read) = hasFigure (own read)
  rest : stripNonnumericSourceMarks content = render (supported content)
  stable : stripNonnumericSourceMarks (stripNonnumericSourceMarks content) =
    stripNonnumericSourceMarks content
  together : ∀ read ∈ sourceMarks [] (marks content), ∀ read' ∈ sourceMarks [] (marks content),
    own read = own read' → hasFigure (textOf read) = hasFigure (textOf read')

/-! When it is so. -/

/-- The mark that stands between a place and the nearest digit of its sentence. -/
def nearestMark : List (Piece MarkGroup) → Option (Match MarkGroup)
  | [] => none
  | .plain c :: read => if isBoundary c || isDigit c then none else nearestMark read
  | .hit m :: _ => some m

/-- The mark has a line break behind its last number. -/
def breaksOff (m : Match MarkGroup) : Bool := !hasFigure m.text.reverse

/-- The texts before the places where a source mark is read from a character outside the marks. -/
def seams (before : Text) : List (Piece MarkGroup) → List Text
  | [] => []
  | .plain c :: ps =>
    (if (sourceMarkRe.first [] (c :: render ps)).isSome then [before] else []) ++
      seams (c :: before) ps
  | .hit m :: ps => seams (m.text.reverse ++ before) ps

/-- A source mark that has another mark between itself and the nearest digit of its sentence has
such a digit, unless the other mark has a line break behind its numbers, and then it has none.
Where the going marks leave a new source mark, its sentence has a digit. -/
structure FiguresShow (content : Text) : Prop where
  nearest : ∀ read ∈ sourceMarks [] (marks content), ∀ m ∈ nearestMark read,
    hasFigure (own read) = !breaksOff m
  joined : ∀ before ∈ seams [] (supported content), hasFigure before

variable {ps qs read read' : List (Piece MarkGroup)} {m : Match MarkGroup} {m' : Match Unit}
  {k : Core} {c : Char} {before content rest sp t w z : Text}
  {stays stays' : List (Piece MarkGroup) → Bool}

/-! The digits of a sentence. -/

theorem hasFigure_append (w before : Text) : hasFigure (w ++ before) =
    (hasFigure w || (w.all (fun c => !isBoundary c) && hasFigure before)) := by
  induction w with
  | nil => simp [hasFigure, sentence]
  | cons c w ih =>
    by_cases hc : isBoundary c
    · simp [hasFigure, sentence, hc]
    · have hcons : ∀ t, hasFigure (c :: t) = (isDigit c || hasFigure t) := by
        intro t
        simp [hasFigure, sentence, hc]
      rw [List.cons_append, hcons, hcons, ih, Bool.or_assoc, List.all_cons]
      simp [hc]

theorem exists_digit (hk : k.Ok) : ∃ c ∈ k.text, isDigit c := by
  cases k with
  | source w₁ g w₂ =>
    obtain ⟨c, x, rfl, hc⟩ := numberList_head (accepts_numberList.1 hk.2.1)
    exact ⟨c, by simp [Core.text], hc⟩
  | quote g =>
    obtain ⟨c, x, rfl⟩ := List.exists_cons_of_ne_nil hk.1
    exact ⟨c, by simp [Core.text], hk.2 c (by simp)⟩

/-- A mark hides what stands before it: its own numbers are read first. -/
theorem hasFigure_mark (hk : k.Ok) (sp before : Text) :
    hasFigure ((mark sp k).text.reverse ++ before) = !breaksOff (mark sp k) := by
  rw [hasFigure_append, breaksOff, Bool.not_not]
  by_cases hall : (mark sp k).text.reverse.all fun c => !isBoundary c
  · obtain ⟨c, hc, hdigit⟩ := exists_digit hk
    have hfigure : hasFigure (mark sp k).text.reverse := by
      rw [hasFigure, sentence, List.takeWhile_eq_self_iff.mpr (by simpa [or_imp, forall_and] using hall)]
      exact List.any_eq_true.mpr ⟨c, by simp [hc], hdigit⟩
    rw [hfigure]
    rfl
  · rw [Bool.eq_false_of_not_eq_true hall]
    simp

@[simp] theorem textOf_plain (c : Char) : textOf (.plain c :: read) = c :: textOf read := rfl

@[simp] theorem textOf_hit (m : Match MarkGroup) :
    textOf (.hit m :: read) = m.text.reverse ++ textOf read := rfl

theorem hasFigure_textOf (hread : Proper read) : hasFigure (textOf read) =
    match nearestMark read with
    | some m => !breaksOff m
    | none => hasFigure (own read) := by
  induction read with
  | nil => rfl
  | cons p read ih =>
    cases p with
    | plain c =>
      have ih := ih (proper_tail hread)
      rw [textOf_plain, nearestMark, own]
      by_cases hb : isBoundary c
      · simp [hasFigure, sentence, hb]
      · by_cases hd : isDigit c
        · simp [hasFigure, sentence, hb, hd]
        · have hcons : ∀ t, hasFigure (c :: t) = hasFigure t := by
            intro t
            simp [hasFigure, sentence, hb, hd]
          simp only [hcons, hb, hd, Bool.or_self, Bool.false_eq_true, if_false]
          exact ih
    | hit m =>
      obtain ⟨sp, k, -, hk, rfl⟩ := hread m (by simp)
      rw [textOf_hit, hasFigure_mark hk, nearestMark]

/-! What the pattern reads. -/

theorem plain_sourceMarkRe : sourceMarkRe.Plain := by
  simp [sourceMarkRe, numberList, digits, spaces, lit, cat, chr, digit, Regex.space, hspace, plus,
    Plain]

theorem blind_sourceMarkRe : sourceMarkRe.Blind := by
  simp [sourceMarkRe, cat, numberList, digits, spaces, lit, chr, digit, Regex.space, hspace, plus,
    Blind]

theorem accepts_sourceMarkRe : sourceMarkRe.Accepts w ↔
    ∃ (sp : Text) (k : Core), (∀ c ∈ sp, isHSpace c) ∧ k.Ok ∧ k.isQuote = false ∧
      w = sp ++ k.text := by
  have hblanks : ∀ sp, Kleene (fun x => ∃ c, isHSpace c ∧ x = [c]) sp ↔ ∀ c ∈ sp, isHSpace c :=
    fun sp => accepts_star_cls (γ := Unit)
  simp only [sourceMarkRe, cat, Accepts, accepts_lit, accepts_chr, accepts_spaces, hspace,
    hblanks, accepts_numberList]
  constructor
  · rintro ⟨sp, _, hsp, ⟨_, _, rfl, ⟨w₁, _, h₁, ⟨g, _, hg, ⟨w₂, _, h₂, rfl, rfl⟩, rfl⟩, rfl⟩,
      rfl⟩, rfl⟩
    exact ⟨sp, .source w₁ g w₂, hsp, ⟨h₁, accepts_numberList.2 hg, h₂⟩, rfl, rfl⟩
  · rintro ⟨sp, k, hsp, hk, hq, rfl⟩
    cases k with
    | quote g => cases hq
    | source w₁ g w₂ =>
      obtain ⟨h₁, hg, h₂⟩ := hk
      exact ⟨sp, _, hsp, ⟨_, _, rfl, ⟨w₁, _, h₁, ⟨g, _, accepts_numberList.1 hg,
        ⟨w₂, _, h₂, rfl, rfl⟩, rfl⟩, rfl⟩, rfl⟩, rfl⟩

theorem first_sourceMarkRe : sourceMarkRe.first [] t = some (m', rest) ↔
    ∃ (sp : Text) (k : Core), (∀ c ∈ sp, isHSpace c) ∧ k.Ok ∧ k.isQuote = false ∧
      m' = ⟨sp ++ k.text, []⟩ ∧ t = m'.text ++ rest := by
  rw [first_plain plain_sourceMarkRe]
  · rw [accepts_sourceMarkRe]
    constructor
    · rintro ⟨⟨sp, k, hsp, hk, hq, hm⟩, hcaps, ht⟩
      obtain ⟨text, caps⟩ := m'
      exact ⟨sp, k, hsp, hk, hq, by simp_all, ht⟩
    · rintro ⟨sp, k, hsp, hk, hq, rfl, ht⟩
      exact ⟨⟨sp, k, hsp, hk, hq, rfl⟩, rfl, ht⟩
  · intro w w' v v' hw hw' h
    obtain ⟨sp, k, hsp, hk, -, rfl⟩ := accepts_sourceMarkRe.1 hw
    obtain ⟨sp', k', hsp', hk', -, rfl⟩ := accepts_sourceMarkRe.1 hw'
    obtain ⟨rfl, rfl, -⟩ := mark_unique hsp hsp' hk hk' (by simpa using h)
    rfl

/-- A mark shows its bracket behind its blanks. -/
theorem head?_mark (hsp : ∀ c ∈ sp, isHSpace c) (hk : k.Ok) (rest : Text) :
    ((sp ++ (k.text ++ rest)).dropWhile isHSpace).head? = some (if k.isQuote then '[' else '(') := by
  have hhead := core_head hk rest
  obtain ⟨o, x, e, hx, -⟩ := core_shape hk
  have ho : isHSpace o = false := by
    refine not_isHSpace_of_not_inside (not_inside_open (@core_head_open rest _ hk o ?_))
    simp [hx]
  rw [List.dropWhile_append_of_pos hsp, hx, List.cons_append, List.dropWhile_cons_of_neg (by simp [ho]),
    ← List.cons_append, ← hx]
  exact hhead

theorem head?_word (hw : ∃ c ∈ w, isHSpace c = false) (rest : Text) :
    ∃ d ∈ w, ((w ++ rest).dropWhile isHSpace).head? = some d := by
  obtain ⟨c, hc, hblank⟩ := hw
  have hne : w.dropWhile isHSpace ≠ [] := by
    intro hnil
    have hall := List.dropWhile_eq_nil_iff.mp hnil c hc
    simp [hblank] at hall
  obtain ⟨d, v, hv⟩ := List.exists_cons_of_ne_nil hne
  refine ⟨d, (List.dropWhile_suffix isHSpace).subset (by rw [hv]; exact List.mem_cons_self), ?_⟩
  rw [List.dropWhile_append, hv]
  rfl

/-- No mark begins in a word without its bracket that does not end in blanks. -/
theorem first_within (hw : '(' ∉ w) (hlast : ∃ c ∈ w, isHSpace c = false) (rest : Text) :
    sourceMarkRe.first [] (w ++ rest) = none := by
  by_contra hne
  obtain ⟨⟨m', rest'⟩, hm⟩ := Option.ne_none_iff_exists'.mp hne
  obtain ⟨sp, k, hsp, hk, hq, rfl, ht⟩ := first_sourceMarkRe.1 hm
  obtain ⟨d, hd, hword⟩ := head?_word hlast rest
  rw [ht, List.append_assoc, head?_mark hsp hk, hq] at hword
  obtain rfl : '(' = d := Option.some.inj hword
  exact hw hd

theorem pieces_word (hw : ∀ y z, w = y ++ z → z ≠ [] → sourceMarkRe.first [] (z ++ rest) = none) :
    sourceMarkRe.pieces (w ++ rest) = w.map .plain ++ sourceMarkRe.pieces rest := by
  have hfrom : ∀ x t, sourceMarkRe.piecesFrom x t = sourceMarkRe.pieces t :=
    fun x t => scan_blind blind_sourceMarkRe _ x t
  have h := piecesFrom_stretch (r := sourceMarkRe) (x := []) (w := w) (b := rest) fun y z hyz hz => by
    rw [first_blind blind_sourceMarkRe]
    exact hw y z hyz hz
  rwa [hfrom, hfrom] at h

/-- A quotation mark is passed over. -/
theorem first_quote {g : Text} (hsp : ∀ c ∈ sp, isHSpace c) (hg : ∀ c ∈ g, isDigit c)
    (h : sp ++ (Core.quote g).text = w ++ z) (hz : z ≠ []) :
    sourceMarkRe.first [] (z ++ rest) = none := by
  have hchars : ∀ c ∈ sp ++ (Core.quote g).text, c ≠ '(' := by
    intro c hc
    simp only [Core.text, List.mem_append, List.mem_cons, List.not_mem_nil, or_false] at hc
    rintro rfl
    rcases hc with hc | hc | hc | hc
    · exact absurd (hsp _ hc) (by decide)
    · cases hc
    · exact absurd (hg _ hc) (by decide)
    · cases hc
  refine first_within (fun hopen => hchars '(' (by simp [h, hopen]) rfl) ⟨']', ?_, by decide⟩ rest
  have hlast := congrArg List.getLast? h
  have hclose : (sp ++ (Core.quote g).text).getLast? = some ']' := by
    rw [Core.text, ← List.cons_append, ← List.append_assoc, List.getLast?_concat]
  rw [hclose, List.getLast?_append_of_ne_nil _ hz] at hlast
  exact List.mem_of_getLast? hlast.symm

theorem stripFrom_plain (w : Text) (ps : List (Piece Unit)) :
    stripFrom before (w.map .plain ++ ps) = w ++ stripFrom (w.reverse ++ before) ps := by
  induction w generalizing before with
  | nil => rfl
  | cons c w ih => simp [stripFrom, ih]

theorem isSource_mark (sp : Text) (k : Core) : isSource (mark sp k) = !k.isQuote := by
  cases k <;> rfl

/-- The loop goes through the marks of the text. -/
theorem stripFrom_pieces (hps : Tokens ps) (read : List (Piece MarkGroup)) :
    stripFrom (textOf read) (sourceMarkRe.pieces (render ps)) =
      render (keepBy (fun read => hasFigure (textOf read)) read ps) := by
  induction hps generalizing read with
  | nil => rfl
  | @plain c ps h hps ih =>
    have hnone : sourceMarkRe.first [] (c :: render ps) = none := by
      by_contra hne
      obtain ⟨⟨m', rest⟩, hm⟩ := Option.ne_none_iff_exists'.mp hne
      obtain ⟨sp, k, hsp, hk, hq, rfl, ht⟩ := first_sourceMarkRe.1 hm
      exact h sp k rest hsp hk (by simp [Fits, hq]) (by simpa using ht)
    rw [render_plain, pieces_plain blind_sourceMarkRe hnone, stripFrom, keepBy, render_plain]
    exact congrArg _ (ih (.plain c :: read))
  | @mark sp k ps hsp hk hf hps ih =>
    have ih := ih (.hit (mark sp k) :: read)
    rw [textOf_hit] at ih
    rw [render_hit, keepBy, isSource_mark]
    cases hq : k.isQuote with
    | false =>
      have hfirst : sourceMarkRe.first [] ((mark sp k).text ++ render ps) =
          some (⟨sp ++ k.text, []⟩, render ps) :=
        first_sourceMarkRe.2 ⟨sp, k, hsp, hk, hq, rfl, by simp⟩
      rw [pieces_hit blind_sourceMarkRe (by simp [core_text_ne_nil hk]) hfirst, stripFrom,
        ← mark_text, ih]
      cases hasFigure (textOf read) <;> simp
    | true =>
      cases k with
      | source => cases hq
      | quote g =>
        rw [pieces_word fun y z hyz hz => first_quote hsp hk.2 (by simpa using hyz) hz,
          stripFrom_plain, ih]
        simp

theorem strip_eq (content : Text) : stripNonnumericSourceMarks content =
    render (keepBy (fun read => hasFigure (textOf read)) [] (marks content)) := by
  have h := stripFrom_pieces (tokens_marks content) []
  rw [render_marks] at h
  exact h

theorem keepBy_congr (h : ∀ r ∈ sourceMarks read ps, stays r = stays' r) :
    keepBy stays read ps = keepBy stays' read ps := by
  induction ps generalizing read with
  | nil => rfl
  | cons p ps ih =>
    cases p with
    | plain c => rw [keepBy, keepBy, ih h]
    | hit m =>
      rw [sourceMarks] at h
      have hrest := ih fun r hr => h r (List.mem_append_right _ hr)
      rw [keepBy, keepBy, hrest]
      cases hm : isSource m with
      | false => simp
      | true => rw [h read (by simp [hm])]

/-! What the going marks leave. -/

/-- A blank outside the marks is not followed by a mark. -/
inductive Settled : List (Piece MarkGroup) → Prop
  | nil : Settled []
  | plain {c : Char} {ps : List (Piece MarkGroup)} (h : isHSpace c → ∀ m, ps.head? ≠ some (.hit m))
      (hps : Settled ps) : Settled (.plain c :: ps)
  | mark {sp : Text} {k : Core} {ps : List (Piece MarkGroup)} (hsp : ∀ c ∈ sp, isHSpace c) (hk : k.Ok)
      (hps : Settled ps) : Settled (.hit (mark sp k) :: ps)

theorem head?_keepBy (h : (keepBy stays read ps).head? = some (.hit m)) :
    ∃ m', ps.head? = some (.hit m') := by
  cases ps with
  | nil => cases h
  | cons p ps =>
    cases p with
    | plain c => cases h
    | hit m' => exact ⟨m', rfl⟩

theorem settled_keepBy (hps : Tokens ps) (read : List (Piece MarkGroup)) :
    Settled (keepBy stays read ps) := by
  induction hps generalizing read with
  | nil => exact .nil
  | @plain c ps h hps ih =>
    refine .plain (fun hc m hm => ?_) (ih _)
    obtain ⟨m', hm'⟩ := head?_keepBy hm
    cases hps with
    | nil => cases hm'
    | plain => cases hm'
    | @mark sp k ps hsp hk hf hps =>
      refine h (c :: sp) k (render ps) (List.forall_mem_cons.mpr ⟨hc, hsp⟩) hk hf ?_
      simp
  | mark hsp hk hf hps ih =>
    rw [keepBy]
    split
    · exact ih _
    · exact .mark hsp hk (ih _)

/-- A word without brackets that does not end in blanks is read from characters outside marks. -/
theorem exists_plain (hqs : Settled qs) (hw : ∀ c ∈ w, c ≠ '(' ∧ c ≠ '[')
    (hlast : ∀ c ∈ w.getLast?, isHSpace c = false) (h : render qs = w ++ rest) :
    ∃ qs', qs = w.map .plain ++ qs' ∧ render qs' = rest ∧ Settled qs' := by
  induction w generalizing qs with
  | nil => exact ⟨qs, rfl, h, hqs⟩
  | cons c w ih =>
    obtain ⟨hc, hrest⟩ := List.forall_mem_cons.mp hw
    cases hqs with
    | nil => cases h
    | @plain d ps hd hps =>
      obtain ⟨rfl, htail⟩ := List.cons.inj h
      have hlast : ∀ c ∈ w.getLast?, isHSpace c = false := by
        intro e he
        cases w with
        | nil => cases he
        | cons b w => exact hlast e (by rwa [List.getLast?_cons_cons])
      obtain ⟨qs', rfl, hqs', hsettled⟩ := ih hps hrest hlast htail
      exact ⟨qs', rfl, hqs', hsettled⟩
    | @mark sp k ps hsp hk hps =>
      have hne : (c :: w).getLast (List.cons_ne_nil c w) ∈ (c :: w).getLast? :=
        List.getLast?_eq_some_getLast _
      obtain ⟨d, hd, hword⟩ := head?_word ⟨_, List.getLast_mem _, hlast _ hne⟩ rest
      rw [← h, render_hit, mark_text, List.append_assoc, head?_mark hsp hk] at hword
      have hopen := hw d hd
      cases hq : k.isQuote with
      | false =>
        rw [hq] at hword
        exact absurd (Option.some.inj hword).symm hopen.1
      | true =>
        rw [hq] at hword
        exact absurd (Option.some.inj hword).symm hopen.2

/-- A source mark read from a character outside the marks has nothing of a mark in it. -/
theorem exists_joined (hqs : Settled (.plain c :: qs))
    (hm : sourceMarkRe.first [] (c :: render qs) = some (m', rest)) :
    ∃ qs', .plain c :: qs = m'.text.map .plain ++ qs' ∧ render qs' = rest ∧ Settled qs' := by
  obtain ⟨sp, k, hsp, hk, hq, rfl, ht⟩ := first_sourceMarkRe.1 hm
  obtain ⟨o, x, e, hx, ho, he, hinside⟩ := core_shape hk
  rw [hq] at ho
  obtain rfl : o = '(' := ho
  dsimp only at ht ⊢
  rw [hx] at ht ⊢
  clear hm
  induction sp generalizing c qs with
  | nil =>
    cases hqs with
    | plain _ hqs =>
      obtain ⟨rfl, htail⟩ := List.cons.inj ht
      have hw : ∀ c ∈ x ++ [e], c ≠ '(' ∧ c ≠ '[' := by
        intro c hc
        constructor
        · rintro rfl
          exact not_inside_open (.inl rfl) (hinside _ hc)
        · rintro rfl
          exact not_inside_open (.inr rfl) (hinside _ hc)
      have hlast : ∀ c ∈ (x ++ [e]).getLast?, isHSpace c = false := by
        intro c hc
        rw [List.getLast?_concat] at hc
        obtain rfl := Option.some.inj hc
        simp [isHSpace, he]
      obtain ⟨qs', rfl, hqs', hsettled⟩ := exists_plain hqs hw hlast htail
      exact ⟨qs', rfl, hqs', hsettled⟩
  | cons b sp ih =>
    obtain ⟨hb, hblanks⟩ := List.forall_mem_cons.mp hsp
    obtain ⟨rfl, htail⟩ := List.cons.inj ht
    cases hqs with
    | plain hnext hqs =>
      cases hqs with
      | nil => simp at htail
      | mark => exact absurd rfl (hnext hb _)
      | @plain d ps hd hps =>
        obtain ⟨qs', hqs', hrest, hsettled⟩ := ih (.plain hd hps) hblanks htail
        exact ⟨qs', congrArg (List.cons _) hqs', hrest, hsettled⟩

theorem hasFigure_blank (hsp : ∀ c ∈ sp, isHSpace c) (before : Text) :
    hasFigure (sp.reverse ++ before) = hasFigure before := by
  have hno : ∀ c ∈ sp.reverse, isDigit c = false ∧ isBoundary c = false := by
    intro c hc
    have hblank := hsp c (List.mem_reverse.mp hc)
    have hspace := isSpace_of_isHSpace hblank
    refine ⟨not_isDigit_of_isSpace hspace, ?_⟩
    by_contra hb
    have hall : ∀ c ∈ "。.!?\n".toList, isHSpace c = false := by decide
    have hmem : isBoundary c := by simpa using hb
    have hno := hall c (List.contains_iff_mem.mp hmem)
    simp [hblank] at hno
  have hfigure : hasFigure sp.reverse = false := by
    rw [hasFigure, List.any_eq_false]
    intro c hc
    simp [(hno c ((List.takeWhile_prefix _).subset hc)).1]
  have hall : sp.reverse.all (fun c => !isBoundary c) = true := by
    rw [List.all_eq_true]
    intro c hc
    simp [(hno c hc).2]
  rw [hasFigure_append, hfigure, hall]
  simp

theorem seams_plain (w : Text) (qs : List (Piece MarkGroup)) {b : Text}
    (h : b ∈ seams before (w.map .plain ++ qs)) : b ∈ seams (w.reverse ++ before) qs ∨
      ∃ u z, w = u ++ z ∧ z ≠ [] ∧ b = u.reverse ++ before ∧
        sourceMarkRe.first [] (z ++ render qs) ≠ none := by
  induction w generalizing before with
  | nil => exact .inl h
  | cons c w ih =>
    rw [List.map_cons, List.cons_append, seams, List.mem_append] at h
    rcases h with h | h
    · split at h
      · rename_i hsome
        obtain rfl := List.mem_singleton.mp h
        refine .inr ⟨[], c :: w, rfl, List.cons_ne_nil c w, rfl, ?_⟩
        rw [render_append, render_map_plain] at hsome
        exact Option.isSome_iff_ne_none.mp hsome
      · cases h
    · rcases ih h with h | ⟨u, z, rfl, hz, rfl, hfirst⟩
      · left
        simpa using h
      · exact .inr ⟨c :: u, z, rfl, hz, by simp, hfirst⟩

theorem subset_seams_plain (w : Text) (qs : List (Piece MarkGroup)) {b : Text}
    (h : b ∈ seams (w.reverse ++ before) qs) : b ∈ seams before (w.map .plain ++ qs) := by
  induction w generalizing before with
  | nil => exact h
  | cons c w ih =>
    rw [List.map_cons, List.cons_append, seams, List.mem_append]
    exact .inr (ih (by simpa using h))

/-- All places in one mark ask for the digits of one sentence. -/
theorem seams_mark (hsp : ∀ c ∈ sp, isHSpace c) (hk : k.Ok) (hq : k.isQuote = false)
    (qs : List (Piece MarkGroup)) {b : Text}
    (h : b ∈ seams before ((sp ++ k.text).map .plain ++ qs)) :
    b ∈ seams ((sp ++ k.text).reverse ++ before) qs ∨ hasFigure b = hasFigure before := by
  obtain ⟨o, x, e, hx, ho, he, hinside⟩ := core_shape hk
  rw [hq] at ho
  obtain rfl : o = '(' := ho
  rcases seams_plain _ _ h with h | ⟨u, z, huz, hz, rfl, hfirst⟩
  · exact .inl h
  · right
    rw [hx] at huz
    rcases List.append_eq_append_iff.mp huz with ⟨a, rfl, ha⟩ | ⟨a, hsp', rfl⟩
    · rcases List.append_eq_cons_iff.mp ha.symm with ⟨rfl, rfl⟩ | ⟨a', rfl, ha'⟩
      · rw [List.append_nil]
        exact hasFigure_blank hsp before
      · refine absurd (first_within ?_ ⟨e, ?_, ?_⟩ (render qs)) hfirst
        · intro hopen
          exact not_inside_open (.inl rfl) (hinside _ (by rw [ha']; exact List.mem_append_right _ hopen))
        · have hlast := congrArg List.getLast? ha'
          rw [List.getLast?_concat, List.getLast?_append_of_ne_nil _ hz] at hlast
          exact List.mem_of_getLast? hlast.symm
        · simp [isHSpace, he]
    · refine hasFigure_blank (fun c hc => hsp c ?_) before
      rw [hsp']
      exact List.mem_append_left _ hc

theorem length_stripFrom (before : Text) (ps : List (Piece Unit)) :
    (stripFrom before ps).length ≤ (render ps).length := by
  induction ps generalizing before with
  | nil => exact le_rfl
  | cons p ps ih =>
    cases p with
    | plain c =>
      rw [stripFrom, render_plain, List.length_cons, List.length_cons]
      exact Nat.succ_le_succ (ih _)
    | hit m =>
      rw [stripFrom, render_hit, List.length_append, List.length_append]
      refine Nat.add_le_add ?_ (ih _)
      split <;> simp

theorem sourceMarks_plain (w : Text) (qs : List (Piece MarkGroup)) :
    sourceMarks read (w.map .plain ++ qs) = sourceMarks ((w.reverse.map .plain) ++ read) qs := by
  induction w generalizing read with
  | nil => rfl
  | cons c w ih => simp [sourceMarks, ih]

theorem textOf_append_plain (w : Text) (read : List (Piece MarkGroup)) :
    textOf (w.map .plain ++ read) = w ++ textOf read := by
  induction w with
  | nil => rfl
  | cons c w ih => simp [ih]

/-- Where every mark has a figure, nothing goes exactly when no mark is joined without one. -/
theorem stripFrom_settled (hqs : Settled qs) (read : List (Piece MarkGroup))
    (hfigure : ∀ r ∈ sourceMarks read qs, hasFigure (textOf r)) :
    stripFrom (textOf read) (sourceMarkRe.pieces (render qs)) = render qs ↔
      ∀ b ∈ seams (textOf read) qs, hasFigure b := by
  induction hn : qs.length using Nat.strongRecOn generalizing qs read with
  | _ n ih =>
    cases hqs with
    | nil => simp [seams, Regex.pieces, scan, stripFrom, render]
    | @plain c ps hnext hps =>
      cases hfirst : sourceMarkRe.first [] (c :: render ps) with
      | none =>
        have ih := ih ps.length (by simp at hn; omega) hps (.plain c :: read) hfigure rfl
        rw [textOf_plain] at ih
        rw [render_plain, pieces_plain blind_sourceMarkRe hfirst, stripFrom, seams, hfirst]
        simpa using ih
      | some found =>
        obtain ⟨m', rest⟩ := found
        obtain ⟨sp, k, hsp, hk, hq, rfl, ht⟩ := first_sourceMarkRe.1 hfirst
        obtain ⟨qs', hqs', rfl, hsettled⟩ := exists_joined (.plain hnext hps) hfirst
        dsimp only at hqs' ht
        have hne : sp ++ k.text ≠ [] := by simp [core_text_ne_nil hk]
        have hlen := congrArg List.length hqs'
        have hpos := List.length_pos_of_ne_nil hne
        simp only [List.length_cons, List.length_append, List.length_map] at hlen hpos hn
        have hfigure' := hfigure
        rw [hqs', sourceMarks_plain] at hfigure'
        have ih := ih qs'.length (by omega) hsettled _ hfigure' rfl
        rw [textOf_append_plain] at ih
        have hbefore : textOf read ∈ seams (textOf read) (.plain c :: ps) := by
          rw [seams, hfirst]
          simp
        rw [hqs'] at hbefore ⊢
        rw [render_append, render_map_plain, pieces_hit blind_sourceMarkRe hne
          (first_sourceMarkRe.2 ⟨sp, k, hsp, hk, hq, rfl, rfl⟩), stripFrom]
        constructor
        · intro h
          have hread : hasFigure (textOf read) := by
            by_contra hno
            have hle := length_stripFrom ((sp ++ k.text).reverse ++ textOf read)
              (sourceMarkRe.pieces (render qs'))
            have hlen := congrArg List.length h
            rw [render_pieces] at hle
            simp only [hno, if_false, List.nil_append, List.length_append] at hlen hle
            omega
          rw [if_pos hread] at h
          have hrest := ih.mp (List.append_cancel_left h)
          intro b hb
          rcases seams_mark hsp hk hq qs' hb with hb | hb
          · exact hrest b hb
          · rw [hb, hread]
        · intro h
          rw [if_pos (h _ hbefore), ih.mpr fun b hb => h b (subset_seams_plain _ _ hb)]
    | @mark sp k ps hsp hk hps =>
      have hrest : ∀ r ∈ sourceMarks (.hit (mark sp k) :: read) ps, hasFigure (textOf r) :=
        fun r hr => hfigure r (List.mem_append_right _ hr)
      have ih := ih ps.length (by simp at hn; omega) hps _ hrest rfl
      rw [textOf_hit] at ih
      rw [render_hit, seams]
      cases hq : k.isQuote with
      | false =>
        have hread := hfigure read (by simp [sourceMarks, isSource_mark, hq])
        have hfirst : sourceMarkRe.first [] ((mark sp k).text ++ render ps) =
            some (⟨sp ++ k.text, []⟩, render ps) :=
          first_sourceMarkRe.2 ⟨sp, k, hsp, hk, hq, rfl, by simp⟩
        rw [pieces_hit blind_sourceMarkRe (by simp [core_text_ne_nil hk]) hfirst, stripFrom,
          if_pos hread, ← mark_text, List.append_right_inj]
        exact ih
      | true =>
        cases k with
        | source => cases hq
        | quote g =>
          rw [pieces_word fun y z hyz hz => first_quote hsp hk.2 (by simpa using hyz) hz,
            stripFrom_plain, List.append_right_inj]
          exact ih

/-! A mark that stays sees the same sentence as before. -/

/-- The pieces left of those read: the same words, and under a sentence with digits of its own the
same nearest mark. -/
structure Leaves (read read' : List (Piece MarkGroup)) : Prop where
  words : own read' = own read
  nearest : hasFigure (own read) → nearestMark read' = nearestMark read

theorem Leaves.plain (h : Leaves read read') (c : Char) :
    Leaves (.plain c :: read) (.plain c :: read') := by
  refine ⟨congrArg (List.cons c) h.words, fun hfigure => ?_⟩
  rw [nearestMark, nearestMark]
  by_cases hstop : isBoundary c || isDigit c
  · rw [if_pos hstop, if_pos hstop]
  · rw [if_neg hstop, if_neg hstop]
    refine h.nearest ?_
    simp only [Bool.or_eq_true, not_or, Bool.not_eq_true] at hstop
    simpa [own, hasFigure, sentence, hstop.1, hstop.2] using hfigure

theorem figures_supported (hps : Proper ps) (hread : Proper read') (h : Leaves read read')
    (hnearest : ∀ r ∈ sourceMarks read ps, ∀ m ∈ nearestMark r, hasFigure (own r) = !breaksOff m) :
    ∀ r ∈ sourceMarks read' (keepBy (fun r => hasFigure (own r)) read ps), hasFigure (textOf r) := by
  induction ps generalizing read read' with
  | nil => simp [keepBy, sourceMarks]
  | cons p ps ih =>
    cases p with
    | plain c =>
      refine ih (proper_tail hps) ?_ (h.plain c) hnearest
      intro m hm
      exact hread m (by simpa using hm)
    | hit m =>
      have hrest := fun r hr => hnearest r (List.mem_append_right _ hr)
      have hproper : Proper (.hit m :: read') := by
        intro m' hm'
        rcases List.mem_cons.mp hm' with hm' | hm'
        · exact hps m' (by simp [hm'])
        · exact hread m' hm'
      rw [keepBy]
      split
      · rename_i hgoes
        simp only [Bool.and_eq_true, Bool.not_eq_true'] at hgoes
        refine ih (proper_tail hps) hread ⟨h.words, fun hfigure => ?_⟩ hrest
        rw [own, hgoes.2] at hfigure
        cases hfigure
      · rename_i hstays
        rw [sourceMarks]
        intro r hr
        rcases List.mem_append.mp hr with hr | hr
        · by_cases hm : isSource m
          · rw [if_pos hm] at hr
            obtain rfl := List.mem_singleton.mp hr
            have hfigure : hasFigure (own read) := by simpa [hm] using hstays
            rw [hasFigure_textOf hread, h.nearest hfigure, h.words]
            cases hmark : nearestMark read with
            | none => exact hfigure
            | some m' =>
              exact (hnearest read (by simp [sourceMarks, hm]) m' hmark).symm.trans hfigure
          · rw [if_neg hm] at hr
            cases hr
        · have hleaves : Leaves (.hit m :: read) (.hit m :: read') := ⟨h.words, fun _ => rfl⟩
          exact ih (proper_tail hps) hproper hleaves hrest r hr

theorem proper_sourceMarks (hps : Proper ps) (hread : Proper read) :
    ∀ r ∈ sourceMarks read ps, Proper r := by
  induction ps generalizing read with
  | nil => simp [sourceMarks]
  | cons p ps ih =>
    have hproper : Proper (p :: read) := by
      intro m hm
      rcases List.mem_cons.mp hm with hm | hm
      · exact hps m (by simp [hm])
      · exact hread m hm
    cases p with
    | plain c => exact ih (proper_tail hps) hproper
    | hit m =>
      intro r hr
      rcases List.mem_append.mp hr with hr | hr
      · split at hr
        · obtain rfl := List.mem_singleton.mp hr
          exact hread
        · cases hr
      · exact ih (proper_tail hps) hproper r hr

/-- The marks are judged by the digits of their own sentence exactly when the marks between are. -/
theorem exact_iff (content : Text) :
    (∀ read ∈ sourceMarks [] (marks content), hasFigure (textOf read) = hasFigure (own read)) ↔
      ∀ read ∈ sourceMarks [] (marks content), ∀ m ∈ nearestMark read,
        hasFigure (own read) = !breaksOff m := by
  have hnone : Proper ([] : List (Piece MarkGroup)) := fun m hm => by cases hm
  have hproper := proper_sourceMarks (proper_tokens (tokens_marks content)) hnone
  refine forall₂_congr fun read hread => ?_
  rw [hasFigure_textOf (hproper read hread)]
  cases nearestMark read with
  | none => simp
  | some m =>
    constructor
    · intro h m' hm'
      obtain rfl := Option.some.inj hm'
      exact h.symm
    · intro h
      exact (h m rfl).symm

theorem stripsExactly_iff (content : Text) : StripsExactly content ↔ FiguresShow content := by
  have hsettled : Settled (supported content) := settled_keepBy (tokens_marks content) []
  have hrest : (∀ read ∈ sourceMarks [] (marks content),
      hasFigure (textOf read) = hasFigure (own read)) →
      stripNonnumericSourceMarks content = render (supported content) := by
    intro h
    rw [strip_eq, keepBy_congr h]
    rfl
  have hstable : (∀ read ∈ sourceMarks [] (marks content), ∀ m ∈ nearestMark read,
      hasFigure (own read) = !breaksOff m) →
      (stripNonnumericSourceMarks (render (supported content)) = render (supported content) ↔
        ∀ before ∈ seams [] (supported content), hasFigure before) := by
    intro h
    exact stripFrom_settled hsettled [] (figures_supported (proper_tokens (tokens_marks content))
      (fun m hm => by cases hm) ⟨rfl, fun _ => rfl⟩ h)
  constructor
  · rintro ⟨hexact, hout, htwice, -⟩
    have hnearest := (exact_iff content).mp hexact
    rw [hout] at htwice
    exact ⟨hnearest, (hstable hnearest).mp htwice⟩
  · rintro ⟨hnearest, hjoined⟩
    have hexact := (exact_iff content).mpr hnearest
    refine ⟨hexact, hrest hexact, ?_, fun read hread read' hread' heq => ?_⟩
    · rw [hrest hexact]
      exact (hstable hnearest).mpr hjoined
    · rw [hexact read hread, hexact read' hread', heq]

/-- The number of the first mark counts as a figure for the second. -/
theorem second_mark_stays : ¬ ∀ content, StripsExactly content := by
  intro h
  have hrest := (h "규제 강화(출처 1)(출처 2)".toList).rest
  revert hrest
  decide

end RownRg.SourceMarks

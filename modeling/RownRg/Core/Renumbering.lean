import RownRg.Core.Marks

/-! What `renumber` does to the marks of a text. -/

open PyText Regex

namespace RownRg.Citations

variable {sp t u v w g rest : Text} {k k' : Core} {c : Char} {m : Match MarkGroup}
  {f f₁ f₂ : Nat → Option Nat} {n : Nat} {ns : List Nat} {ps qs : List (Piece MarkGroup)}

/-! Writing a number list and reading it back. -/

theorem not_isSpace_of_isDigit (h : isDigit c) : isSpace c = false := by
  by_contra hs
  simp [not_isDigit_of_isSpace (by simpa using hs)] at h

theorem blind_numSplitRe : numSplitRe.Blind := by
  simp [numSplitRe, cat, spaces, chr, Regex.space, Blind]

theorem mem_numSplitRe {q : Regex.Pos Unit} {before after : Text} (h : isDigit c) :
    q ∉ numSplitRe.run ⟨before, c :: after, []⟩ := by
  simp only [numSplitRe, cat]
  rw [mem_run_seq_plain (by trivial)]
  rintro ⟨w, v, hw, hwv, hq⟩
  rw [mem_run_seq_plain (by trivial)] at hq
  obtain ⟨_, y, hc, rfl, -⟩ := hq
  obtain rfl := accepts_chr.1 hc
  have hall := accepts_star_cls.1 hw
  cases w with
  | nil =>
    obtain ⟨rfl, -⟩ := List.cons.inj hwv
    exact absurd h (by decide)
  | cons d w =>
    obtain ⟨rfl, -⟩ := List.cons.inj hwv
    simp [not_isDigit_of_isSpace (hall c (by simp))] at h

theorem numSplitRe_digit (h : isDigit c) : numSplitRe.first [] (c :: t) = none := by
  simp only [first, Option.map_eq_none_iff, List.head?_eq_none_iff]
  exact List.eq_nil_iff_forall_not_mem.mpr fun q => mem_numSplitRe h

theorem numSplitRe_comma (h : isDigit c) :
    numSplitRe.first [] (", ".toList ++ c :: t) = some (⟨", ".toList, []⟩, c :: t) := by
  have hblank : List.takeWhile isSpace (' ' :: c :: t) = [' '] := by
    rw [List.takeWhile_cons_of_pos (by decide),
      List.takeWhile_cons_of_neg (by simp [not_isSpace_of_isDigit h])]
  obtain ⟨l, hl⟩ := run_star_cls isSpace (⟨[], ',' :: ' ' :: c :: t, []⟩ : Regex.Pos Unit)
  obtain ⟨l', hl'⟩ := run_star_cls isSpace (⟨[','], ' ' :: c :: t, []⟩ : Regex.Pos Unit)
  rw [List.takeWhile_cons_of_neg (by decide), skip_nil] at hl
  rw [hblank] at hl'
  have hhead : (numSplitRe.run ⟨[], ',' :: ' ' :: c :: t, []⟩).head? =
      some ⟨[' ', ','], c :: t, []⟩ :=
    head?_run_seq hl (head?_run_seq (a := chr ',') (l := []) rfl (congrArg List.head? hl'))
  show Option.map _ (numSplitRe.run ⟨[], ',' :: ' ' :: c :: t, []⟩).head? = _
  rw [hhead]
  simp [Pos.since]

theorem ofNat_head (n : Nat) : ∃ c x, ofNat n = c :: x ∧ isDigit c := by
  obtain ⟨c, x, hx⟩ := List.exists_cons_of_ne_nil (ofNat_ne_nil (n := n))
  exact ⟨c, x, hx, isDigit_of_mem_ofNat (n := n) (by simp [hx])⟩

theorem joinWith_head (n : Nat) (ns : List Nat) :
    ∃ c x, joinWith ", ".toList ((n :: ns).map ofNat) = c :: x ∧ isDigit c := by
  obtain ⟨c, x, hx, hc⟩ := ofNat_head n
  cases ns with
  | nil => exact ⟨c, x, by simpa [joinWith] using hx, hc⟩
  | cons => exact ⟨c, _, by simp [joinWith, hx]; rfl, hc⟩

theorem joinWith_cons (n m : Nat) (ns : List Nat) :
    joinWith ", ".toList ((n :: m :: ns).map ofNat) =
      ofNat n ++ (", ".toList ++ joinWith ", ".toList ((m :: ns).map ofNat)) := by
  simp [joinWith]

theorem numSplitRe_ofNat (n : Nat) (v : Text) :
    numSplitRe.pieces (ofNat n ++ v) = (ofNat n).map .plain ++ numSplitRe.pieces v :=
  pieces_append_plain blind_numSplitRe fun _ hc _ =>
    numSplitRe_digit (isDigit_of_mem_ofNat hc)

theorem split_join (n : Nat) (ns : List Nat) :
    numSplitRe.split (joinWith ", ".toList ((n :: ns).map ofNat)) = (n :: ns).map ofNat := by
  induction ns generalizing n with
  | nil =>
    have h := numSplitRe_ofNat n []
    rw [List.append_nil, pieces_nil, List.append_nil] at h
    simp [split, joinWith, h, gaps_map_plain_nil]
  | cons m ns ih =>
    obtain ⟨c, x, hx, hc⟩ := joinWith_head m ns
    have hhit := pieces_hit blind_numSplitRe (by simp) (numSplitRe_comma (t := x) hc)
    rw [joinWith_cons, split, numSplitRe_ofNat, hx, hhit, gaps_map_plain, ← hx]
    exact congrArg _ (ih m)

theorem joinWith_eq (n : Nat) (ns : List Nat) :
    joinWith ", ".toList ((n :: ns).map ofNat) =
      ofNat n ++ ns.flatMap fun m => ", ".toList ++ ofNat m := by
  induction ns generalizing n with
  | nil => simp [joinWith]
  | cons m ns ih => rw [joinWith_cons, ih, List.flatMap_cons, List.append_assoc]

theorem numberList_append (hg : NumberList g) (ns : List Nat) :
    NumberList (g ++ ns.flatMap fun m => ", ".toList ++ ofNat m) := by
  induction ns generalizing g with
  | nil => simpa using hg
  | cons m ns ih =>
    have hspace : ∀ c ∈ [' '], isSpace c := List.forall_mem_singleton.mpr (by decide)
    have h := @NumberList.more g [] [' '] (ofNat m) hg (by simp) hspace ofNat_ne_nil
      fun c hc => isDigit_of_mem_ofNat hc
    simpa using ih h

theorem numberList_join (n : Nat) (ns : List Nat) :
    NumberList (joinWith ", ".toList ((n :: ns).map ofNat)) := by
  rw [joinWith_eq]
  exact numberList_append (.one ofNat_ne_nil fun c hc => isDigit_of_mem_ofNat hc) ns

/-! `renumber`, piece by piece. -/

/-- A core of the given kind with the given numbers. -/
def written (quote : Bool) (ns : List Nat) : Core :=
  if quote then .quote (ofNat (ns.headD 0))
  else .source [' '] (joinWith ", ".toList (ns.map ofNat)) []

def renumberMatch (f : Nat → Option Nat) (m : Match MarkGroup) : Option (Match MarkGroup) :=
  match ((markNumbers m).filterMap f).eraseDups with
  | [] => none
  | g :: gs => some (mark ((m.group .space).getD []) (written (m.group .source).isNone (g :: gs)))

def renumberPiece (f : Nat → Option Nat) : Piece MarkGroup → Option (Piece MarkGroup)
  | .plain c => some (.plain c)
  | .hit m => (renumberMatch f m).map .hit

theorem written_ok (q : Bool) (n : Nat) (ns : List Nat) : (written q (n :: ns)).Ok := by
  cases q with
  | true => exact ⟨ofNat_ne_nil, fun c hc => isDigit_of_mem_ofNat hc⟩
  | false =>
    have hspace : ∀ c ∈ [' '], isSpace c := List.forall_mem_singleton.mpr (by decide)
    exact ⟨hspace, accepts_numberList.2 (numberList_join n ns), by simp⟩

@[simp] theorem written_isQuote (q : Bool) (ns : List Nat) : (written q ns).isQuote = q := by
  cases q <;> rfl

@[simp] theorem mark_source_isNone : ((mark sp k).group .source).isNone = k.isQuote := by
  cases k <;> rfl

theorem numbers_written_source (n : Nat) (ns : List Nat) :
    markNumbers (mark sp (written false (n :: ns))) = n :: ns := by
  have h := congrArg (List.map natOf) (split_join n ns)
  simpa [markNumbers, written, List.map_map, Function.comp_def, natOf_ofNat] using h

theorem numbers_written_quote (n : Nat) (ns : List Nat) :
    markNumbers (mark sp (written true (n :: ns))) = [n] := by
  simp [markNumbers, written, natOf_ofNat]

theorem renumberMark_eq (f : Nat → Option Nat) (m : Match MarkGroup) :
    renumberMark f m = render (((renumberMatch f m).map .hit).toList) := by
  cases h : ((markNumbers m).filterMap f).eraseDups with
  | nil => simp [renumberMark, renumberMatch, h]
  | cons g gs =>
    cases hs : m.group .source <;> simp [renumberMark, renumberMatch, h, hs, written, Core.text]

theorem renumber_eq (f : Nat → Option Nat) (t : Text) :
    renumber t f = render ((marks t).filterMap (renumberPiece f)) := by
  unfold renumber sub marks
  induction markRe.pieces t with
  | nil => rfl
  | cons p ps ih =>
    rw [List.flatMap_cons, ih]
    cases p with
    | plain c => rfl
    | hit m =>
      rw [Piece.rewrite, renumberMark_eq, List.filterMap_cons]
      cases h : renumberMatch f m <;> simp [renumberPiece, h]

/-- Every match is a mark. -/
def Proper (ps : List (Piece MarkGroup)) : Prop :=
  ∀ m, .hit m ∈ ps → ∃ sp k, (∀ c ∈ sp, isHSpace c) ∧ k.Ok ∧ m = mark sp k

theorem proper_tokens (h : Tokens ps) : Proper ps := by
  induction h with
  | nil => simp [Proper]
  | plain _ _ ih => exact fun m hm => ih m (by simpa using hm)
  | mark hsp hk _ _ ih =>
    intro m hm
    rcases List.mem_cons.mp hm with hm | hm
    · obtain rfl := Piece.hit.inj hm
      exact ⟨_, _, hsp, hk, rfl⟩
    · exact ih m hm

theorem proper_tail {p : Piece MarkGroup} (h : Proper (p :: ps)) : Proper ps :=
  fun m hm => h m (by simp [hm])

def numbersOf (ps : List (Piece MarkGroup)) : List Nat := (hits ps).flatMap markNumbers

theorem numbersInOrder_eq (t : Text) : numbersInOrder t = (numbersOf (marks t)).eraseDups := rfl

@[simp] theorem numbersOf_nil : numbersOf [] = [] := rfl

@[simp] theorem numbersOf_plain (c : Char) : numbersOf (.plain c :: ps) = numbersOf ps := rfl

@[simp] theorem numbersOf_hit : numbersOf (.hit m :: ps) = markNumbers m ++ numbersOf ps := rfl

theorem markNumbers_quote (sp : Text) (h : k.isQuote) : ∃ n, markNumbers (mark sp k) = [n] := by
  cases k with
  | source => simp [Core.isQuote] at h
  | quote g => exact ⟨_, rfl⟩

theorem renumberMatch_none (h : (markNumbers m).filterMap f = []) : renumberMatch f m = none := by
  simp [renumberMatch, h]

theorem renumberMatch_some {g : Nat} {gs : List Nat}
    (h : ((markNumbers (mark sp k)).filterMap f).eraseDups = g :: gs) :
    renumberMatch f (mark sp k) = some (mark sp (written k.isQuote (g :: gs))) := by
  simp [renumberMatch, h]

/-- A text with a mark has a character that is no blank. -/
theorem exists_not_isSpace (hn : n ∈ numbersInOrder t) : ∃ c ∈ t, isSpace c = false := by
  rw [numbersInOrder_eq, List.mem_eraseDups, numbersOf, List.mem_flatMap] at hn
  obtain ⟨m, hm, -⟩ := hn
  have hhit : Piece.hit m ∈ marks t := by
    obtain ⟨p, hp, hpm⟩ := List.mem_filterMap.mp hm
    cases p <;> simp_all [Piece.match?]
  obtain ⟨sp, k, -, hk, rfl⟩ := proper_tokens (tokens_marks t) m hhit
  obtain ⟨o, x, e, hx, ho, -⟩ := core_shape hk
  refine ⟨o, ?_, ?_⟩
  · rw [← render_marks t, render, List.mem_flatMap]
    exact ⟨_, hhit, by simp [Piece.text, hx]⟩
  · rw [ho]
    split <;> decide

/-- The numbers a mark is left with. -/
theorem numbers_renumberMatch (hm : m = mark sp k) :
    FirstSeen.Same (numbersOf ((renumberMatch f m).map Piece.hit).toList)
      ((markNumbers m).filterMap f) := by
  subst hm
  cases h : ((markNumbers (mark sp k)).filterMap f).eraseDups with
  | nil =>
    have hnil := FirstSeen.eq_nil h
    rw [renumberMatch_none hnil, hnil]
    rfl
  | cons n ns =>
    rw [renumberMatch_some h]
    cases hq : k.isQuote with
    | false =>
      have hnumbers : numbersOf [.hit (mark sp (written false (n :: ns)))] = n :: ns := by
        simp [numbers_written_source]
      rw [Option.map_some, Option.toList_some, hnumbers, ← h]
      exact FirstSeen.same_eraseDups _
    | true =>
      obtain ⟨a, ha⟩ := markNumbers_quote sp hq
      have hn : (markNumbers (mark sp k)).filterMap f = [n] := by
        rw [ha] at h ⊢
        cases hf : f a <;> simp_all [List.eraseDups_cons]
      rw [Option.map_some, Option.toList_some, hn]
      simp [numbers_written_quote, FirstSeen.Same]

theorem numbers_renumber (hps : Proper ps) :
    FirstSeen.Same (numbersOf (ps.filterMap (renumberPiece f))) ((numbersOf ps).filterMap f) := by
  induction ps with
  | nil => rfl
  | cons p ps ih =>
    have ih := ih (proper_tail hps)
    cases p with
    | plain c => exact ih
    | hit m =>
      obtain ⟨sp, k, -, -, hm⟩ := hps m (by simp)
      have hhead := (numbers_renumberMatch (f := f) hm).append ih
      rw [numbersOf_hit, List.filterMap_append, List.filterMap_cons]
      cases h : renumberMatch f m <;> simpa [renumberPiece, h] using hhead

/-! The seams that deleted marks leave. -/

/-- The mark keeps a number under `f`. -/
def mapped (f : Nat → Option Nat) (m : Match MarkGroup) : Bool :=
  (markNumbers m).any fun n => (f n).isSome

def kept (f : Nat → Option Nat) : Piece MarkGroup → Bool
  | .plain _ => true
  | .hit m => mapped f m

/-- The text without the marks that have no mapped number, nor the blanks before them. -/
def dropUnmapped (f : Nat → Option Nat) (t : Text) : Text :=
  markRe.sub (fun m => if mapped f m then m.text else []) t

/-- Cutting those marks out neither makes a mark of the text around them nor breaks another mark. -/
def SeamSafe (f : Nat → Option Nat) (t : Text) : Prop :=
  marks (dropUnmapped f t) = (marks t).filter (kept f)

instance : Decidable (SeamSafe f t) := inferInstanceAs (Decidable (_ = _))

theorem dropUnmapped_eq (f : Nat → Option Nat) (t : Text) :
    dropUnmapped f t = render ((marks t).filter (kept f)) := by
  unfold dropUnmapped sub marks
  induction markRe.pieces t with
  | nil => rfl
  | cons p ps ih =>
    rw [List.flatMap_cons, ih]
    cases p with
    | plain c =>
      rw [List.filter_cons_of_pos rfl]
      rfl
    | hit m => cases h : mapped f m <;> simp [kept, Piece.rewrite, h]

theorem seamSafe_iff : SeamSafe f t ↔ Tokens ((marks t).filter (kept f)) := by
  unfold SeamSafe
  rw [dropUnmapped_eq]
  constructor
  · intro h
    rw [← h]
    exact tokens_marks _
  · exact marks_render

theorem renumberPiece_isSome (p : Piece MarkGroup) :
    (renumberPiece f p).isSome = kept f p := by
  cases p with
  | plain c => rfl
  | hit m =>
    have hnil : mapped f m = false ↔ (markNumbers m).filterMap f = [] := by
      simp [mapped, List.filterMap_eq_nil_iff]
    cases h : ((markNumbers m).filterMap f).eraseDups with
    | nil =>
      have := hnil.mpr (FirstSeen.eq_nil h)
      simp [renumberPiece, renumberMatch, h, kept, this]
    | cons g gs =>
      have : mapped f m = true := by
        by_contra hc
        simp [hnil.mp (by simpa using hc)] at h
      simp [renumberPiece, renumberMatch, h, kept, this]

theorem alike_renumber (hps : Proper ps) :
    List.Forall₂ Alike (ps.filter (kept f)) (ps.filterMap (renumberPiece f)) := by
  induction ps with
  | nil => exact .nil
  | cons p ps ih =>
    have ih := ih (proper_tail hps)
    rw [List.filter_cons, List.filterMap_cons, ← renumberPiece_isSome]
    cases h : renumberPiece f p with
    | none => simpa using ih
    | some q =>
      refine .cons ?_ ih
      cases p with
      | plain c =>
        obtain rfl := Option.some.inj h
        exact .plain c
      | hit m =>
        obtain ⟨sp, k, hsp, hk, rfl⟩ := hps m (by simp)
        obtain ⟨m', hm', rfl⟩ := Option.map_eq_some_iff.mp h
        cases hg : ((markNumbers (mark sp k)).filterMap f).eraseDups with
        | nil => simp [renumberMatch, hg] at hm'
        | cons g gs =>
          rw [renumberMatch_some hg] at hm'
          obtain rfl := Option.some.inj hm'
          exact .mark hsp hk (written_ok _ _ _) (by simp)

/-- At safe seams the marks of the renumbered text are the renumbered marks. -/
theorem marks_renumber (h : SeamSafe f t) :
    marks (renumber t f) = (marks t).filterMap (renumberPiece f) := by
  rw [renumber_eq]
  exact marks_render
    (tokens_alike (seamSafe_iff.1 h) (alike_renumber (proper_tokens (tokens_marks t))))

theorem renumber_numbers (h : SeamSafe f t) :
    numbersInOrder (renumber t f) = ((numbersInOrder t).filterMap f).eraseDups := by
  have hmarks := numbers_renumber (f := f) (proper_tokens (tokens_marks t))
  rw [numbersInOrder_eq, marks_renumber h, hmarks, numbersInOrder_eq]
  exact (FirstSeen.filterMap_eraseDups f _).symm

/-- The characters outside the marks. -/
def outside (t : Text) : Text :=
  (marks t).filterMap fun p => match p with
    | .plain c => some c
    | .hit _ => none

theorem renumber_outside (h : SeamSafe f t) : outside (renumber t f) = outside t := by
  unfold outside
  rw [marks_renumber h, List.filterMap_filterMap]
  refine List.filterMap_congr fun p _ => ?_
  cases p with
  | plain c => rfl
  | hit m => cases hm : renumberMatch f m <;> simp [renumberPiece, hm]

/-- The result of renumbering a mark depends on its blanks, its kind and its numbers only. -/
theorem renumberMatch_congr (hk : k.isQuote = k'.isQuote)
    (h : FirstSeen.Same ((markNumbers (mark sp k)).filterMap f)
      ((markNumbers (mark sp k')).filterMap f₂)) :
    renumberMatch f (mark sp k) = renumberMatch f₂ (mark sp k') := by
  unfold FirstSeen.Same at h
  simp only [renumberMatch, mark_source_isNone, mark_space, h, hk]

/-- Two renumberings of one piece in a row. -/
theorem renumberPiece_comp (hps : Proper ps) :
    (ps.filterMap (renumberPiece f₁)).filterMap (renumberPiece f₂) =
      ps.filterMap (renumberPiece fun n => (f₁ n).bind f₂) := by
  rw [List.filterMap_filterMap]
  refine List.filterMap_congr fun p hp => ?_
  cases p with
  | plain c => rfl
  | hit m =>
    obtain ⟨sp, k, hsp, hk, rfl⟩ := hps m hp
    have hcomp : (markNumbers (mark sp k)).filterMap (fun n => (f₁ n).bind f₂) =
        ((markNumbers (mark sp k)).filterMap f₁).filterMap f₂ := by
      rw [List.filterMap_filterMap]
    cases hg : ((markNumbers (mark sp k)).filterMap f₁).eraseDups with
    | nil =>
      have hnil : (markNumbers (mark sp k)).filterMap f₁ = [] := FirstSeen.eq_nil hg
      rw [hnil] at hcomp
      simp [renumberPiece, renumberMatch_none hnil, renumberMatch_none hcomp]
    | cons g gs =>
      have hsame := numbers_renumberMatch (f := f₁) (m := mark sp k) rfl
      rw [renumberMatch_some hg] at hsame
      have hsame : FirstSeen.Same (markNumbers (mark sp (written k.isQuote (g :: gs))))
          ((markNumbers (mark sp k)).filterMap f₁) := by simpa using hsame
      simp only [renumberPiece, renumberMatch_some hg, Option.map_some, Option.bind_some]
      refine congrArg _ (renumberMatch_congr (by simp) ?_)
      rw [hcomp]
      exact hsame.filterMap f₂

theorem renumber_comp (h : SeamSafe f₁ t) :
    renumber (renumber t f₁) f₂ = renumber t fun n => (f₁ n).bind f₂ := by
  rw [renumber_eq, marks_renumber h, renumberPiece_comp (proper_tokens (tokens_marks t)),
    ← renumber_eq]

end RownRg.Citations

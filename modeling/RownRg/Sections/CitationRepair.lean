import RownRg.Core.MarkPlaces
import RownRg.Lib.Leftmost
import RownRg.Lib.Pairing
import RownRg.Qa.ClaimUnits

/-! The marks of a draft, set right before it is saved: a mark whose chunk lacks the numbers of its
sentence goes over to the chunk that has them all. -/

open PyText Regex RownRg.Citations RownRg.Gate

namespace RownRg.CitationRepair

/-- How the gate finds the numbers of a sentence, those it derives from others, and whether a number
stands in a text. -/
structure NumberRules where
  numericMentions : Text → List Text
  derivedNumbers : Text → List Text
  numberInText : Text → Text → Bool

/-- `_MAX_TOKENS_PER_UNIT` -/
def maxTokensPerUnit : Nat := 3

/-- `_ONE_SOURCE_MARK_RE` -/
def oneSourceMarkRe : Regex Unit :=
  cat [lit "(출처".toList, spaces, numberList, spaces, chr ')']

/-- `normalize_haystack` -/
def normalizeHaystack (text : Text) : Text := text.filter fun c => c ≠ ',' && c ≠ '*'

structure Fixed where
  unit : Text
  before : Text
  after : Text
  deriving DecidableEq

structure RepairOutcome (ι : Type) where
  content : Text
  citedChunkIds : List ι
  held : List Text
  fixed : List Fixed

variable {ι : Type} [DecidableEq ι]

/-- `_local_chunk_map` -/
def localChunkMap (content : Text) (cited : List ι) : List (Nat × ι) :=
  (numbersInOrder content).zip cited

/-- `_rebuild_cited` -/
def rebuildCited (content : Text) (chunkOf : List (Nat × ι)) : List ι :=
  (numbersInOrder content).filterMap fun n => chunkOf.lookup n

/-- `_has_ghost_numbers` -/
def hasGhostNumbers (content : Text) (chunkOf : List (Nat × ι)) : Bool :=
  (numbersInOrder content).any fun n => (chunkOf.lookup n).isNone

/-- The text, the tables that grow with it, and what was found so far. -/
structure RepairState (ι : Type) where
  out : Text
  chunkOf : List (Nat × ι)
  localOf : List (ι × Nat)
  nextNo : Nat
  held : List Text
  fixed : List Fixed

/-- The chunk of a sentence with a single mark, a source mark. -/
def citedChunk (chunkOf : List (Nat × ι)) (unit : Text) : Option ι :=
  match numbersInOrder unit, oneSourceMarkRe.finditer unit with
  | [n], [_] => chunkOf.lookup n
  | _, _ => none

/-- A text that is not in Korean, of which no word can be said to be missing. -/
def foreign (text : Text) : Bool := !(strip text).isEmpty && !text.any isHangul

/-- The numbers of a sentence that neither stand in the text nor derive from others. -/
def missingNumbers (rules : NumberRules) (citedText unit : Text) : List Text :=
  let bare := markRe.sub (fun _ => [' ']) unit
  let derived := rules.derivedNumbers bare
  ((rules.numericMentions bare).take maxTokensPerUnit).filter fun tok =>
    let norm := normalizeNumber tok
    !norm.isEmpty && !derived.contains norm && !rules.numberInText tok citedText

/-- The first other chunk that has all the numbers. -/
def targetChunk (rules : NumberRules) (normPool : List (ι × Text)) (citedId : ι)
    (missing : List Text) : Option ι :=
  (normPool.find? fun x => x.1 ≠ citedId && missing.all fun tok => rules.numberInText tok x.2).map
    Prod.fst

/-- The number of a chunk in this text; a new chunk gets the next one. -/
def numberFor (s : RepairState ι) (target : ι) : Nat × RepairState ι :=
  match s.localOf.lookup target with
  | some n => (n, s)
  | none => (s.nextNo, { s with
      chunkOf := s.chunkOf ++ [(s.nextNo, target)]
      localOf := s.localOf ++ [(target, s.nextNo)]
      nextNo := s.nextNo + 1 })

/-- `_ONE_SOURCE_MARK_RE.sub(f"(출처 {local})", unit, count=1)` -/
def replaceMark (unit : Text) (n : Nat) : Text :=
  match (oneSourceMarkRe.spots unit).head? with
  | some (before, _, after) => before.reverse ++ (("(출처 ".toList ++ ofNat n ++ [')']) ++ after)
  | none => unit

/-- The first occurrence of the sentence gets the other mark. -/
def setMark (s : RepairState ι) (unit : Text) (n : Nat) : RepairState ι :=
  let newUnit := replaceMark unit n
  match cutAt unit s.out with
  | some (x, y) =>
    if newUnit = unit then s
    else { s with
      out := x ++ (newUnit ++ y)
      fixed := s.fixed ++ [⟨unit.take 80,
        ((oneSourceMarkRe.finditer unit).head?.map Match.text).getD [],
        "(출처 ".toList ++ ofNat n ++ [')']⟩] }
  | none => s

/-- The round of `repair_citations` over the sentences. -/
def repairUnit (rules : NumberRules) (normPool : List (ι × Text)) (s : RepairState ι) (unit : Text) :
    RepairState ι :=
  match citedChunk s.chunkOf unit with
  | none => s
  | some citedId =>
    let citedText := (normPool.lookup citedId).getD []
    let missing := missingNumbers rules citedText unit
    if foreign citedText || missing.isEmpty then s
    else
      match targetChunk rules normPool citedId missing with
      | none => { s with held := s.held ++ missing }
      | some target =>
        let (n, s) := numberFor s target
        setMark s unit n

/-- `setdefault`, one after the other -/
def localOfChunk (chunkOf : List (Nat × ι)) : List (ι × Nat) :=
  chunkOf.foldl (fun out x => if (out.lookup x.2).isSome then out else out ++ [(x.2, x.1)]) []

def startState (content : Text) (chunkOf : List (Nat × ι)) : RepairState ι where
  out := content
  chunkOf := chunkOf
  localOf := localOfChunk chunkOf
  nextNo := (chunkOf.map Prod.fst).max?.getD 0 + 1
  held := []
  fixed := []

/-- `repair_citations`; `isAlnum` is `str.isalnum`. -/
def repairCitations (rules : NumberRules) (isAlnum : Char → Bool) (content : Text)
    (citedChunkIds : List ι) (pool : List (ι × Text)) : RepairOutcome ι :=
  let chunkOf := localChunkMap content citedChunkIds
  if chunkOf.isEmpty || pool.isEmpty || hasGhostNumbers content chunkOf then
    ⟨content, citedChunkIds, [], []⟩
  else
    let normPool := pool.map fun x => (x.1, normalizeHaystack x.2)
    let s := (claimUnits isAlnum content).foldl (repairUnit rules normPool)
      (startState content chunkOf)
    ⟨s.out, if s.fixed.isEmpty then citedChunkIds else rebuildCited s.out s.chunkOf, s.held, s.fixed⟩

variable {rules : NumberRules} {isAlnum : Char → Bool} {content unit : Text} {cited : List ι}
  {pool normPool : List (ι × Text)} {chunkOf chunkOf' : List (Nat × ι)} {s : RepairState ι}
  {units : List Text} {c target : ι} {n : Nat} {t : Text} {P Q : Nat → Prop}
  {p q r : Piece MarkGroup}

/-! The one mark of a sentence. -/

theorem blind_oneSourceMarkRe : oneSourceMarkRe.Blind := by
  simp [oneSourceMarkRe, numberList, digits, spaces, cat, lit, chr, digit, Regex.space, plus, Blind]

theorem plain_oneSourceMarkRe : oneSourceMarkRe.Plain := by
  simp only [oneSourceMarkRe, cat]
  exact ⟨plain_lit _, trivial, plain_numberList, trivial, trivial⟩

/-- It reads the source marks without the blanks before them. -/
theorem accepts_oneSourceMarkRe (h : oneSourceMarkRe.Accepts t) :
    ∃ k : Core, k.Ok ∧ k.isQuote = false ∧ t = k.text := by
  obtain ⟨_, _, hlit, ⟨w₁, _, h₁, ⟨g, _, hg, ⟨w₂, _, h₂, hclose, rfl⟩, rfl⟩, rfl⟩, rfl⟩ := h
  obtain rfl := accepts_lit.1 hlit
  obtain rfl := accepts_chr.1 hclose
  refine ⟨.source w₁ g w₂, ⟨accepts_spaces.1 h₁, ?_, accepts_spaces.1 h₂⟩, rfl, rfl⟩
  exact accepts_numberList.2 (accepts_numberList.1 hg)

theorem words_oneSourceMarkRe : ¬ oneSourceMarkRe.Words [] := by
  rw [words_plain plain_oneSourceMarkRe]
  intro h
  obtain ⟨k, hk, -, hnil⟩ := accepts_oneSourceMarkRe h
  exact core_text_ne_nil hk hnil.symm

omit [DecidableEq ι] in
/-- A sentence with one mark, and what any number makes of it. -/
theorem exists_mark (h : citedChunk chunkOf unit = some c) :
    ∃ (a : Text) (k : Core) (b : Text), k.Ok ∧ k.isQuote = false ∧ unit = a ++ (k.text ++ b) ∧
      ∀ n, replaceMark unit n = a ++ ((written false [n]).text ++ b) := by
  unfold citedChunk at h
  split at h
  · rename_i n m hnumbers hfound
    rw [← map_spots] at hfound
    cases hspots : oneSourceMarkRe.spots unit with
    | nil => simp [hspots] at hfound
    | cons spot spots =>
      obtain ⟨before, m', after⟩ := spot
      have hhead : (oneSourceMarkRe.spots unit).head? = some (before, m', after) := by
        rw [hspots, List.head?_cons]
      obtain ⟨hunit, hfirst, -⟩ :=
        (head_spots_iff blind_oneSourceMarkRe words_oneSourceMarkRe).mp hhead
      obtain ⟨k, hk, hq, hm⟩ :=
        accepts_oneSourceMarkRe ((words_plain plain_oneSourceMarkRe).mp (words_of_first hfirst))
      refine ⟨before.reverse, k, after, hk, hq, by rw [hunit, hm], fun n => ?_⟩
      simp [replaceMark, hhead, written, Core.text, joinWith]
  · cases h

/-! Marks that were set right. -/

/-- The same piece, or a source mark that now has one number, of which `P` holds. -/
inductive Repaired (P : Nat → Prop) : Piece MarkGroup → Piece MarkGroup → Prop
  | same (p : Piece MarkGroup) : Repaired P p p
  | fixed {sp : Text} {k : Core} {n : Nat} (hsp : ∀ c ∈ sp, isHSpace c) (hk : k.Ok)
      (hq : k.isQuote = false) (hn : P n) :
      Repaired P (.hit (mark sp k)) (.hit (mark sp (written false [n])))

theorem Repaired.mono (h : Repaired P p q) (hPQ : ∀ n, P n → Q n) : Repaired Q p q := by
  cases h with
  | same => exact .same p
  | fixed hsp hk hq hn => exact .fixed hsp hk hq (hPQ _ hn)

theorem Repaired.trans (h : Repaired P p q) (h' : Repaired P q r) : Repaired P p r := by
  cases h' with
  | same => exact h
  | @fixed sp k n hsp hk hq hn =>
    generalize hm : mark sp k = m at h
    cases h with
    | same => exact hm ▸ .fixed hsp hk hq hn
    | @fixed sp' k' n' hsp' hk' hq' hn' =>
      obtain ⟨rfl, -⟩ := mark_inj hsp hsp' hk (written_ok false n' []) hm
      exact .fixed hsp hk' hq' hn

theorem repaired_trans {ps qs rs : List (Piece MarkGroup)} (h : List.Forall₂ (Repaired P) ps qs)
    (h' : List.Forall₂ (Repaired P) qs rs) : List.Forall₂ (Repaired P) ps rs := by
  induction h generalizing rs with
  | nil => exact h'
  | cons hpq _ ih =>
    cases h' with
    | cons hqr hrest => exact .cons (hpq.trans hqr) (ih hrest)

theorem outside_repaired (h : List.Forall₂ (Repaired P) (marks t) (marks content)) :
    outside content = outside t := by
  unfold outside
  generalize marks t = ps, marks content = qs at h
  induction h with
  | nil => rfl
  | @cons p q ps qs hpq _ ih =>
    cases hpq with
    | same => rw [List.filterMap_cons, List.filterMap_cons, ih]
    | fixed hsp hk hq hn => rw [List.filterMap_cons, List.filterMap_cons, ih]

omit [DecidableEq ι] in
theorem setMark_tables (s : RepairState ι) (unit : Text) (n : Nat) :
    (setMark s unit n).chunkOf = s.chunkOf ∧ (setMark s unit n).localOf = s.localOf ∧
      (setMark s unit n).nextNo = s.nextNo := by
  unfold setMark
  split
  · dsimp only
    split <;> exact ⟨rfl, rfl, rfl⟩
  · exact ⟨rfl, rfl, rfl⟩

omit [DecidableEq ι] in
/-- One replacement in a text sets one mark right. -/
theorem setMark_spec (s : RepairState ι) (h : citedChunk chunkOf unit = some c) (hP : P n) :
    List.Forall₂ (Repaired P) (marks s.out) (marks (setMark s unit n).out) ∧
      (∀ m ∈ numbersInOrder (setMark s unit n).out, m ∈ numbersInOrder s.out ∨ m = n) ∧
      ((setMark s unit n).fixed = [] → (setMark s unit n).out = s.out ∧ s.fixed = []) := by
  have hsame : List.Forall₂ (Repaired P) (marks s.out) (marks s.out) :=
    List.forall₂_same.mpr fun p _ => .same p
  unfold setMark
  split
  · rename_i x y hcut
    dsimp only
    split
    · exact ⟨hsame, fun m hm => .inl hm, fun hnil => ⟨rfl, hnil⟩⟩
    · obtain ⟨a, k, b, hk, hq, hunit, hnew⟩ := exists_mark h
      obtain ⟨before, sp, after, hmarks⟩ := marks_replace hk hq (x ++ a) (b ++ y)
      have hold : marks s.out = before ++ .hit (mark sp k) :: after := by
        rw [cutAt_eq hcut, hunit, ← hmarks k hk hq]
        simp
      have hset : marks (x ++ (replaceMark unit n ++ y)) =
          before ++ .hit (mark sp (written false [n])) :: after := by
        rw [hnew, ← hmarks _ (written_ok false n []) (by simp)]
        simp
      have hnumbers : ∀ m : Match MarkGroup,
          numbersOf (before ++ .hit m :: after) = numbersOf before ++ (markNumbers m ++ numbersOf after) :=
        fun m => by rw [numbersOf, hits_append, List.flatMap_append]; rfl
      refine ⟨?_, fun m hm => ?_, fun hnil => by simp at hnil⟩
      · obtain ⟨sp', k', hsp, -, heq⟩ := proper_tokens (tokens_marks s.out) (mark sp k) (by simp [hold])
        obtain rfl : sp = sp' := by simpa using congrArg (fun m => m.group .space) heq
        rw [hold, hset]
        refine List.rel_append (List.forall₂_same.mpr fun p _ => .same p) ?_
        exact .cons (.fixed hsp hk hq hP) (List.forall₂_same.mpr fun p _ => .same p)
      · rw [numbersInOrder_eq, List.mem_eraseDups, hset, hnumbers, numbers_written_source] at hm
        rw [numbersInOrder_eq, List.mem_eraseDups, hold, hnumbers]
        simp only [List.mem_append, List.mem_singleton] at hm ⊢
        tauto
  · exact ⟨hsame, fun m hm => .inl hm, fun hnil => ⟨rfl, hnil⟩⟩

/-! The tables. -/

/-- A table that has every entry of another. -/
def Extends (chunkOf' chunkOf : List (Nat × ι)) : Prop :=
  ∀ n c, chunkOf.lookup n = some c → chunkOf'.lookup n = some c

omit [DecidableEq ι] in
theorem citedChunk_extends (hext : Extends chunkOf' chunkOf)
    (h : citedChunk chunkOf unit = some c) : citedChunk chunkOf' unit = some c := by
  unfold citedChunk at h ⊢
  split at h
  · exact hext _ _ h
  · cases h

/-- A chunk that has all the numbers of a sentence which the chunk it cites lacks. -/
def Supplies (rules : NumberRules) (normPool : List (ι × Text)) (units : List Text)
    (chunkOf : List (Nat × ι)) (c : ι) : Prop :=
  ∃ unit ∈ units, ∃ citedId, citedChunk chunkOf unit = some citedId ∧
    missingNumbers rules ((normPool.lookup citedId).getD []) unit ≠ [] ∧
    targetChunk rules normPool citedId
      (missingNumbers rules ((normPool.lookup citedId).getD []) unit) = some c

/-- A number of such a chunk. -/
def SetRight (rules : NumberRules) (normPool : List (ι × Text)) (units : List Text)
    (chunkOf : List (Nat × ι)) (n : Nat) : Prop :=
  ∃ c, chunkOf.lookup n = some c ∧ Supplies rules normPool units chunkOf c

theorem SetRight.extends (hext : Extends chunkOf' chunkOf)
    (h : SetRight rules normPool units chunkOf n) : SetRight rules normPool units chunkOf' n := by
  obtain ⟨c, hc, unit, hunit, citedId, hcited, hmissing, htarget⟩ := h
  exact ⟨c, hext n c hc, unit, hunit, citedId, citedChunk_extends hext hcited, hmissing, htarget⟩

omit [DecidableEq ι] in
theorem lookup_concat (hn : n ∉ chunkOf.map Prod.fst) (m : Nat) :
    (chunkOf ++ [(n, c)]).lookup m = if m = n then some c else chunkOf.lookup m := by
  rw [List.lookup_append, Pairing.lookup_cons]
  by_cases hm : m = n
  · have hnone : chunkOf.lookup n = none := by
      rw [← Option.not_isSome_iff_eq_none, Pairing.lookup_isSome]
      exact hn
    simp [hm, hnone]
  · simp [hm]

theorem lookup_localOfChunk (hkeys : (chunkOf.map Prod.fst).Nodup)
    (h : (localOfChunk chunkOf).lookup c = some n) : chunkOf.lookup n = some c := by
  have hmem : ∀ (entries : List (Nat × ι)) (out : List (ι × Nat)), ∀ x ∈ entries.foldl (fun out x =>
      if (out.lookup x.2).isSome then out else out ++ [(x.2, x.1)]) out,
      x ∈ out ∨ (x.2, x.1) ∈ entries := by
    intro entries
    induction entries with
    | nil => exact fun out x hx => .inl hx
    | cons e entries ih =>
      intro out x hx
      rcases ih _ x hx with hx | hx
      · dsimp only at hx
        split at hx
        · exact .inl hx
        · rcases List.mem_append.mp hx with hx | hx
          · exact .inl hx
          · exact .inr (List.mem_singleton.mp hx ▸ List.mem_cons_self)
      · exact .inr (List.mem_cons_of_mem _ hx)
  obtain ⟨pre, post, hsplit, -⟩ := List.lookup_eq_some_iff.mp h
  refine (Pairing.lookup_eq_some hkeys).mpr ?_
  exact (hmem chunkOf [] (c, n) (by rw [← localOfChunk, hsplit]; simp)).resolve_left (by simp)

/-- What every round keeps: the table grows, its numbers stay below the next one, and all numbers of
the text are in it; the marks of the text are those of the draft, some of them set right. -/
structure Kept (rules : NumberRules) (normPool : List (ι × Text)) (units : List Text)
    (content : Text) (chunkOf : List (Nat × ι)) (s : RepairState ι) : Prop where
  grows : Extends s.chunkOf chunkOf
  fresh : ∀ n ∈ s.chunkOf.map Prod.fst, n < s.nextNo
  locals : ∀ c n, s.localOf.lookup c = some n → s.chunkOf.lookup n = some c
  numbers : ∀ n ∈ numbersInOrder s.out, (s.chunkOf.lookup n).isSome
  marks : List.Forall₂ (Repaired (SetRight rules normPool units s.chunkOf)) (marks content)
    (marks s.out)
  idle : s.fixed = [] → s.out = content

theorem Kept.numberFor (h : Kept rules normPool units content chunkOf s) (target : ι) :
    Kept rules normPool units content chunkOf (numberFor s target).2 ∧
      Extends (numberFor s target).2.chunkOf s.chunkOf ∧
      (numberFor s target).2.chunkOf.lookup (numberFor s target).1 = some target := by
  unfold CitationRepair.numberFor
  split
  · rename_i n hn
    exact ⟨h, fun _ _ hc => hc, h.locals target n hn⟩
  · rename_i hnone
    have hnew : s.nextNo ∉ s.chunkOf.map Prod.fst := fun hmem => (h.fresh _ hmem).false
    have hext : Extends (s.chunkOf ++ [(s.nextNo, target)]) s.chunkOf := by
      intro n c hc
      have hmem := Pairing.lookup_isSome.mp (Option.isSome_of_eq_some hc)
      rw [lookup_concat hnew, if_neg (h.fresh n hmem).ne, hc]
    have hself : (s.chunkOf ++ [(s.nextNo, target)]).lookup s.nextNo = some target := by
      rw [lookup_concat hnew, if_pos rfl]
    refine ⟨⟨fun n c hc => hext n c (h.grows n c hc), fun n hn => ?_, fun c n hc => ?_,
      fun n hn => ?_, ?_, h.idle⟩, hext, hself⟩
    · rw [List.map_append, List.mem_append] at hn
      rcases hn with hn | hn
      · exact (h.fresh n hn).trans (Nat.lt_succ_self _)
      · obtain rfl : n = s.nextNo := by simpa using hn
        exact Nat.lt_succ_self _
    · have hc' : (s.localOf ++ [(target, s.nextNo)]).lookup c = some n := hc
      rw [List.lookup_append, Pairing.lookup_cons] at hc'
      cases hlocal : s.localOf.lookup c with
      | some m =>
        rw [hlocal, Option.some_or] at hc'
        exact hext n c (Option.some.inj hc' ▸ h.locals c m hlocal)
      | none =>
        rw [hlocal, Option.none_or] at hc'
        split at hc'
        · rename_i hct
          rw [← Option.some.inj hc', hct]
          exact hself
        · cases hc'
    · obtain ⟨c, hc⟩ := Option.isSome_iff_exists.mp (h.numbers n hn)
      exact Option.isSome_of_eq_some (hext n c hc)
    · exact h.marks.imp fun _ _ hpq => hpq.mono fun _ hn => hn.extends hext

theorem Kept.setMark (h : Kept rules normPool units content chunkOf s)
    (hcited : citedChunk chunkOf' unit = some c) (hn : SetRight rules normPool units s.chunkOf n) :
    Kept rules normPool units content chunkOf (setMark s unit n) := by
  obtain ⟨hmarks, hnumbers, hidle⟩ := setMark_spec s hcited hn
  obtain ⟨hchunk, hlocal, hnext⟩ := setMark_tables s unit n
  refine ⟨by rw [hchunk]; exact h.grows, by rw [hchunk, hnext]; exact h.fresh,
    by rw [hchunk, hlocal]; exact h.locals, fun m hm => ?_, ?_, fun hnil => ?_⟩
  · rw [hchunk]
    rcases hnumbers m hm with hm | rfl
    · exact h.numbers m hm
    · obtain ⟨c, hc, -⟩ := hn
      exact Option.isSome_of_eq_some hc
  · rw [hchunk]
    exact repaired_trans h.marks hmarks
  · obtain ⟨hout, hfixed⟩ := hidle hnil
    rw [hout]
    exact h.idle hfixed

theorem Kept.repairUnit (h : Kept rules normPool units content chunkOf s) (hunit : unit ∈ units) :
    Kept rules normPool units content chunkOf (repairUnit rules normPool s unit) := by
  unfold CitationRepair.repairUnit
  cases hcited : citedChunk s.chunkOf unit with
  | none => exact h
  | some citedId =>
    dsimp only
    split
    · exact h
    · rename_i hmissing
      have hne : missingNumbers rules ((normPool.lookup citedId).getD []) unit ≠ [] := by
        simp only [Bool.or_eq_true, not_or, List.isEmpty_iff] at hmissing
        exact hmissing.2
      cases htarget : targetChunk rules normPool citedId
          (missingNumbers rules ((normPool.lookup citedId).getD []) unit) with
      | none => exact { h with }
      | some target =>
        obtain ⟨hkept, hext, hn⟩ := h.numberFor target
        exact hkept.setMark hcited
          ⟨target, hn, unit, hunit, citedId, citedChunk_extends hext hcited, hne, htarget⟩

omit [DecidableEq ι] in
theorem lookup_of_no_ghost (hghost : hasGhostNumbers content chunkOf = false)
    (hn : n ∈ numbersInOrder content) : ∃ c, chunkOf.lookup n = some c := by
  have hnot := List.any_eq_false.mp hghost n hn
  cases hlookup : chunkOf.lookup n with
  | none =>
    rw [hlookup] at hnot
    exact absurd rfl hnot
  | some c => exact ⟨c, rfl⟩

theorem Kept.start (hghost : hasGhostNumbers content (localChunkMap content cited) = false) :
    Kept rules normPool units content (localChunkMap content cited)
      (startState content (localChunkMap content cited)) := by
  have hkeys : ((localChunkMap content cited).map Prod.fst).Nodup := by
    rw [localChunkMap, List.zip_eq_zip_take_min, List.map_fst_zip (by simp)]
    exact (FirstSeen.nodup _).sublist (List.take_sublist _ _)
  refine ⟨fun _ _ hc => hc, fun n hn => ?_, fun c n hc => lookup_localOfChunk hkeys hc,
    fun n hn => ?_, List.forall₂_same.mpr fun p _ => .same p, fun _ => rfl⟩
  · exact Nat.lt_succ_of_le (List.le_max?_getD_of_mem hn)
  · obtain ⟨c, hc⟩ := lookup_of_no_ghost hghost hn
    exact Option.isSome_of_eq_some hc

/-- The marks that were set right are the only change of the text, each names a chunk that has all
the numbers which the chunk of some sentence lacks; and the cited chunks are in step with the text
again: each number of the text stands for the chunk it stood for in the draft, or is new. -/
theorem repair_keeps_convention (content : Text) (cited : List ι) (pool : List (ι × Text)) :
    let r := repairCitations rules isAlnum content cited pool
    let normPool := pool.map fun x => (x.1, normalizeHaystack x.2)
    outside r.content = outside content ∧
    ∃ chunkOf, Extends chunkOf (localChunkMap content cited) ∧
      (∀ n ∈ numbersInOrder r.content,
        (localChunkMap r.content r.citedChunkIds).lookup n = chunkOf.lookup n) ∧
      List.Forall₂ (Repaired (SetRight rules normPool (claimUnits isAlnum content) chunkOf))
        (marks content) (marks r.content) := by
  intro r normPool
  by_cases hidle : (localChunkMap content cited).isEmpty || pool.isEmpty ||
      hasGhostNumbers content (localChunkMap content cited)
  · have hr : r = ⟨content, cited, [], []⟩ := if_pos hidle
    rw [hr]
    exact ⟨rfl, _, fun _ _ hc => hc, fun _ _ => rfl, List.forall₂_same.mpr fun p _ => .same p⟩
  · have hghost : hasGhostNumbers content (localChunkMap content cited) = false := by
      simp only [Bool.or_eq_true, not_or, Bool.not_eq_true] at hidle
      exact hidle.2
    have hkept : Kept rules normPool (claimUnits isAlnum content) content
        (localChunkMap content cited) ((claimUnits isAlnum content).foldl (repairUnit rules normPool)
          (startState content (localChunkMap content cited))) := by
      refine List.foldlRecOn _ _ (Kept.start hghost) fun s hs unit hunit => hs.repairUnit hunit
    generalize hs : (claimUnits isAlnum content).foldl (repairUnit rules normPool)
      (startState content (localChunkMap content cited)) = s at hkept
    have hr : r = ⟨s.out, if s.fixed.isEmpty then cited else rebuildCited s.out s.chunkOf, s.held,
        s.fixed⟩ := by
      rw [← hs]
      exact if_neg hidle
    rw [hr]
    refine ⟨outside_repaired hkept.marks, s.chunkOf, hkept.grows, fun n hn => ?_, hkept.marks⟩
    dsimp only
    split
    · rename_i hnil
      have hout := hkept.idle (List.isEmpty_iff.mp hnil)
      obtain ⟨c, hc⟩ := lookup_of_no_ghost hghost (hout ▸ hn)
      rw [hout, hc, hkept.grows n c hc]
    · exact (Pairing.zip_prefix_iff _ (FirstSeen.nodup _) hkept.numbers).mpr
        (List.prefix_refl _) n hn

end RownRg.CitationRepair

import RownRg.Indexing.TableSafety
import RownRg.Lib.Lexing
import RownRg.Lib.Merging

/-! Short chunks are joined to their neighbours, and nothing else happens to them. -/

open PyText Regex

namespace RownRg.Indexing

variable {svc : ChunkingService} {c last r : Chunk} {chunks raw raw' result group : List Chunk}
  {groups : List (List Chunk)} {t u v w : Text} {isWord : Char → Bool} {sourceId : Uuid}
  {tables path : List Text} {docs : List HeaderDoc}

/-! The flags of a text and of its parts. -/

theorem hasNumbers_iff : hasNumbers t ↔ ∃ c ∈ t, isDigit c := by
  have hwords : ¬ (digit : Regex Unit).Words [] := by
    rintro ⟨c, -, h⟩
    cases h
  rw [hasNumbers, found_iff hwords]
  constructor
  · rintro ⟨u, y, q, rfl, hq⟩
    obtain ⟨w, v, ⟨c, hc, rfl⟩, rfl, -⟩ := (mem_run_plain_iff (by trivial)).mp hq
    exact ⟨c, by simp, hc⟩
  · rintro ⟨c, hmem, hc⟩
    obtain ⟨u, v, rfl⟩ := List.append_of_mem hmem
    exact ⟨u, c :: v, _, rfl, (mem_run_plain_iff (by trivial)).mpr ⟨[c], v, ⟨c, hc, rfl⟩, rfl, rfl⟩⟩

/-- `[A-Z]` -/
def isUpper (c : Char) : Bool := 'A' ≤ c && c ≤ 'Z'

/-- A capitalised abbreviation that is a word of its own. -/
def ProperNoun (isWord : Char → Bool) (u w v : Text) : Prop :=
  2 ≤ w.length ∧ w.length ≤ 5 ∧ (∀ c ∈ w, isUpper c) ∧ (∀ c ∈ u.getLast?, isWord c = false) ∧
    ∀ c ∈ v.head?, isWord c = false

theorem hasProperNouns_iff :
    hasProperNouns isWord t ↔ ∃ u w v, t = u ++ (w ++ v) ∧ ProperNoun isWord u w v := by
  have hbetween : ∀ {w : Text}, (between (cls isUpper) 2 5 : Regex Unit).Accepts w ↔
      2 ≤ w.length ∧ w.length ≤ 5 ∧ ∀ c ∈ w, isUpper c := accepts_between (by omega)
  have hplain : (between (cls isUpper) 2 5 : Regex Unit).Plain := plain_between (r := cls isUpper) trivial 2 5
  have hbehind : ∀ (u v : Text), (notBehind isWord : Regex Unit).run ⟨u.reverse, v, []⟩ =
      if u.getLast?.any isWord then [] else [⟨u.reverse, v, []⟩] := by
    intro u v
    rw [run, List.head?_reverse]
  have hany : ∀ u : Text, u.getLast?.any isWord = false ↔ ∀ c ∈ u.getLast?, isWord c = false := by
    intro u
    cases u.getLast? <;> simp
  have hwords : ¬ (properNounRe isWord).Words [] := by
    rintro ⟨x, y, -, ⟨x', y', hx', -, rfl⟩, h⟩
    have hlen := (hbetween.mp ((words_plain hplain).mp hx')).1
    have hnil := congrArg List.length h
    simp only [List.length_nil, List.length_append] at hnil
    omega
  rw [hasProperNouns, found_iff hwords]
  constructor
  · rintro ⟨u, y, q, rfl, hq⟩
    obtain ⟨q', hq', hq⟩ := mem_run_seq.1 hq
    rw [hbehind] at hq'
    split at hq'
    · cases hq'
    · rename_i hu
      obtain rfl := List.mem_singleton.mp hq'
      obtain ⟨w, v, hw, rfl, hend⟩ := (mem_run_seq_plain hplain).mp hq
      obtain ⟨hlow, hhigh, hupper⟩ := hbetween.mp hw
      have hv := (mem_run_notAhead_cls.1 hend).1
      exact ⟨u, w, v, rfl, hlow, hhigh, hupper, (hany u).mp (by simpa using hu), hv⟩
  · rintro ⟨u, w, v, rfl, hlow, hhigh, hupper, hu, hv⟩
    refine ⟨u, w ++ v, ⟨w.reverse ++ u.reverse, v, []⟩, rfl, ?_⟩
    refine mem_run_seq.2 ⟨⟨u.reverse, w ++ v, []⟩, ?_, ?_⟩
    · rw [hbehind, (hany u).mpr hu]
      exact List.mem_singleton_self _
    · exact (mem_run_seq_plain hplain).mpr ⟨w, v, hbetween.mpr ⟨hlow, hhigh, hupper⟩, rfl,
        mem_run_notAhead_cls.2 ⟨hv, rfl⟩⟩

theorem hasNumbers_join (u v : Text) :
    hasNumbers (u ++ (mergeJoin ++ v)) = (hasNumbers u || hasNumbers v) := by
  have hjoin : ∀ c ∈ mergeJoin, isDigit c = false := by decide
  rw [Bool.eq_iff_iff, Bool.or_eq_true, hasNumbers_iff, hasNumbers_iff, hasNumbers_iff]
  constructor
  · rintro ⟨c, hc, hdigit⟩
    rcases List.mem_append.mp hc with hc | hc
    · exact .inl ⟨c, hc, hdigit⟩
    · rcases List.mem_append.mp hc with hc | hc
      · exact absurd hdigit (by simp [hjoin c hc])
      · exact .inr ⟨c, hc, hdigit⟩
  · rintro (⟨c, hc, hdigit⟩ | ⟨c, hc, hdigit⟩)
    · exact ⟨c, by simp [hc], hdigit⟩
    · exact ⟨c, by simp [hc], hdigit⟩

/-- Two texts joined with line breaks have the abbreviations of both and no others. -/
theorem hasProperNouns_join (hbreak : isWord '\n' = false) (u v : Text) :
    hasProperNouns isWord (u ++ (mergeJoin ++ v)) =
      (hasProperNouns isWord u || hasProperNouns isWord v) := by
  have hjoin : mergeJoin = ['\n', '\n'] := rfl
  rw [Bool.eq_iff_iff, Bool.or_eq_true, hasProperNouns_iff, hasProperNouns_iff, hasProperNouns_iff]
  constructor
  · rintro ⟨x, w, y, heq, hlow, hhigh, hupper, hx, hy⟩
    obtain ⟨d, w', rfl⟩ := List.exists_cons_of_length_pos (by omega : 0 < w.length)
    have hd : d ≠ '\n' := by
      rintro rfl
      exact absurd (hupper _ List.mem_cons_self) (by decide)
    rcases List.append_eq_append_iff.mp heq with ⟨z, rfl, hz⟩ | ⟨z, rfl, hz⟩
    · rcases z with _ | ⟨a, _ | ⟨b, z⟩⟩
      · exact absurd (List.cons.inj hz).1.symm hd
      · exact absurd (List.cons.inj (List.cons.inj hz).2).1.symm hd
      · obtain ⟨-, hz⟩ := List.cons.inj hz
        obtain ⟨-, rfl⟩ := List.cons.inj hz
        refine .inr ⟨z, d :: w', y, rfl, hlow, hhigh, hupper, ?_, hy⟩
        cases List.eq_nil_or_concat z with
        | inl hnil => simp [hnil]
        | inr hconcat =>
          obtain ⟨z', c, rfl⟩ := hconcat
          rw [List.concat_eq_append] at hx ⊢
          have hlast : (u ++ a :: b :: (z' ++ [c])).getLast? = some c := by
            rw [show u ++ a :: b :: (z' ++ [c]) = (u ++ a :: b :: z') ++ [c] by simp,
              List.getLast?_concat]
          simpa using hx c hlast
    · rcases List.append_eq_append_iff.mp hz with ⟨z', rfl, rfl⟩ | ⟨z', hw, hy'⟩
      · refine .inl ⟨x, d :: w', z', by simp, hlow, hhigh, hupper, hx, ?_⟩
        cases z' with
        | nil => simp
        | cons c z' => simpa using hy
      · cases z' with
        | nil =>
          rw [List.append_nil] at hw
          exact .inl ⟨x, d :: w', [], by simp [hw], hlow, hhigh, hupper, hx, by simp⟩
        | cons c z' =>
          have hc : '\n' = c := (List.cons.inj hy').1
          have hmem : '\n' ∈ d :: w' := by
            rw [hw, hc]
            simp
          exact absurd (hupper '\n' hmem) (by decide)
  · rintro (⟨x, w, y, rfl, hlow, hhigh, hupper, hx, hy⟩ | ⟨x, w, y, rfl, hlow, hhigh, hupper, hx, hy⟩)
    · refine ⟨x, w, y ++ (mergeJoin ++ v), by simp, hlow, hhigh, hupper, hx, ?_⟩
      cases y with
      | nil => simpa [hjoin] using hbreak
      | cons c y => simpa using hy
    · refine ⟨u ++ (mergeJoin ++ x), w, y, by simp, hlow, hhigh, hupper, ?_, hy⟩
      cases List.eq_nil_or_concat x with
      | inl hnil => simpa [hjoin, hnil] using hbreak
      | inr hconcat =>
        obtain ⟨x', c, rfl⟩ := hconcat
        simpa using hx

/-! What a chunk says of its content. -/

structure Chunk.Sound (svc : ChunkingService) (c : Chunk) : Prop where
  charCount : c.charCount = c.content.length
  numbers : c.hasNumbers = Indexing.hasNumbers c.content
  properNouns : c.hasProperNouns = Indexing.hasProperNouns svc.isWord c.content

theorem sound_makeChunk (content : Text) (chunkType : ChunkType) (n : Nat) :
    (makeChunk svc content chunkType path sourceId n).Sound svc :=
  ⟨rfl, rfl, rfl⟩

theorem sound_append (hraw : ∀ c ∈ raw, c.Sound svc) (hc : c.Sound svc) :
    ∀ d ∈ raw ++ [c], d.Sound svc := by
  intro d hd
  rcases List.mem_append.mp hd with hd | hd
  · exact hraw d hd
  · obtain rfl := List.mem_singleton.mp hd
    exact hc

theorem sound_addText (hraw : ∀ c ∈ raw, c.Sound svc) :
    ∀ c ∈ addText svc sourceId path raw t, c.Sound svc := by
  unfold addText
  dsimp only
  split
  · exact hraw
  · exact sound_append hraw (sound_makeChunk _ _ _)

theorem sound_addPiece (hraw : ∀ c ∈ raw, c.Sound svc)
    (h : addPiece svc sourceId path raw t = .ok raw') : ∀ c ∈ raw', c.Sound svc := by
  obtain ⟨expanded, -, h⟩ := Fallible.bind_eq_ok.mp h
  obtain rfl := Except.ok.inj h
  have hall : ∀ (fps : List Text) (raw : List Chunk), (∀ c ∈ raw, c.Sound svc) →
      ∀ c ∈ fps.foldl (addText svc sourceId path) raw, c.Sound svc := by
    intro fps
    induction fps with
    | nil => exact fun raw hraw => hraw
    | cons fp fps ih => exact fun raw hraw => ih _ (sound_addText hraw)
  exact hall _ _ hraw

theorem sound_addSegment {segment : Text × Bool} (hraw : ∀ c ∈ raw, c.Sound svc)
    (h : addSegment svc sourceId tables path raw segment = .ok raw') : ∀ c ∈ raw', c.Sound svc := by
  unfold addSegment at h
  split at h
  · obtain ⟨table, -, h⟩ := Fallible.bind_eq_ok.mp h
    obtain rfl := Except.ok.inj h
    exact sound_append hraw (sound_makeChunk _ _ _)
  · dsimp only at h
    split at h
    · obtain rfl := Except.ok.inj h
      exact hraw
    · exact Fallible.foldlM_keeps (P := fun raw => ∀ c ∈ raw, c.Sound svc)
        (fun _ _ _ => sound_addPiece) hraw h

/-- The chunks that the splitter gives are sound. -/
theorem sound_docs (h : docs.foldlM (addDoc svc sourceId tables) [] = .ok raw) :
    ∀ c ∈ raw, c.Sound svc :=
  Fallible.foldlM_keeps (P := fun raw => ∀ c ∈ raw, c.Sound svc)
    (fun _ _ _ hraw hdoc => Fallible.foldlM_keeps (P := fun raw => ∀ c ∈ raw, c.Sound svc)
      (fun _ _ _ => sound_addSegment) hraw hdoc) (by simp) h

/-! Merging. -/

/-- The chunks of one result: one chunk, or texts under the same headings. -/
structure MadeOf (svc : ChunkingService) (r : Chunk) (group : List Chunk) : Prop where
  content : r.content = joinWith mergeJoin (group.map (·.content))
  place : ∀ c ∈ group, c.headerPath = r.headerPath ∧ c.chunkType = r.chunkType
  single : (∃ c, group = [c]) ∨
    2 ≤ group.length ∧ r.chunkType = .text ∧ r.content.length ≤ svc.maxChars

theorem joinWith_concat {sep : Text} {ts : List Text} (hts : ts ≠ []) (t : Text) :
    joinWith sep (ts ++ [t]) = joinWith sep ts ++ (sep ++ t) := by
  induction ts with
  | nil => exact absurd rfl hts
  | cons u ts ih =>
    cases ts with
    | nil => simp [joinWith, List.intercalate]
    | cons v ts =>
      have hrest := ih (List.cons_ne_nil _ _)
      simp only [joinWith, List.intercalate, List.cons_append, List.intersperse_cons_cons,
        List.flatten_cons] at hrest ⊢
      rw [hrest]
      simp

theorem madeOf_self (c : Chunk) (n : Nat) : MadeOf svc { c with chunkIndex := n } [c] where
  content := by simp [joinWith, List.intercalate]
  place := by simp
  single := .inl ⟨c, rfl⟩

theorem MadeOf.ne (h : MadeOf svc r group) : group ≠ [] := by
  rcases h.single with ⟨c, rfl⟩ | ⟨hlen, -⟩
  · simp
  · rintro rfl
    simp at hlen

theorem madeOf_merge (h : MadeOf svc last group) (hmerge : canMerge svc last c) :
    MadeOf svc (mergeChunks svc last c) (group ++ [c]) := by
  simp only [canMerge, Bool.and_eq_true, decide_eq_true_eq] at hmerge
  obtain ⟨⟨⟨⟨hc, hlast⟩, hpath⟩, hlen⟩, -⟩ := hmerge
  have hpos := List.length_pos_of_ne_nil h.ne
  refine ⟨?_, fun d hd => ?_, .inr ⟨?_, hlast, ?_⟩⟩
  · rw [List.map_append, List.map_singleton, joinWith_concat (by simpa using h.ne), ← h.content]
    rfl
  · rcases List.mem_append.mp hd with hd | hd
    · exact h.place d hd
    · obtain rfl := List.mem_singleton.mp hd
      exact ⟨hpath.symm, hc.trans hlast.symm⟩
  · rw [List.length_append, List.length_singleton]
    omega
  · simp only [mergeChunks, List.length_append]
    omega

theorem sound_merge (hbreak : svc.isWord '\n' = false) (hlast : last.Sound svc) (c : Chunk) :
    (mergeChunks svc last c).Sound svc where
  charCount := rfl
  numbers := by
    simp only [mergeChunks]
    rw [hasNumbers_join, hlast.numbers]
  properNouns := by
    simp only [mergeChunks]
    rw [hasProperNouns_join hbreak, hlast.properNouns]

theorem extends_mergeStep (hbreak : svc.isWord '\n' = false) :
    Merging.Extends (fun r group => MadeOf svc r group ∧ ((∀ c ∈ group, c.Sound svc) → r.Sound svc))
      (mergeStep svc) := by
  intro result c
  rcases mergeStep_cases svc result c with heq | ⟨before, last, rfl, hmerge, heq⟩
  · refine .inl ⟨_, heq, madeOf_self c _, fun h => ?_⟩
    have hc := h c (by simp)
    exact ⟨hc.1, hc.2, hc.3⟩
  · refine .inr ⟨before, last, _, rfl, heq, fun group hgroup => ?_⟩
    refine ⟨madeOf_merge hgroup.1 hmerge, fun h => sound_merge hbreak (hgroup.2 fun d hd => ?_) c⟩
    exact h d (List.mem_append_left _ hd)

theorem indices_mergeStep (h : result.map (·.chunkIndex) = List.range result.length) (c : Chunk) :
    (mergeStep svc result c).map (·.chunkIndex) = List.range (mergeStep svc result c).length := by
  rcases mergeStep_cases svc result c with heq | ⟨before, last, rfl, -, heq⟩
  · rw [heq]
    simp [h, List.range_succ]
  · rw [heq]
    simpa [mergeChunks] using h

theorem indices_mergeShort (svc : ChunkingService) (chunks : List Chunk) :
    (mergeShort svc chunks).map (·.chunkIndex) = List.range (mergeShort svc chunks).length := by
  have hall : ∀ (chunks result : List Chunk),
      result.map (·.chunkIndex) = List.range result.length →
      (chunks.foldl (mergeStep svc) result).map (·.chunkIndex) =
        List.range (chunks.foldl (mergeStep svc) result).length := by
    intro chunks
    induction chunks with
    | nil => exact fun result h => h
    | cons c chunks ih => exact fun result h => ih _ (indices_mergeStep h c)
  exact hall chunks [] rfl

theorem MadeOf.short (h : MadeOf svc r group) (htype : r.chunkType = .text)
    (hshort : ∀ c ∈ group, c.chunkType = .text → c.content.length ≤ svc.maxChars) :
    r.content.length ≤ svc.maxChars := by
  rcases h.single with ⟨c, rfl⟩ | ⟨-, -, hlen⟩
  · have hcontent : r.content = c.content := by simpa [joinWith, List.intercalate] using h.content
    rw [hcontent]
    exact hshort c (by simp) ((h.place c (by simp)).2.trans htype)
  · exact hlen

/-- Joining short chunks keeps their texts in order and joins texts under the same headings only;
the results are numbered from zero and say of themselves what is true of their texts, and none gets
too long. -/
theorem mergeShort_spec (hbreak : svc.isWord '\n' = false)
    (h : docs.foldlM (addDoc svc sourceId tables) [] = .ok raw) :
    (∃ groups : List (List Chunk), groups.flatten = raw ∧
        List.Forall₂ (MadeOf svc) (mergeShort svc raw) groups) ∧
      (mergeShort svc raw).map (·.chunkIndex) = List.range (mergeShort svc raw).length ∧
      (∀ r ∈ mergeShort svc raw, r.Sound svc) ∧
      ((∀ c ∈ raw, c.chunkType = .text → c.content.length ≤ svc.maxChars) →
        ∀ r ∈ mergeShort svc raw, r.chunkType = .text → r.content.length ≤ svc.maxChars) := by
  obtain ⟨groups, hflat, hgroups⟩ := Merging.exists_groups (extends_mergeStep hbreak) raw
  have hmem : ∀ r ∈ mergeShort svc raw, ∃ group, (∀ c ∈ group, c ∈ raw) ∧ MadeOf svc r group ∧
      ((∀ c ∈ group, c.Sound svc) → r.Sound svc) := by
    intro r hr
    obtain ⟨group, hgroup, hmade⟩ := Merging.exists_of_mem hgroups hr
    refine ⟨group, fun c hc => ?_, hmade⟩
    rw [← hflat]
    exact List.mem_flatten.mpr ⟨group, hgroup, hc⟩
  refine ⟨⟨groups, hflat, hgroups.imp fun _ _ hmade => hmade.1⟩, indices_mergeShort svc raw,
    fun r hr => ?_, fun hshort r hr htype => ?_⟩
  · obtain ⟨group, hsub, -, hsound⟩ := hmem r hr
    exact hsound fun c hc => sound_docs h c (hsub c hc)
  · obtain ⟨group, hsub, hmade, -⟩ := hmem r hr
    exact hmade.short htype fun c hc => hshort c (hsub c hc)

def paperId : Uuid := ⟨List.replicate 32 'a', rfl, by decide⟩

def shortSvc : ChunkingService := ⟨uncut, 8, 20, Char.isAlphanum⟩

def shortRaw : List Chunk :=
  [makeChunk shortSvc "GDP 3%".toList .text [] paperId 0,
    makeChunk shortSvc "MOU".toList .text [] paperId 1]

theorem mergeShort_spec_short :
    (mergeShort shortSvc shortRaw).map (·.content) = ["GDP 3%\n\nMOU".toList] ∧
      ∀ r ∈ mergeShort shortSvc shortRaw, r.Sound shortSvc := by
  have hraw : [wholeDoc "GDP 3%".toList, wholeDoc "MOU".toList].foldlM
      (addDoc shortSvc paperId []) [] = .ok shortRaw := rfl
  exact ⟨rfl, (mergeShort_spec rfl hraw).2.2.1⟩

end RownRg.Indexing

import RownRg.Indexing.Chunking
import RownRg.Lib.Fallible
import RownRg.Lib.Unread

/-! When the tables of a document come through chunking, and nothing else looks like one. -/

open PyText Regex

namespace RownRg.Indexing

variable {t u v w x y masked markdown : Text} {ts tables path : List Text} {ps qs : List (Piece Unit)}
  {segs : List (Text × Bool)} {seg : Text × Bool} {n : Nat} {svc : ChunkingService}
  {sourceId : Uuid} {raw raw' chunks : List Chunk} {c : Chunk}

/-! The masked text: what stands between the tables, and the placeholders. -/

def interleave : Nat → List Text → Text
  | _, [] => []
  | _, [t] => t
  | n, t :: ts => t ++ (placeholder n ++ interleave (n + 1) ts)

theorem interleave_cons (hts : ts ≠ []) :
    interleave n (t :: ts) = t ++ (placeholder n ++ interleave (n + 1) ts) := by
  cases ts with
  | nil => exact absurd rfl hts
  | cons t' ts => rfl

theorem maskPieces_masked (n : Nat) (ps : List (Piece Unit)) :
    (maskPieces n ps).1 = interleave n (gaps ps) := by
  induction ps generalizing n with
  | nil => rfl
  | cons p ps ih =>
    cases p with
    | plain c =>
      obtain ⟨w, ws, hgaps⟩ := List.exists_cons_of_ne_nil (gaps_ne_nil ps)
      have hmask : (maskPieces n (.plain c :: ps)).1 = c :: (maskPieces n ps).1 := rfl
      have hcons : gaps (.plain c :: ps) = (c :: w) :: ws := by simp [gaps, hgaps]
      rw [hmask, ih, hgaps, hcons]
      cases ws <;> rfl
    | hit m =>
      have hmask : (maskPieces n (.hit m :: ps)).1 =
          placeholder n ++ (maskPieces (n + 1) ps).1 := rfl
      have hcons : gaps (.hit m :: ps) = [] :: gaps ps := rfl
      rw [hmask, ih, hcons, interleave_cons (gaps_ne_nil ps), List.nil_append]

theorem length_maskPieces (n : Nat) (ps : List (Piece Unit)) :
    (maskPieces n ps).2.length + 1 = (gaps ps).length := by
  induction ps generalizing n with
  | nil => rfl
  | cons p ps ih =>
    cases p with
    | plain c =>
      obtain ⟨w, ws, hgaps⟩ := List.exists_cons_of_ne_nil (gaps_ne_nil ps)
      have hcons : gaps (.plain c :: ps) = (c :: w) :: ws := by simp [gaps, hgaps]
      have hmask : (maskPieces n (.plain c :: ps)).2 = (maskPieces n ps).2 := rfl
      rw [hmask, ih, hcons, hgaps]
      rfl
    | hit m =>
      have hmask : (maskPieces n (.hit m :: ps)).2 =
          rstripNewlines m.text :: (maskPieces (n + 1) ps).2 := rfl
      have hcons : gaps (.hit m :: ps) = [] :: gaps ps := rfl
      rw [hmask, List.length_cons, ih, hcons, List.length_cons]

/-- Every table is found, and what is found between the tables besides. -/
theorem length_hits_interleave (hts : ts ≠ []) :
    (hits (placeholderRe.pieces (interleave n ts))).length + 1 =
      ts.length + (ts.map fun t => (hits (placeholderRe.pieces t)).length).sum := by
  induction ts generalizing n with
  | nil => exact absurd rfl hts
  | cons t ts ih =>
    cases ts with
    | nil => simp [interleave, Nat.add_comm]
    | cons t' ts =>
      obtain ⟨m, -, hpieces⟩ := pieces_placeholder (isPlaceholder_placeholder n) t
        (interleave (n + 1) (t' :: ts))
      have hrest := ih (n := n + 1) (List.cons_ne_nil _ _)
      have hhit : hits (.hit m :: placeholderRe.pieces (interleave (n + 1) (t' :: ts))) =
          m :: hits (placeholderRe.pieces (interleave (n + 1) (t' :: ts))) := rfl
      rw [interleave_cons (List.cons_ne_nil _ _), hpieces, hits_append, hhit, List.length_append,
        List.length_cons, List.map_cons, List.sum_cons, List.length_cons]
      omega

/-- With nothing found between the tables, the placeholders are found in their order. -/
theorem hits_interleave (hnone : ∀ t ∈ ts, hits (placeholderRe.pieces t) = []) :
    (hits (placeholderRe.pieces (interleave n ts))).map (·.text) =
      (List.range' n (ts.length - 1)).map placeholder := by
  induction ts generalizing n with
  | nil => rfl
  | cons t ts ih =>
    obtain ⟨ht, hrest⟩ := List.forall_mem_cons.mp hnone
    cases ts with
    | nil => simp [interleave, ht]
    | cons t' ts =>
      obtain ⟨m, hm, hpieces⟩ := pieces_placeholder (isPlaceholder_placeholder n) t
        (interleave (n + 1) (t' :: ts))
      have hhit : hits (.hit m :: placeholderRe.pieces (interleave (n + 1) (t' :: ts))) =
          m :: hits (placeholderRe.pieces (interleave (n + 1) (t' :: ts))) := rfl
      have hlen : (t :: t' :: ts).length - 1 = (t' :: ts).length - 1 + 1 := by simp
      rw [interleave_cons (List.cons_ne_nil _ _), hpieces, hits_append, ht, hhit, List.nil_append,
        List.map_cons, hm, ih hrest, hlen, List.range'_succ, List.map_cons]

/-- A stretch of the masked text that is no placeholder stands between two tables. -/
theorem stretch_interleave (h : w.map Piece.plain <:+: placeholderRe.pieces (interleave n ts))
    (hts : ts ≠ []) : ∃ t ∈ ts, w.map Piece.plain <:+: placeholderRe.pieces t := by
  induction ts generalizing n with
  | nil => exact absurd rfl hts
  | cons t ts ih =>
    cases ts with
    | nil => exact ⟨t, List.mem_cons_self, h⟩
    | cons t' ts =>
      obtain ⟨m, -, hpieces⟩ := pieces_placeholder (isPlaceholder_placeholder n) t
        (interleave (n + 1) (t' :: ts))
      rw [interleave_cons (List.cons_ne_nil _ _), hpieces] at h
      have hm : Piece.hit m ∉ w.map Piece.plain := by simp
      rcases infix_part hm h with h | h
      · exact ⟨t, List.mem_cons_self, h⟩
      · obtain ⟨t'', ht'', hw⟩ := ih h (List.cons_ne_nil _ _)
        exact ⟨t'', List.mem_cons_of_mem _ ht'', hw⟩

theorem infix_of_stretch (h : w.map Piece.plain <:+: placeholderRe.pieces t) : w <:+: t := by
  obtain ⟨a, b, hab⟩ := h
  rw [← render_pieces placeholderRe t, ← hab, render_append, render_append, render_map_plain]
  exact ⟨render a, render b, rfl⟩

/-- A text between two tables, and what stands behind it. -/
theorem exists_tail (ht : t ∈ ts) : ∃ front tail, interleave n ts = front ++ (t ++ tail) ∧
    (tail = [] ∨ ∃ k e, tail = placeholder k ++ e) := by
  induction ts generalizing n with
  | nil => cases ht
  | cons t' ts ih =>
    cases ts with
    | nil =>
      obtain rfl := List.mem_singleton.mp ht
      exact ⟨[], [], by simp [interleave], .inl rfl⟩
    | cons t'' ts =>
      rw [interleave_cons (List.cons_ne_nil _ _)]
      rcases List.mem_cons.mp ht with rfl | ht
      · exact ⟨[], _, rfl, .inr ⟨n, _, rfl⟩⟩
      · obtain ⟨front, tail, heq, htail⟩ := ih (n := n + 1) ht
        refine ⟨t' ++ (placeholder n ++ front), tail, ?_, htail⟩
        rw [heq]
        simp only [List.append_assoc]

/-! The segments of a text. -/

theorem mem_segmentsFrom (h : (u, false) ∈ segmentsFrom t ps) :
    u.map Piece.plain <:+: t.map Piece.plain ++ ps := by
  have hpending : ∀ {t : Text}, (u, false) ∈ pending t → u = t := by
    intro t h
    unfold pending at h
    split at h
    · cases h
    · exact (Prod.mk.inj (List.mem_singleton.mp h)).1
  induction ps generalizing t with
  | nil =>
    obtain rfl := hpending h
    exact ⟨[], [], by simp⟩
  | cons p ps ih =>
    cases p with
    | plain c =>
      have hrest := ih (t := t ++ [c]) h
      rwa [List.map_append, List.map_singleton, List.append_assoc, List.singleton_append] at hrest
    | hit m =>
      rcases List.mem_append.mp h with h | h
      · obtain rfl := hpending h
        exact ⟨[], .hit m :: ps, by simp⟩
      · rcases List.mem_cons.mp h with h | h
        · cases h
        · obtain ⟨a, b, hab⟩ := ih (t := []) h
          refine ⟨t.map Piece.plain ++ .hit m :: a, b, ?_⟩
          rw [← List.nil_append ps, ← List.map_nil (f := Piece.plain), ← hab]
          simp

theorem placeholders_segmentsFrom (t : Text) (ps : List (Piece Unit)) :
    ((segmentsFrom t ps).filter (·.2)).map (·.1) = (hits ps).map (·.text) := by
  have hpending : ∀ t : Text, (pending t).filter (·.2) = [] := by
    intro t
    unfold pending
    split <;> rfl
  induction ps generalizing t with
  | nil => simp [segmentsFrom, hpending, hits]
  | cons p ps ih =>
    cases p with
    | plain c => exact ih (t ++ [c])
    | hit m =>
      have hhit : hits (.hit m :: ps) = m :: hits ps := rfl
      rw [segmentsFrom, List.filter_append, hpending, List.nil_append,
        List.filter_cons_of_pos rfl, List.map_cons, ih, hhit, List.map_cons]

theorem segmentsFrom_eq_nil (h : segmentsFrom t ps = []) : t = [] ∧ ps = [] := by
  induction ps generalizing t with
  | nil =>
    unfold segmentsFrom pending at h
    split at h
    · exact ⟨List.isEmpty_iff.mp ‹_›, rfl⟩
    · cases h
  | cons p ps ih =>
    cases p with
    | plain c => exact absurd (ih h).1 (by simp)
    | hit m => exact absurd (List.append_eq_nil_iff.mp h).2 (List.cons_ne_nil _ _)

/-- Without a piece the text is one segment, and empty. -/
theorem splitByPlaceholder_cases (t : Text) :
    splitByPlaceholder t = segmentsFrom [] (placeholderRe.pieces t) ∨
      t = [] ∧ splitByPlaceholder t = [([], false)] := by
  unfold splitByPlaceholder
  simp only
  split
  · rename_i hempty
    obtain ⟨-, hps⟩ := segmentsFrom_eq_nil (List.isEmpty_iff.mp hempty)
    have ht : t = [] := by rw [← render_pieces placeholderRe t, hps]; rfl
    exact .inr ⟨ht, by rw [ht]⟩
  · exact .inl rfl

theorem mem_splitByPlaceholder (h : (u, false) ∈ splitByPlaceholder t) :
    u.map Piece.plain <:+: placeholderRe.pieces t := by
  rcases splitByPlaceholder_cases t with hsplit | ⟨-, hsplit⟩
  · rw [hsplit] at h
    simpa using mem_segmentsFrom h
  · rw [hsplit] at h
    obtain ⟨rfl, -⟩ := Prod.mk.inj (List.mem_singleton.mp h)
    exact List.nil_infix

theorem placeholders_splitByPlaceholder (t : Text) :
    ((splitByPlaceholder t).filter (·.2)).map (·.1) =
      (hits (placeholderRe.pieces t)).map (·.text) := by
  rcases splitByPlaceholder_cases t with hsplit | ⟨rfl, hsplit⟩
  · rw [hsplit, placeholders_segmentsFrom]
  · rw [hsplit]
    rfl

/-- The start of a text, or the end of a placeholder. -/
def Starts (ps : List (Piece Unit)) : Prop := ps = [] ∨ ∃ qs m, ps = qs ++ [.hit m]

/-- The end of a text, or the start of a placeholder. -/
def Ends (ps : List (Piece Unit)) : Prop := ps = [] ∨ ∃ m qs, ps = .hit m :: qs

theorem segmentsFrom_plain (t u : Text) (ps : List (Piece Unit)) :
    segmentsFrom t (u.map .plain ++ ps) = segmentsFrom (t ++ u) ps := by
  induction u generalizing t with
  | nil => simp
  | cons c u ih =>
    rw [List.map_cons, List.cons_append, segmentsFrom, ih, List.append_assoc, List.singleton_append]

theorem segmentsFrom_hit (t : Text) (m : Match Unit) (h : seg ∈ segmentsFrom [] qs) :
    seg ∈ segmentsFrom t (ps ++ .hit m :: qs) := by
  induction ps generalizing t with
  | nil => exact List.mem_append_right _ (List.mem_cons_of_mem _ h)
  | cons p ps ih =>
    cases p with
    | plain c => exact ih (t ++ [c])
    | hit m' => exact List.mem_append_right _ (List.mem_cons_of_mem _ (ih []))

/-- What stands between two placeholders is a segment. -/
theorem segment_of_pieces (hu : u ≠ []) (hps : Starts ps) (hqs : Ends qs)
    (h : placeholderRe.pieces t = ps ++ (u.map .plain ++ qs)) :
    (u, false) ∈ splitByPlaceholder t := by
  have hmem : (u, false) ∈ segmentsFrom [] (u.map .plain ++ qs) := by
    have hpending : pending u = [(u, false)] := by simp [pending, hu]
    rw [segmentsFrom_plain, List.nil_append]
    rcases hqs with rfl | ⟨m, qs, rfl⟩
    · rw [segmentsFrom, hpending]
      exact List.mem_cons_self
    · rw [segmentsFrom, hpending]
      exact List.mem_cons_self
  have hall : (u, false) ∈ segmentsFrom [] (placeholderRe.pieces t) := by
    rw [h]
    rcases hps with rfl | ⟨ps, m, rfl⟩
    · exact hmem
    · rw [List.append_assoc, List.singleton_append]
      exact segmentsFrom_hit [] m hmem
  rcases splitByPlaceholder_cases t with hsplit | ⟨rfl, -⟩
  · rw [hsplit]
    exact hall
  · exact absurd (mem_segmentsFrom hall) (by simpa using hu)

theorem pieces_eq_plain (h : hits (placeholderRe.pieces t) = []) :
    placeholderRe.pieces t = t.map .plain := by
  have hall : ∀ ps : List (Piece Unit), hits ps = [] → ps = (render ps).map .plain := by
    intro ps
    induction ps with
    | nil => intro _; rfl
    | cons p ps ih =>
      intro h
      cases p with
      | plain c => rw [render_plain, List.map_cons, ← ih h]
      | hit m => cases h
  rw [hall _ h, render_pieces]

/-- With nothing found between the tables, every text between them is a segment. -/
theorem segment_interleave (hnone : ∀ t ∈ ts, hits (placeholderRe.pieces t) = []) (ht : t ∈ ts)
    (hne : t ≠ []) : (t, false) ∈ splitByPlaceholder (interleave n ts) := by
  have hform : ∃ ps qs, placeholderRe.pieces (interleave n ts) = ps ++ (t.map .plain ++ qs) ∧
      Starts ps ∧ Ends qs := by
    induction ts generalizing n with
    | nil => cases ht
    | cons t' ts ih =>
      obtain ⟨hfirst, hrest⟩ := List.forall_mem_cons.mp hnone
      cases ts with
      | nil =>
        obtain rfl := List.mem_singleton.mp ht
        exact ⟨[], [], by simp [interleave, pieces_eq_plain hfirst], .inl rfl, .inl rfl⟩
      | cons t'' ts =>
        obtain ⟨m, -, hpieces⟩ := pieces_placeholder (isPlaceholder_placeholder n) t'
          (interleave (n + 1) (t'' :: ts))
        rw [interleave_cons (List.cons_ne_nil _ _), hpieces]
        rcases List.mem_cons.mp ht with rfl | ht
        · exact ⟨[], _, by rw [pieces_eq_plain hfirst]; rfl, .inl rfl, .inr ⟨m, _, rfl⟩⟩
        · obtain ⟨ps, qs, heq, hps, hqs⟩ := ih (n := n + 1) hrest ht
          refine ⟨placeholderRe.pieces t' ++ .hit m :: ps, qs, ?_, .inr ?_, hqs⟩
          · rw [heq]
            simp only [List.append_assoc, List.cons_append]
          · rcases hps with rfl | ⟨ps, m', rfl⟩
            · exact ⟨placeholderRe.pieces t', m, rfl⟩
            · exact ⟨placeholderRe.pieces t' ++ .hit m :: ps, m', by simp⟩
  obtain ⟨ps, qs, heq, hps, hqs⟩ := hform
  exact segment_of_pieces hne hps hqs heq

/-! What a run adds to the chunks. -/

def tableContents (chunks : List Chunk) : List Text :=
  (chunks.filter (·.chunkType = .table)).map (·.content)

/-- The tables that are added, and what holds of every text that is added. -/
structure Adds (P : Text → Prop) (contents : List Text) (raw raw' : List Chunk) : Prop where
  tables : tableContents raw' = tableContents raw ++ contents
  texts : ∀ c ∈ raw', c.chunkType = .text → c ∈ raw ∨ P c.content

section

variable {P Q : Text → Prop} {contents contents' : List Text} {raw'' : List Chunk} {α : Type}
  {f : List Chunk → α → Except ChunkError (List Chunk)} {as : List α}

theorem Adds.refl (P : Text → Prop) (raw : List Chunk) : Adds P [] raw raw :=
  ⟨(List.append_nil _).symm, fun _ hc _ => .inl hc⟩

theorem Adds.trans (h : Adds P contents raw raw') (h' : Adds P contents' raw' raw'') :
    Adds P (contents ++ contents') raw raw'' := by
  refine ⟨by rw [h'.tables, h.tables, List.append_assoc], fun c hc htype => ?_⟩
  rcases h'.texts c hc htype with hc | hP
  · exact h.texts c hc htype
  · exact .inr hP

theorem Adds.mono (h : Adds P contents raw raw') (hPQ : ∀ t, P t → Q t) :
    Adds Q contents raw raw' :=
  ⟨h.tables, fun c hc htype => (h.texts c hc htype).imp_right (hPQ c.content)⟩

theorem foldlM_adds (P : α → Text → Prop) (contents : α → List Text)
    (h : ∀ a ∈ as, ∀ raw raw', f raw a = .ok raw' → Adds (P a) (contents a) raw raw')
    (hrun : as.foldlM f raw = .ok raw') :
    Adds (fun t => ∃ a ∈ as, P a t) (as.flatMap contents) raw raw' := by
  induction as generalizing raw with
  | nil =>
    obtain rfl := Except.ok.inj hrun
    exact .refl _ raw
  | cons a as ih =>
    obtain ⟨hfirst, hrest⟩ := List.forall_mem_cons.mp h
    rw [List.foldlM_cons] at hrun
    obtain ⟨mid, hmid, hrun⟩ := Fallible.bind_eq_ok.mp hrun
    have hstart := (hfirst raw mid hmid).mono (Q := fun t => ∃ b ∈ a :: as, P b t)
      fun t ht => ⟨a, List.mem_cons_self, ht⟩
    have hend := (ih hrest hrun).mono (Q := fun t => ∃ b ∈ a :: as, P b t)
      fun t ⟨b, hb, ht⟩ => ⟨b, List.mem_cons_of_mem a hb, ht⟩
    exact hstart.trans hend

theorem foldlM_succeeds (h : ∀ a ∈ as, ∀ raw, ∃ raw', f raw a = .ok raw') (raw : List Chunk) :
    ∃ raw', as.foldlM f raw = .ok raw' := by
  induction as generalizing raw with
  | nil => exact ⟨raw, rfl⟩
  | cons a as ih =>
    obtain ⟨hfirst, hrest⟩ := List.forall_mem_cons.mp h
    obtain ⟨mid, hmid⟩ := hfirst raw
    obtain ⟨raw', hraw'⟩ := ih hrest mid
    exact ⟨raw', by rw [List.foldlM_cons]; exact Fallible.bind_eq_ok.mpr ⟨mid, hmid, hraw'⟩⟩

theorem foldlM_step {a : α} (hrun : as.foldlM f raw = .ok raw') (ha : a ∈ as) :
    ∃ r r', f r a = .ok r' := by
  induction as generalizing raw with
  | nil => cases ha
  | cons b as ih =>
    rw [List.foldlM_cons] at hrun
    obtain ⟨mid, hmid, hrun⟩ := Fallible.bind_eq_ok.mp hrun
    rcases List.mem_cons.mp ha with rfl | ha
    · exact ⟨raw, mid, hmid⟩
    · exact ih hrun ha

end

/-- Every placeholder in the piece is whole. -/
def Whole (piece : Text) : Prop :=
  count opening piece = (placeholderRe.finditer piece).length ∧
    count closing piece = (placeholderRe.finditer piece).length

theorem verify_eq_ok : verifyNoSplitPlaceholder t = .ok u ↔ Whole t ∧ u = t := by
  unfold verifyNoSplitPlaceholder Whole
  by_cases ho : count opening t = (placeholderRe.finditer t).length
  · by_cases hc : count closing t = (placeholderRe.finditer t).length
    · simp [ho, hc, eq_comm]
    · simp [ho, hc]
  · simp [ho]

/-- Where the text of a chunk comes from: a piece of a segment, with nothing split in it. -/
def Origin (t content : Text) : Prop :=
  ∃ piece, piece <:+: t ∧ Whole piece ∧ content <:+: piece

theorem strip_stretch (t : Text) : strip t <:+: t := by
  obtain ⟨u, v, -, -, ht⟩ := exists_strip t
  exact ⟨u, v, by rw [List.append_assoc, ← ht]⟩

theorem adds_addText {P : Text → Prop} {fp : Text} (h : P (strip fp)) :
    Adds P [] raw (addText svc sourceId path raw fp) := by
  unfold addText
  simp only
  split
  · exact .refl P raw
  · refine ⟨by simp [tableContents, makeChunk], fun c hc _ => ?_⟩
    rcases List.mem_append.mp hc with hc | hc
    · exact .inl hc
    · obtain rfl := List.mem_singleton.mp hc
      exact .inr h

theorem adds_foldl {P : Text → Prop} {parts : List Text} (h : ∀ fp ∈ parts, P (strip fp)) :
    Adds P [] raw (parts.foldl (addText svc sourceId path) raw) := by
  induction parts generalizing raw with
  | nil => exact .refl P raw
  | cons fp parts ih =>
    obtain ⟨hfp, hrest⟩ := List.forall_mem_cons.mp h
    exact (adds_addText hfp).trans (ih hrest)

theorem adds_addPiece (ht : u <:+: t) (h : addPiece svc sourceId path raw u = .ok raw') :
    Adds (Origin t) [] raw raw' := by
  obtain ⟨expanded, hverify, heq⟩ := Fallible.bind_eq_ok.mp h
  obtain ⟨hwhole, rfl⟩ := verify_eq_ok.1 hverify
  obtain rfl := Except.ok.inj heq
  have hparts : ∀ fp ∈ enforceMax svc [expanded], Origin t (strip fp) := by
    intro fp hfp
    refine ⟨expanded, ht, hwhole, (strip_stretch fp).trans ?_⟩
    rw [enforceMax, List.flatMap_singleton] at hfp
    split at hfp
    · obtain rfl := List.mem_singleton.mp hfp
      exact List.infix_rfl
    · exact svc.splitters.hard_stretch expanded fp hfp
  exact adds_foldl hparts

/-- The table that a placeholder stands for. -/
def tableAt (tables : List Text) (segment : Text) : Text :=
  match tableOf tables segment with
  | .ok table => table
  | .error _ => []

theorem infix_of_cuts {parts : List Text} (h : Cuts t parts) (hu : u ∈ parts) : u <:+: t := by
  rw [← h.1]
  exact List.infix_of_mem_flatten hu

/-- The pieces of a segment that are cut further. -/
def piecesOf (svc : ChunkingService) (t : Text) : List Text :=
  if (strip t).length < svc.minChars then [strip t] else svc.splitters.semantic t

theorem infix_of_piecesOf (hu : u ∈ piecesOf svc t) : u <:+: t := by
  unfold piecesOf at hu
  split at hu
  · obtain rfl := List.mem_singleton.mp hu
    exact strip_stretch t
  · exact infix_of_cuts (svc.splitters.semantic_cuts t) hu

theorem adds_addSegment (h : addSegment svc sourceId tables path raw seg = .ok raw') :
    Adds (fun content => seg.2 = false ∧ Origin seg.1 content)
      (if seg.2 then [tableAt tables seg.1] else []) raw raw' := by
  obtain ⟨t, isPlaceholder⟩ := seg
  cases isPlaceholder with
  | true =>
    obtain ⟨table, htable, heq⟩ := Fallible.bind_eq_ok.mp h
    obtain rfl := Except.ok.inj heq
    have hat : tableAt tables t = table := by
      have htable : tableOf tables t = .ok table := htable
      rw [tableAt, htable]
    refine ⟨by simp [tableContents, makeChunk, hat], fun c hc htype => ?_⟩
    rcases List.mem_append.mp hc with hc | hc
    · exact .inl hc
    · obtain rfl := List.mem_singleton.mp hc
      cases htype
  | false =>
    have hrun : (if (strip t).isEmpty || isHeaderOnly (strip t) then .ok raw
        else (piecesOf svc t).foldlM (addPiece svc sourceId path) raw) = Except.ok raw' := h
    split at hrun
    · obtain rfl := Except.ok.inj hrun
      exact .refl _ raw
    · have hadds := foldlM_adds (fun _ => Origin t) (fun _ => [])
        (fun u hu raw raw' => adds_addPiece (infix_of_piecesOf hu)) hrun
      rw [List.flatMap_eq_nil_iff.mpr fun _ _ => rfl] at hadds
      exact hadds.mono fun content ⟨_, _, horigin⟩ => ⟨rfl, horigin⟩

/-- The segments of all parts of a document. -/
def allSegments (docs : List HeaderDoc) : List (Text × Bool) :=
  docs.flatMap fun doc => splitByPlaceholder doc.pageContent

theorem adds_docs {docs : List HeaderDoc}
    (h : docs.foldlM (addDoc svc sourceId tables) raw = .ok raw') :
    Adds (fun content => ∃ t, (t, false) ∈ allSegments docs ∧ Origin t content)
      (((allSegments docs).filter (·.2)).map fun seg => tableAt tables seg.1) raw raw' := by
  have hcontents : ∀ segs : List (Text × Bool),
      segs.flatMap (fun seg => if seg.2 then [tableAt tables seg.1] else []) =
        (segs.filter (·.2)).map fun seg => tableAt tables seg.1 := by
    intro segs
    induction segs with
    | nil => rfl
    | cons seg segs ih =>
      obtain ⟨t, isPlaceholder⟩ := seg
      cases isPlaceholder with
      | false => simpa using ih
      | true => simpa using ih
  have hdoc : ∀ doc ∈ docs, ∀ raw raw', addDoc svc sourceId tables raw doc = .ok raw' →
      Adds (fun content => ∃ t, (t, false) ∈ splitByPlaceholder doc.pageContent ∧ Origin t content)
        (((splitByPlaceholder doc.pageContent).filter (·.2)).map fun seg => tableAt tables seg.1)
        raw raw' := by
    intro doc _ raw raw' h
    have hadds := foldlM_adds (fun seg content => seg.2 = false ∧ Origin seg.1 content)
      (fun seg => if seg.2 then [tableAt tables seg.1] else [])
      (fun seg _ raw raw' => adds_addSegment) h
    rw [hcontents] at hadds
    refine hadds.mono ?_
    rintro content ⟨⟨t, b⟩, hmem, rfl, horigin⟩
    exact ⟨t, hmem, horigin⟩
  have hadds := foldlM_adds _ _ hdoc h
  have hall : docs.flatMap (fun doc =>
      ((splitByPlaceholder doc.pageContent).filter (·.2)).map fun seg => tableAt tables seg.1) =
        ((allSegments docs).filter (·.2)).map fun seg => tableAt tables seg.1 := by
    rw [← hcontents, allSegments, List.flatMap_assoc]
    simp only [hcontents]
  rw [hall] at hadds
  refine hadds.mono ?_
  rintro content ⟨doc, hmem, t, ht, horigin⟩
  exact ⟨t, List.mem_flatMap.mpr ⟨doc, hmem, ht⟩, horigin⟩

/-! Merging. -/

/-- No chunk of text has the mark in it. -/
def FreeOf (mark : Text) (chunks : List Chunk) : Prop :=
  ∀ c ∈ chunks, c.chunkType = .text → ¬ mark <:+: c.content

theorem free_join {mark : Text} (hmark : '\n' ∉ mark) (hu : ¬ mark <:+: u) (hv : ¬ mark <:+: v) :
    ¬ mark <:+: u ++ (mergeJoin ++ v) := by
  intro h
  have hjoin : u ++ (mergeJoin ++ v) = u ++ '\n' :: ([] ++ '\n' :: v) := rfl
  rw [hjoin] at h
  rcases infix_part hmark h with h | h
  · exact hu h
  · rcases infix_part hmark h with h | h
    · exact hu ((List.infix_nil.mp h) ▸ List.nil_infix)
    · exact hv h

theorem canMerge_text {last : Chunk} (h : canMerge svc last c) :
    c.chunkType = .text ∧ last.chunkType = .text := by
  simp only [canMerge, Bool.and_eq_true, decide_eq_true_eq] at h
  exact ⟨h.1.1.1.1, h.1.1.1.2⟩

/-- A step of the merging either numbers the chunk or joins it to the one before it. -/
theorem mergeStep_cases (svc : ChunkingService) (chunks : List Chunk) (c : Chunk) :
    mergeStep svc chunks c = chunks ++ [{ c with chunkIndex := chunks.length }] ∨
      ∃ before last, chunks = before ++ [last] ∧ canMerge svc last c ∧
        mergeStep svc chunks c = before ++ [mergeChunks svc last c] := by
  unfold mergeStep
  cases hlast : chunks.getLast? with
  | none => exact .inl rfl
  | some last =>
    simp only
    split
    · rename_i hmerge
      exact .inr ⟨chunks.dropLast, last, (List.dropLast_append_getLast? last hlast).symm, hmerge, rfl⟩
    · exact .inl rfl

theorem tables_mergeStep (svc : ChunkingService) (chunks : List Chunk) (c : Chunk) :
    tableContents (mergeStep svc chunks c) = tableContents chunks ++ tableContents [c] := by
  rcases mergeStep_cases svc chunks c with h | ⟨before, last, rfl, hmerge, h⟩
  · rw [h]
    cases htype : c.chunkType <;> simp [tableContents, htype]
  · obtain ⟨hc, hlast⟩ := canMerge_text hmerge
    rw [h]
    simp [tableContents, mergeChunks, hc, hlast]

theorem free_mergeStep (svc : ChunkingService) {mark : Text} (hmark : '\n' ∉ mark)
    (hc : FreeOf mark [c]) (hchunks : FreeOf mark chunks) :
    FreeOf mark (mergeStep svc chunks c) := by
  intro d hd htype
  rcases mergeStep_cases svc chunks c with h | ⟨before, last, rfl, hmerge, h⟩
  · rw [h] at hd
    rcases List.mem_append.mp hd with hd | hd
    · exact hchunks d hd htype
    · obtain rfl := List.mem_singleton.mp hd
      exact hc c List.mem_cons_self htype
  · obtain ⟨hctype, hlast⟩ := canMerge_text hmerge
    rw [h] at hd
    rcases List.mem_append.mp hd with hd | hd
    · exact hchunks d (List.mem_append_left _ hd) htype
    · obtain rfl := List.mem_singleton.mp hd
      have hmem : last ∈ before ++ [last] := List.mem_append_right _ List.mem_cons_self
      exact free_join hmark (hchunks last hmem hlast) (hc c List.mem_cons_self hctype)

/-- Merging keeps every table. -/
theorem tables_mergeShort (svc : ChunkingService) (chunks : List Chunk) :
    tableContents (mergeShort svc chunks) = tableContents chunks := by
  have hall : ∀ done : List Chunk, tableContents (chunks.foldl (mergeStep svc) done) =
      tableContents done ++ tableContents chunks := by
    induction chunks with
    | nil => exact fun done => (List.append_nil _).symm
    | cons c chunks ih =>
      intro done
      have hcons : tableContents (c :: chunks) = tableContents [c] ++ tableContents chunks := by
        cases hc : c.chunkType <;> simp [tableContents, hc]
      rw [List.foldl_cons, ih, tables_mergeStep, hcons, List.append_assoc]
  exact hall []

/-- Merging brings in no mark that has no line break. -/
theorem free_mergeShort (svc : ChunkingService) {mark : Text} (hmark : '\n' ∉ mark)
    (h : FreeOf mark chunks) : FreeOf mark (mergeShort svc chunks) := by
  have hall : ∀ done : List Chunk, FreeOf mark done →
      FreeOf mark (chunks.foldl (mergeStep svc) done) := by
    induction chunks with
    | nil => exact fun done hdone => hdone
    | cons c chunks ih =>
      intro done hdone
      have hc : FreeOf mark [c] := fun d hd =>
        h d (List.mem_singleton.mp hd ▸ List.mem_cons_self)
      exact ih (fun d hd => h d (List.mem_cons_of_mem c hd)) (mergeStep svc done c)
        (free_mergeStep svc hmark hc hdone)
  exact hall [] fun _ hd => absurd hd (by simp)

/-! What the placeholders stand for. -/

theorem tableOf_placeholder {k : Nat} (h : k < tables.length) :
    tableOf tables (placeholder k) = .ok tables[k] := by
  have hfirst : placeholderRe.first [] (placeholder k) =
      some (⟨placeholder k, [((), ofNat k)]⟩, []) :=
    first_placeholder.2 ⟨ofNat k, ofNat_ne_nil, fun _ => isDigit_of_mem_ofNat,
      (List.append_nil _).symm, rfl⟩
  have hmatch : placeholderRe.matchStart (placeholder k) =
      some ⟨placeholder k, [((), ofNat k)]⟩ := by
    rw [matchStart, hfirst]
    rfl
  have hgroup : (Match.mk (placeholder k) [((), ofNat k)]).group () = some (ofNat k) := rfl
  rw [tableOf, hmatch]
  simp only [hgroup, Option.getD_some, natOf_ofNat, List.getElem?_eq_getElem h]

theorem tablesAt (tables : List Text) :
    ((List.range' 0 tables.length).map placeholder).map (tableAt tables) = tables := by
  refine List.ext_getElem (by simp) fun k hk hk' => ?_
  have hat : tableAt tables (placeholder k) = tables[k] := by
    rw [tableAt, tableOf_placeholder hk']
  simpa using hat

/-- Cuts through no placeholder change nothing of what is found. -/
theorem pieces_cuts {parts : List Text} (h : Cuts t parts) :
    placeholderRe.pieces t = parts.flatMap placeholderRe.pieces := by
  obtain ⟨rfl, hcuts⟩ := h
  induction parts with
  | nil => rfl
  | cons u parts ih =>
    have hfirst : CutsBetween u parts.flatten := by simpa using hcuts [u] parts rfl
    have hrest : ∀ front back, parts = front ++ back → CutsBetween front.flatten back.flatten :=
      fun front back heq => (hcuts (u :: front) back (by rw [heq]; rfl)).tail
    rw [List.flatten_cons, pieces_cut hfirst, ih hrest, List.flatMap_cons]

/-- No table is found where there is no bar. -/
theorem hits_tablePattern (h : '|' ∉ t) : tablePattern.pieces t = t.map .plain := by
  have hfirst : ∀ c y x, c ≠ '|' → tablePattern.first x (c :: y) = none := by
    intro c y x hc
    have hrun : tablePattern.run ⟨x, c :: y, []⟩ = [] := by
      refine List.eq_nil_iff_forall_not_mem.mpr fun q hq => ?_
      obtain ⟨q', hq', -⟩ := mem_run_group.1 hq
      obtain ⟨u, hu, hq'⟩ := mem_run_seq.1 hq'
      have hsame : u = ⟨x, c :: y, []⟩ := by
        simp only [run] at hu
        split at hu
        · simpa using hu
        · cases hu
      subst hsame
      obtain ⟨z, hz, -⟩ := mem_run_seq.1 hq'
      obtain ⟨v, hv, -⟩ := mem_run_chr.1 hz
      exact hc (List.cons.inj hv).1
    rw [first, hrun]
    rfl
  have hstretch := piecesFrom_stretch (r := tablePattern) (w := t) (b := []) (x := [])
    fun y z hyz hz => by
      obtain ⟨c, z, rfl⟩ := List.exists_cons_of_ne_nil hz
      refine hfirst c _ _ fun hc => h ?_
      rw [hyz, hc]
      exact List.mem_append_right _ List.mem_cons_self
  rw [List.append_nil] at hstretch
  exact hstretch.trans (by rw [piecesFrom, List.length_nil, scan, List.map_nil, List.append_nil])

/-! When all goes well. -/

structure KeepsTables (markdown : Text) (chunks : List Chunk) : Prop where
  tables : tableContents chunks = (extractTables markdown).2
  foreign : ∀ c ∈ chunks, ∀ w, IsPlaceholder w → w <:+: c.content → w <:+: markdown
  kept : ∀ t ∈ tablePattern.split markdown, ∀ w, IsPlaceholder w ∨ w = closing → w <:+: t →
    ∃ c ∈ chunks, c.chunkType = .text ∧ w <:+: c.content

/-- Whatever the splitters do, the tables come through and nothing else looks like one. -/
def TableSafe (minChars maxChars : Nat) (isWord : Char → Bool) (sourceId : Uuid)
    (markdown : Text) : Prop :=
  ∀ splitters, ∃ chunks,
    chunkMarkdown ⟨splitters, minChars, maxChars, isWord⟩ markdown sourceId = .ok chunks ∧
      KeepsTables markdown chunks

/-- Nothing between the tables has the beginning or the end of a placeholder in it. -/
def Unmarked (markdown : Text) : Prop :=
  ∀ t ∈ tablePattern.split markdown, ¬ opening <:+: t ∧ ¬ closing <:+: t

theorem opening_of_placeholder (hw : IsPlaceholder w) (h : w <:+: t) : opening <:+: t := by
  obtain ⟨d, -, -, rfl⟩ := hw
  exact (List.prefix_append opening _).isInfix.trans h

theorem hits_nil_of_unmarked (h : ¬ opening <:+: t) : hits (placeholderRe.pieces t) = [] :=
  hits_eq_nil.2 fun _ hwt hw => h (opening_of_placeholder hw hwt)

theorem hits_nil_of_infix (h : hits (placeholderRe.pieces t) = []) (hu : u <:+: t) :
    hits (placeholderRe.pieces u) = [] :=
  hits_eq_nil.2 fun w hw => hits_eq_nil.1 h w (hw.trans hu)

theorem whole_of_unmarked (ho : ¬ opening <:+: t) (hc : ¬ closing <:+: t) : Whole t := by
  have hfull : (placeholderRe.finditer t).length = 0 := by
    rw [finditer, hits_nil_of_unmarked ho]
    rfl
  rw [Whole, hfull]
  exact ⟨(count_eq_zero (List.cons_ne_nil _ _)).mpr ho,
    (count_eq_zero (List.cons_ne_nil _ _)).mpr hc⟩

theorem segment_succeeds (hmarks : seg.2 = false → ¬ opening <:+: seg.1 ∧ ¬ closing <:+: seg.1)
    (htable : seg.2 = true → ∃ table, tableOf tables seg.1 = .ok table) (raw : List Chunk) :
    ∃ raw', addSegment svc sourceId tables path raw seg = .ok raw' := by
  obtain ⟨t, isPlaceholder⟩ := seg
  cases isPlaceholder with
  | true =>
    obtain ⟨table, htable⟩ := htable rfl
    exact ⟨_, Fallible.bind_eq_ok.mpr ⟨table, htable, rfl⟩⟩
  | false =>
    obtain ⟨ho, hc⟩ := hmarks rfl
    have hrun : addSegment svc sourceId tables path raw (t, false) =
        if (strip t).isEmpty || isHeaderOnly (strip t) then .ok raw
        else (piecesOf svc t).foldlM (addPiece svc sourceId path) raw := rfl
    rw [hrun]
    split
    · exact ⟨raw, rfl⟩
    · refine foldlM_succeeds (fun u hu raw => ?_) raw
      have hut := infix_of_piecesOf hu
      have hwhole := whole_of_unmarked (fun h => ho (h.trans hut)) fun h => hc (h.trans hut)
      exact ⟨_, Fallible.bind_eq_ok.mpr ⟨u, verify_eq_ok.2 ⟨hwhole, rfl⟩, rfl⟩⟩

theorem blank_of_strip (h : strip t = []) : ∀ c ∈ t, isSpace c := by
  obtain ⟨u, v, hu, hv, ht⟩ := exists_strip t
  rw [h, List.nil_append] at ht
  intro c hc
  rw [ht] at hc
  exact (List.mem_append.mp hc).elim (hu c) (hv c)

theorem pieces_of_blank (h : strip t = []) : tablePattern.pieces t = t.map .plain := by
  refine hits_tablePattern fun hbar => ?_
  have hspace := blank_of_strip h _ hbar
  revert hspace
  decide

theorem tables_eq_nil (h : (tablePattern.split markdown).length = 1) :
    (extractTables markdown).2 = [] := by
  have hlen := length_maskPieces 0 (tablePattern.pieces markdown)
  have hsplit : (gaps (tablePattern.pieces markdown)).length = 1 := h
  exact List.eq_nil_of_length_eq_zero (by rw [extractTables]; omega)

theorem infix_of_mem_tables (h : t ∈ (maskPieces n ps).2) : t <:+: render ps := by
  induction ps generalizing n with
  | nil => cases h
  | cons p ps ih =>
    cases p with
    | plain c => exact (ih h).trans (List.suffix_cons c _).isInfix
    | hit m =>
      rcases List.mem_cons.mp h with rfl | h
      · refine List.IsInfix.trans ?_ (List.prefix_append m.text (render ps)).isInfix
        unfold rstripNewlines
        have hsuffix := List.dropWhile_suffix (l := m.text.reverse) (· == '\n')
        have hfront := List.reverse_prefix.mpr hsuffix
        rw [List.reverse_reverse] at hfront
        exact hfront.isInfix
      · exact (ih h).trans (List.suffix_append m.text (render ps)).isInfix

section

variable {docs : List HeaderDoc}

theorem allPlaceholders (h : Cuts masked (docs.map (·.pageContent))) :
    ((allSegments docs).filter (·.2)).map (·.1) =
      (hits (placeholderRe.pieces masked)).map (·.text) := by
  rw [pieces_cuts h]
  clear h
  induction docs with
  | nil => rfl
  | cons doc docs ih =>
    have hcons : allSegments (doc :: docs) = splitByPlaceholder doc.pageContent ++ allSegments docs :=
      rfl
    rw [hcons, List.filter_append, List.map_append, placeholders_splitByPlaceholder, ih,
      List.map_cons, List.flatMap_cons, hits_append, List.map_append]

theorem text_of_segment (h : Cuts masked (docs.map (·.pageContent)))
    (hmem : (t, false) ∈ allSegments docs) : t.map Piece.plain <:+: placeholderRe.pieces masked := by
  obtain ⟨doc, hdoc, hmem⟩ := List.mem_flatMap.mp hmem
  refine (mem_splitByPlaceholder hmem).trans ?_
  rw [pieces_cuts h, List.flatMap_map, List.flatMap_def]
  exact List.infix_of_mem_flatten (List.mem_map.mpr ⟨doc, hdoc, rfl⟩)

end

theorem tableSafe_of_unmarked {minChars maxChars : Nat} {isWord : Char → Bool}
    (h : Unmarked markdown) : TableSafe minChars maxChars isWord sourceId markdown := by
  intro splitters
  have hkept : ∀ chunks : List Chunk, ∀ t ∈ tablePattern.split markdown, ∀ w,
      IsPlaceholder w ∨ w = closing → w <:+: t →
        ∃ c ∈ chunks, c.chunkType = .text ∧ w <:+: c.content := by
    rintro chunks t ht w (hw | rfl) hwt
    · exact absurd (opening_of_placeholder hw hwt) (h t ht).1
    · exact absurd hwt (h t ht).2
  have hempty : (extractTables markdown).2 = [] → KeepsTables markdown [] := fun htables =>
    ⟨htables.symm, fun c hc => absurd hc (by simp), hkept []⟩
  unfold chunkMarkdown
  by_cases hblank : strip markdown = []
  · rw [if_pos (by simp [hblank])]
    refine ⟨[], rfl, hempty (tables_eq_nil ?_)⟩
    rw [split, pieces_of_blank hblank, gaps_map_plain_nil]
    rfl
  rw [if_neg (by simpa using hblank)]
  have hne : tablePattern.split markdown ≠ [] := gaps_ne_nil _
  have hmasked : (extractTables markdown).1 = interleave 0 (tablePattern.split markdown) :=
    maskPieces_masked 0 _
  have hlen : (extractTables markdown).2.length + 1 = (tablePattern.split markdown).length :=
    length_maskPieces 0 _
  have hhits : (hits (placeholderRe.pieces (extractTables markdown).1)).map (·.text) =
      (List.range' 0 (extractTables markdown).2.length).map placeholder := by
    rw [hmasked, hits_interleave fun t ht => hits_nil_of_unmarked (h t ht).1]
    congr 2
    omega
  have hcuts := splitters.header_cuts (extractTables markdown).1
  simp only
  by_cases hdocs : splitters.header (extractTables markdown).1 = []
  · rw [if_pos (by simp [hdocs])]
    refine ⟨[], rfl, hempty ?_⟩
    rw [hdocs] at hcuts
    have hnil : (extractTables markdown).1 = [] := hcuts.1.symm
    rw [hnil] at hhits
    have hzero := congrArg List.length hhits
    simp only [pieces_nil, List.length_map, List.length_range'] at hzero
    exact List.eq_nil_of_length_eq_zero hzero.symm
  rw [if_neg (by simpa using hdocs)]
  generalize splitters.header (extractTables markdown).1 = docs at hcuts
  have hplaceholders := (allPlaceholders hcuts).trans hhits
  have hfree : ∀ t, (t, false) ∈ allSegments docs → ¬ opening <:+: t ∧ ¬ closing <:+: t := by
    intro t ht
    have hstretch := text_of_segment hcuts ht
    rw [hmasked] at hstretch
    obtain ⟨gap, hgap, hin⟩ := stretch_interleave hstretch hne
    have hinfix := infix_of_stretch hin
    exact ⟨fun ho => (h gap hgap).1 (ho.trans hinfix), fun hc => (h gap hgap).2 (hc.trans hinfix)⟩
  obtain ⟨raw, hraw⟩ : ∃ raw, docs.foldlM
      (addDoc ⟨splitters, minChars, maxChars, isWord⟩ sourceId (extractTables markdown).2) [] =
        .ok raw := by
    refine foldlM_succeeds (fun doc hdoc raw => foldlM_succeeds (fun seg hseg raw => ?_) raw) []
    have hall : seg ∈ allSegments docs := List.mem_flatMap.mpr ⟨doc, hdoc, hseg⟩
    refine segment_succeeds (fun hplain => ?_) (fun hplace => ?_) raw
    · obtain ⟨t, b⟩ := seg
      cases hplain
      exact hfree t hall
    · have hmem : seg.1 ∈ ((allSegments docs).filter (·.2)).map (·.1) :=
        List.mem_map.mpr ⟨seg, List.mem_filter.mpr ⟨hall, hplace⟩, rfl⟩
      rw [hplaceholders] at hmem
      obtain ⟨k, hk, heq⟩ := List.mem_map.mp hmem
      have hk : k < (extractTables markdown).2.length := by
        have := List.mem_range'_1.mp hk
        omega
      exact ⟨_, heq ▸ tableOf_placeholder hk⟩
  have hadds := adds_docs hraw
  have htables : tableContents raw = (extractTables markdown).2 := by
    have hmap : ((allSegments docs).filter (·.2)).map
        (fun seg => tableAt (extractTables markdown).2 seg.1) =
          (((allSegments docs).filter (·.2)).map (·.1)).map
            (tableAt (extractTables markdown).2) := by
      rw [List.map_map]
      rfl
    rw [hadds.tables, hmap, hplaceholders, tablesAt]
    rfl
  have hrawFree : FreeOf opening raw := by
    intro c hc htype
    rcases hadds.texts c hc htype with hnil | ⟨t, ht, piece, hpiece, -, hcontent⟩
    · cases hnil
    · exact fun ho => (hfree t ht).1 (ho.trans (hcontent.trans hpiece))
  have hbreak : '\n' ∉ opening := by decide
  have hmerged := tables_mergeShort ⟨splitters, minChars, maxChars, isWord⟩ raw
  have hmergedFree := free_mergeShort ⟨splitters, minChars, maxChars, isWord⟩ hbreak hrawFree
  refine ⟨_, Fallible.bind_eq_ok.mpr ⟨raw, hraw, rfl⟩, hmerged.trans htables, ?_, hkept _⟩
  intro c hc w hw hwc
  cases htype : c.chunkType with
  | text => exact absurd (opening_of_placeholder hw hwc) (hmergedFree c hc htype)
  | table =>
    have hmem : c.content ∈ tableContents (mergeShort ⟨splitters, minChars, maxChars, isWord⟩ raw) :=
      List.mem_map.mpr ⟨c, List.mem_filter.mpr ⟨hc, by simpa using htype⟩, rfl⟩
    rw [hmerged, htables] at hmem
    have hin := infix_of_mem_tables hmem
    rw [render_pieces] at hin
    exact hwc.trans hin

/-! When it does not: splitters that leave a text whole, or cut it once. -/

def wholeDoc (t : Text) : HeaderDoc := ⟨none, none, none, t⟩

theorem cuts_single (t : Text) : Cuts t [t] := by
  refine ⟨by simp, fun front back h x y hx hy _ => ?_⟩
  cases front with
  | nil => exact .inl (List.suffix_nil.mp hx)
  | cons u front =>
    obtain ⟨-, hnil⟩ := List.cons.inj h
    obtain ⟨-, rfl⟩ := List.append_eq_nil_iff.mp hnil.symm
    exact .inr (List.prefix_nil.mp hy)

theorem cuts_pair (h : CutsBetween u v) : Cuts (u ++ v) [u, v] := by
  refine ⟨by simp, fun front back heq => ?_⟩
  cases front with
  | nil => exact fun x y hx _ _ => .inl (List.suffix_nil.mp hx)
  | cons a front =>
    obtain ⟨rfl, hrest⟩ := List.cons.inj heq
    cases front with
    | nil =>
      obtain rfl : back = [v] := hrest.symm
      simpa using h
    | cons b front =>
      obtain ⟨rfl, hnil⟩ := List.cons.inj hrest
      obtain ⟨rfl, rfl⟩ := List.append_eq_nil_iff.mp hnil.symm
      exact fun x y _ hy _ => .inr (List.prefix_nil.mp hy)

/-- The splitters that cut one document in two and nothing else. -/
def cutOnce (u v : Text) (h : CutsBetween u v) : Splitters where
  header t := if t = u ++ v then [wholeDoc u, wholeDoc v] else [wholeDoc t]
  semantic t := [t]
  hard t := [t]
  header_cuts t := by
    by_cases ht : t = u ++ v
    · rw [if_pos ht, ht]
      exact cuts_pair h
    · rw [if_neg ht]
      exact cuts_single t
  semantic_cuts := cuts_single
  hard_stretch t p hp := by
    obtain rfl := List.mem_singleton.mp hp
    exact List.infix_rfl

/-- The splitters that cut nothing. -/
def uncut : Splitters where
  header t := [wholeDoc t]
  semantic t := [t]
  hard t := [t]
  header_cuts := cuts_single
  semantic_cuts := cuts_single
  hard_stretch t p hp := by
    obtain rfl := List.mem_singleton.mp hp
    exact List.infix_rfl

theorem opening_solid : ∀ c ∈ opening, isSpace c = false := by decide

theorem closing_solid : ∀ c ∈ closing, isSpace c = false := by decide

/-- A segment with an opening in it and no placeholder comes through only as a heading. -/
theorem header_of_opening (hsemantic : svc.splitters.semantic t = [t])
    (hnone : hits (placeholderRe.pieces t) = []) (hmark : opening <:+: t)
    (h : addSegment svc sourceId tables path raw (t, false) = .ok raw') :
    isHeaderOnly (strip t) := by
  have hrun : (if (strip t).isEmpty || isHeaderOnly (strip t) then .ok raw
      else (piecesOf svc t).foldlM (addPiece svc sourceId path) raw) = Except.ok raw' := h
  have hstrip : opening <:+: strip t := infix_strip opening_solid hmark
  have hne : strip t ≠ [] := by
    intro hnil
    rw [hnil, List.infix_nil] at hstrip
    cases hstrip
  by_contra hheader
  rw [if_neg (by simp [hne, hheader])] at hrun
  obtain ⟨u, hpieces, hut, hmarked⟩ : ∃ u, piecesOf svc t = [u] ∧ u <:+: t ∧ opening <:+: u := by
    unfold piecesOf
    split
    · exact ⟨strip t, rfl, strip_stretch t, hstrip⟩
    · exact ⟨t, hsemantic, List.infix_rfl, hmark⟩
  obtain ⟨r, r', hstep⟩ := foldlM_step hrun (hpieces ▸ List.mem_cons_self)
  obtain ⟨expanded, hverify, -⟩ := Fallible.bind_eq_ok.mp hstep
  obtain ⟨⟨ho, -⟩, -⟩ := verify_eq_ok.1 hverify
  rw [finditer, hits_nil_of_infix hnone hut] at ho
  exact (count_eq_zero (List.cons_ne_nil _ _)).mp ho hmarked

theorem not_headerOnly_opening (u : Text) : isHeaderOnly (strip (opening ++ u)) = false := by
  have hstrip : strip (opening ++ u) = opening ++ rstrip u :=
    strip_append_solid (by decide) (by decide) (List.cons_ne_nil _ _)
  obtain ⟨line, rest, hlines⟩ : ∃ line rest,
      (strip (opening ++ u)).splitOn '\n' = ('<' :: line) :: rest := by
    have hcons : strip (opening ++ u) =
        '<' :: ('<' :: '<' :: ("TABLE_".toList ++ rstrip u)) := hstrip
    rw [hcons, List.splitOn, List.splitOnP_cons_eq_if_modifyHead, if_neg (by decide)]
    obtain ⟨line, rest, h⟩ := List.exists_cons_of_ne_nil (List.splitOnP_ne_nil (· == '\n')
      ('<' :: '<' :: ("TABLE_".toList ++ rstrip u)))
    exact ⟨line, rest, by rw [h]; rfl⟩
  have hkeep : strip ('<' :: line) ≠ [] := by
    have h := strip_append_solid (u := ['<']) (t := line) (by decide) (by decide) (by simp)
    rw [List.singleton_append] at h
    rw [h]
    exact List.cons_ne_nil _ _
  have hhead : ((lstrip ('<' :: line)).head? == some '#') = false := rfl
  unfold isHeaderOnly
  simp only [hlines]
  rw [List.filter_cons_of_pos (by simpa using hkeep), List.all_cons, hhead]
  simp

theorem unmarked_of_blank (h : strip markdown = []) : Unmarked markdown := by
  intro t ht
  rw [split, pieces_of_blank h, gaps_map_plain_nil] at ht
  obtain rfl := List.mem_singleton.mp ht
  have hnot : ∀ {mark : Text}, mark ≠ [] → (∀ c ∈ mark, isSpace c = false) → ¬ mark <:+: t := by
    intro mark hne hmark hin
    obtain ⟨c, hc⟩ := List.exists_mem_of_ne_nil mark hne
    have hspace := blank_of_strip h c (hin.subset hc)
    rw [hmark c hc] at hspace
    cases hspace
  exact ⟨hnot (List.cons_ne_nil _ _) opening_solid, hnot (List.cons_ne_nil _ _) closing_solid⟩

theorem run_of_ok {splitters : Splitters} {minChars maxChars : Nat} {isWord : Char → Bool}
    (hblank : strip markdown ≠ []) (hdocs : splitters.header (extractTables markdown).1 ≠ [])
    (h : chunkMarkdown ⟨splitters, minChars, maxChars, isWord⟩ markdown sourceId = .ok chunks) :
    ∃ raw, (splitters.header (extractTables markdown).1).foldlM
        (addDoc ⟨splitters, minChars, maxChars, isWord⟩ sourceId (extractTables markdown).2) [] =
          .ok raw ∧ chunks = mergeShort ⟨splitters, minChars, maxChars, isWord⟩ raw := by
  unfold chunkMarkdown at h
  rw [if_neg (by simpa using hblank)] at h
  simp only at h
  rw [if_neg (by simpa using hdocs)] at h
  obtain ⟨raw, hraw, heq⟩ := Fallible.bind_eq_ok.mp h
  exact ⟨raw, hraw, (Except.ok.inj heq).symm⟩

section

variable {minChars maxChars : Nat} {isWord : Char → Bool}

/-- With the document left whole, a placeholder between the tables would give one table more. -/
theorem hits_nil_of_safe (hblank : strip markdown ≠ [])
    (h : TableSafe minChars maxChars isWord sourceId markdown) :
    ∀ t ∈ tablePattern.split markdown, hits (placeholderRe.pieces t) = [] := by
  obtain ⟨chunks, hok, hkeeps⟩ := h uncut
  obtain ⟨raw, hraw, rfl⟩ := run_of_ok hblank (List.cons_ne_nil _ _) hok
  have hne : tablePattern.split markdown ≠ [] := gaps_ne_nil _
  have hcuts := uncut.header_cuts (extractTables markdown).1
  have hadds := adds_docs hraw
  have hmerged : tableContents (mergeShort ⟨uncut, minChars, maxChars, isWord⟩ raw) =
      tableContents raw := tables_mergeShort _ raw
  have hlen := congrArg List.length (hmerged.symm.trans hkeeps.tables)
  have hcount : (((allSegments (uncut.header (extractTables markdown).1)).filter (·.2)).map
      (·.1)).length = (hits (placeholderRe.pieces (extractTables markdown).1)).length := by
    rw [allPlaceholders hcuts, List.length_map]
  have htables : (extractTables markdown).2.length + 1 = (tablePattern.split markdown).length :=
    length_maskPieces 0 _
  have hmasked : (extractTables markdown).1 = interleave 0 (tablePattern.split markdown) :=
    maskPieces_masked 0 _
  have hall := length_hits_interleave (n := 0) hne
  rw [← hmasked] at hall
  have hraw' : (tableContents raw).length =
      (hits (placeholderRe.pieces (extractTables markdown).1)).length := by
    rw [hadds.tables, ← hcount]
    simp [tableContents]
  intro t ht
  have hzero : ((tablePattern.split markdown).map
      fun t => (hits (placeholderRe.pieces t)).length).sum = 0 := by omega
  have hnone := List.sum_eq_zero_iff_forall_eq_nat.mp hzero _ (List.mem_map.mpr ⟨t, ht, rfl⟩)
  exact List.eq_nil_of_length_eq_zero hnone

theorem unmarked_of_safe (h : TableSafe minChars maxChars isWord sourceId markdown) :
    Unmarked markdown := by
  by_cases hblank : strip markdown = []
  · exact unmarked_of_blank hblank
  have hnone := hits_nil_of_safe hblank h
  have hmasked : (extractTables markdown).1 = interleave 0 (tablePattern.split markdown) :=
    maskPieces_masked 0 _
  intro t ht
  refine ⟨fun ho => ?_, fun hc => ?_⟩
  · -- Cut in front of the opening, the rest of the segment is no heading.
    obtain ⟨u, v, rfl⟩ := ho
    obtain ⟨front, tail, heq, htail⟩ := exists_tail (n := 0) ht
    have hcut : CutsBetween (front ++ u) (opening ++ (v ++ tail)) := cutsBetween_opening _ _
    have hwhole : (extractTables markdown).1 = (front ++ u) ++ (opening ++ (v ++ tail)) := by
      rw [hmasked, heq]
      simp only [List.append_assoc]
    obtain ⟨chunks, hok, -⟩ := h (cutOnce _ _ hcut)
    have hdocs : (cutOnce _ _ hcut).header (extractTables markdown).1 =
        [wholeDoc (front ++ u), wholeDoc (opening ++ (v ++ tail))] := if_pos hwhole
    obtain ⟨raw, hraw, -⟩ := run_of_ok hblank (by rw [hdocs]; exact List.cons_ne_nil _ _) hok
    rw [hdocs] at hraw
    obtain ⟨r, r', hdoc⟩ := foldlM_step hraw (List.mem_cons_of_mem _ List.mem_cons_self)
    have hnone' : hits (placeholderRe.pieces (opening ++ v)) = [] :=
      hits_nil_of_infix (hnone _ ht) ⟨u, [], by simp⟩
    have hseg : (opening ++ v, false) ∈ splitByPlaceholder (opening ++ (v ++ tail)) := by
      have hne : opening ++ v ≠ [] := List.cons_ne_nil _ _
      rcases htail with rfl | ⟨k, e, rfl⟩
      · have hends : Ends [] := .inl rfl
        refine segment_of_pieces hne (.inl rfl) hends ?_
        rw [List.append_nil, pieces_eq_plain hnone', List.nil_append, List.append_nil]
      · obtain ⟨m, -, hpieces⟩ :=
          pieces_placeholder (isPlaceholder_placeholder k) (opening ++ v) e
        have hends : Ends (.hit m :: placeholderRe.pieces e) := .inr ⟨m, _, rfl⟩
        refine segment_of_pieces hne (.inl rfl) hends ?_
        rw [← List.append_assoc, hpieces, pieces_eq_plain hnone', List.nil_append]
    obtain ⟨s, s', hstep⟩ := foldlM_step hdoc hseg
    have hheader := header_of_opening rfl hnone' (List.prefix_append opening v).isInfix hstep
    rw [not_headerOnly_opening] at hheader
    cases hheader
  · -- Left whole, the segment with the closing gives no text.
    obtain ⟨chunks, hok, hkeeps⟩ := h uncut
    obtain ⟨raw, hraw, rfl⟩ := run_of_ok hblank (List.cons_ne_nil _ _) hok
    have hfree : FreeOf closing raw := by
      intro c hcraw htype
      rcases (adds_docs hraw).texts c hcraw htype with hnil | ⟨s, hs, piece, hpiece, hwhole, hcontent⟩
      · cases hnil
      · have hseg : (s, false) ∈ splitByPlaceholder (extractTables markdown).1 := by
          simpa [allSegments, uncut, wholeDoc] using hs
        have hstretch := mem_splitByPlaceholder hseg
        rw [hmasked] at hstretch
        obtain ⟨gap, hgap, hin⟩ := stretch_interleave hstretch (gaps_ne_nil _)
        have hpieceNone : hits (placeholderRe.pieces piece) = [] :=
          hits_nil_of_infix (hnone gap hgap) (hpiece.trans (infix_of_stretch hin))
        have hzero : count closing piece = 0 := by
          rw [hwhole.2, finditer, hpieceNone]
          rfl
        exact fun hmark => (count_eq_zero (List.cons_ne_nil _ _)).mp hzero (hmark.trans hcontent)
    have hbreak : '\n' ∉ closing := by decide
    obtain ⟨c, hcmem, htype, hmark⟩ := hkeeps.kept t ht closing (.inr rfl) hc
    exact free_mergeShort _ hbreak hfree c hcmem htype hmark

end

/-- Tables come through whatever the splitters do exactly when nothing between them has the
beginning or the end of a placeholder in it. -/
theorem tableSafe_iff (minChars maxChars : Nat) (isWord : Char → Bool) (sourceId : Uuid)
    (markdown : Text) :
    TableSafe minChars maxChars isWord sourceId markdown ↔ Unmarked markdown :=
  ⟨unmarked_of_safe, tableSafe_of_unmarked⟩

/-- A document that says `>>>` has no table to damage, and is refused all the same. -/
theorem not_tableSafe_arrows :
    ¬ TableSafe 100 1500 Char.isAlphanum ⟨"000000000000000000000000000000e1".toList, by decide,
      by decide⟩ "결과는 >>> 이상".toList := by
  intro h
  obtain ⟨chunks, hok, -⟩ := h uncut
  have hrefused : (chunkMarkdown ⟨uncut, 100, 1500, Char.isAlphanum⟩ "결과는 >>> 이상".toList
      ⟨"000000000000000000000000000000e1".toList, by decide, by decide⟩).isOk = false := by
    decide
  rw [hok] at hrefused
  cases hrefused

end RownRg.Indexing

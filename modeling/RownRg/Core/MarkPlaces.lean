import RownRg.Core.Renumbering

/-! The marks of a text around a place in it. -/

open PyText Regex

namespace RownRg.Citations

variable {u v w x y rest t : Text} {k k' : Core} {c o : Char} {ps qs : List (Piece MarkGroup)}

/-- What follows a core that opens before a place: the core ends before it, or reaches over it. -/
theorem core_before (hk : k.Ok) (hy : y ≠ []) (h : k.text ++ rest = y ++ v)
    (hv : ∀ c ∈ v.head?, ¬ Inside c) : ∃ z, y = k.text ++ z ∧ rest = z ++ v := by
  obtain ⟨o, z, e, htext, -, -, hinside⟩ := core_shape hk
  obtain ⟨d, y, rfl⟩ := List.exists_cons_of_ne_nil hy
  rw [htext] at h ⊢
  obtain ⟨rfl, htail⟩ : o = d ∧ (z ++ [e]) ++ rest = y ++ v := by simpa using h
  rcases List.append_eq_append_iff.mp htail with ⟨a, rfl, rfl⟩ | ⟨a, ha, rfl⟩
  · exact ⟨a, rfl, rfl⟩
  · cases a with
    | nil => exact ⟨[], by simpa using ha.symm, rfl⟩
    | cons c a => exact absurd (hinside c (by simp [ha])) (hv c rfl)

/-- A core stands in a text as a mark, behind the blanks before it. -/
theorem exists_mark_at (hk : k.Ok) (hf : Fits k rest) (hps : Tokens ps)
    (h : render ps = x ++ (k.text ++ rest)) : ∃ before sp after,
      ps = before ++ .hit (mark sp k) :: after ∧ (∀ c ∈ sp, isHSpace c) ∧
      render before ++ sp = x ∧ render after = rest := by
  have hopen : ∀ c ∈ (k.text ++ rest).head?, ¬ Inside c :=
    fun c hc => not_inside_open (core_head_open hk c hc)
  induction hps generalizing x with
  | nil =>
    have hnil := (List.append_eq_nil_iff.mp (List.append_eq_nil_iff.mp h.symm).2).1
    exact absurd hnil (core_text_ne_nil hk)
  | @plain c ps hno _ ih =>
    cases x with
    | nil => exact absurd h (hno [] k rest (by simp) hk hf)
    | cons d x =>
      obtain ⟨rfl, htail⟩ := List.cons.inj h
      obtain ⟨before, sp, after, rfl, hsp, rfl, hafter⟩ := ih htail
      exact ⟨.plain c :: before, sp, after, rfl, hsp, rfl, hafter⟩
  | @mark sp k₀ ps hsp hk₀ _ _ ih =>
    have hthis : k₀.text ++ render ps = k.text ++ rest →
        ∃ before sp' after, .hit (mark sp k₀) :: ps = before ++ .hit (mark sp' k) :: after ∧
          (∀ c ∈ sp', isHSpace c) ∧ render before ++ sp' = sp ∧ render after = rest := by
      intro heq
      obtain ⟨rfl, rfl⟩ := core_unique hk₀ hk heq
      exact ⟨[], sp, ps, rfl, hsp, rfl, rfl⟩
    have heq : sp ++ (k₀.text ++ render ps) = x ++ (k.text ++ rest) := by simpa using h
    rcases List.append_eq_append_iff.mp heq with ⟨y, rfl, hy⟩ | ⟨y, rfl, hy⟩
    · by_cases hnil : y = []
      · subst hnil
        simpa using hthis hy
      · obtain ⟨z, rfl, hz⟩ := core_before hk₀ hnil hy hopen
        obtain ⟨before, sp', after, rfl, hsp', rfl, hafter⟩ := ih hz
        exact ⟨.hit (mark sp k₀) :: before, sp', after, rfl, hsp', by simp, hafter⟩
    · cases y with
      | nil => simpa using hthis hy.symm
      | cons c y =>
        refine absurd (hsp c (by simp)) ?_
        rw [not_isHSpace_of_not_inside (hopen c (by rw [hy]; rfl))]
        simp

theorem alike_refl (hps : Tokens ps) : ∀ p ∈ ps, Alike p p := by
  rw [← List.forall₂_same]
  induction hps with
  | nil => exact .nil
  | plain _ _ ih => exact .cons (.plain _) ih
  | mark hsp hk _ _ ih => exact .cons (.mark hsp hk hk rfl) ih

/-- Another list in a source mark changes this mark only. -/
theorem marks_replace (hk : k.Ok) (hq : k.isQuote = false) (x rest : Text) :
    ∃ before sp after, ∀ k', k'.Ok → k'.isQuote = false →
      marks (x ++ (k'.text ++ rest)) = before ++ .hit (mark sp k') :: after := by
  have hps := tokens_marks (x ++ (k.text ++ rest))
  have hf : Fits k rest := fun hquote => by
    rw [hq] at hquote
    cases hquote
  obtain ⟨before, sp, after, hmarks, hsp, hx, hrest⟩ := exists_mark_at hk hf hps (render_marks _)
  rw [hmarks] at hps
  refine ⟨before, sp, after, fun k' hk' hq' => ?_⟩
  have hrefl := alike_refl hps
  have halike : List.Forall₂ Alike (before ++ .hit (mark sp k) :: after)
      (before ++ .hit (mark sp k') :: after) := by
    refine List.rel_append (List.forall₂_same.mpr fun p hp => hrefl p (by simp [hp])) ?_
    exact .cons (.mark hsp hk hk' (hq.trans hq'.symm))
      (List.forall₂_same.mpr fun p hp => hrefl p (by simp [hp]))
  have hrender := marks_render (tokens_alike hps halike)
  rw [render_append, render_hit, mark_text, hrest, List.append_assoc, ← List.append_assoc, hx] at hrender
  exact hrender

/-- Before a place where no mark stands, the marks do not depend on what follows. -/
theorem marks_before (ho : ¬ Inside o) (h : NoMark (o :: v)) (u : Text) :
    ∃ ps, ∀ v', NoMark (o :: v') → marks (u ++ o :: v') = ps ++ marks (o :: v') := by
  have hcore : ∀ {v' : Text} {k : Core} {rest : Text}, NoMark (o :: v') → k.Ok → Fits k rest →
      o :: v' ≠ k.text ++ rest := fun hno hk hf => hno [] _ _ (by simp) hk hf
  generalize hn : u.length = n
  induction n using Nat.strongRecOn generalizing u with
  | _ n ih =>
    cases u with
    | nil => exact ⟨[], fun _ _ => rfl⟩
    | cons d u =>
      by_cases hno : NoMark (d :: u ++ o :: v)
      · obtain ⟨ps, hps⟩ := ih u.length (by simp at hn; omega) u rfl
        refine ⟨.plain d :: ps, fun v' hv' => ?_⟩
        have hhead : (o :: v).head? = (o :: v').head? := rfl
        have hno' : NoMark (d :: u ++ o :: v') :=
          noMark_swap (List.cons_ne_nil _ _) hhead (by rintro c ⟨⟩; exact ho)
            (fun k rest hk hf heq => absurd heq (hcore hv' hk hf)) hno
        rw [List.cons_append] at hno' ⊢
        rw [marks_plain hno', hps v' hv', List.cons_append]
      · simp only [NoMark, not_forall, not_not] at hno
        obtain ⟨sp, k, rest, hsp, hk, hf, heq⟩ := hno
        rcases List.append_eq_append_iff.mp heq with ⟨y, rfl, hy⟩ | ⟨y, hu, hy⟩
        · cases y with
          | nil => exact absurd hy (hcore h hk hf)
          | cons c y =>
            obtain ⟨rfl, -⟩ := List.cons.inj hy
            refine absurd (hsp o (by simp)) ?_
            rw [not_isHSpace_of_not_inside ho]
            simp
        · by_cases hnil : y = []
          · subst hnil
            exact absurd hy.symm (hcore h hk hf)
          · obtain ⟨z, rfl, rfl⟩ := core_before hk hnil hy (by rintro c ⟨⟩; exact ho)
            have hlen := congrArg List.length hu
            have hpos := List.length_pos_of_ne_nil (core_text_ne_nil hk)
            simp only [List.length_append] at hlen
            obtain ⟨ps, hps⟩ := ih z.length (by omega) z rfl
            refine ⟨.hit (mark sp k) :: ps, fun v' hv' => ?_⟩
            have hf' : Fits k (z ++ o :: v') := by
              intro hquote
              have hne := hf hquote
              cases z <;> simpa using hne
            rw [hu, List.append_assoc, List.append_assoc, marks_mark hsp hk hf', hps v' hv',
              List.cons_append]

/-- A stretch without an opening character that ends in no blank has no mark. -/
theorem marks_closed (hw : ∀ c ∈ w, c ≠ '(' ∧ c ≠ '[') (hc : c ≠ '(' ∧ c ≠ '[')
    (hblank : isHSpace c = false) (v : Text) :
    marks (w ++ c :: v) = (w ++ [c]).map .plain ++ marks v := by
  have hno : ∀ w : Text, (∀ c ∈ w, c ≠ '(' ∧ c ≠ '[') → NoMark (w ++ c :: v) := by
    intro w hw sp k rest hsp hk _ heq
    have hopen := @core_head_open rest _ hk
    rcases List.append_eq_append_iff.mp heq with ⟨y, rfl, hy⟩ | ⟨y, rfl, hy⟩
    · cases y with
      | nil =>
        rw [List.nil_append] at hy
        rcases hopen c (by rw [← hy]; rfl) with h | h
        · exact hc.1 h
        · exact hc.2 h
      | cons d y =>
        obtain ⟨rfl, -⟩ := List.cons.inj hy
        have hcsp := hsp c (by simp)
        rw [hblank] at hcsp
        cases hcsp
    · cases y with
      | nil =>
        rcases hopen c (by rw [hy]; rfl) with h | h
        · exact hc.1 h
        · exact hc.2 h
      | cons d y =>
        have hd := hw d (by simp)
        rcases hopen d (by rw [hy]; rfl) with h | h
        · exact hd.1 h
        · exact hd.2 h
  induction w with
  | nil => exact marks_plain (hno [] hw)
  | cons d w ih =>
    have hplain := marks_plain (c := d) (t := w ++ c :: v) (hno (d :: w) hw)
    rw [List.cons_append, hplain, ih (List.forall_mem_cons.mp hw).2]
    rfl

end RownRg.Citations

import RownRg.Core.Renumbering

/-! `renumber` acts as its map exactly at safe seams. -/

open PyText Regex

namespace RownRg.Citations

variable {sp t u v w g rest : Text} {k k' : Core} {c : Char} {m : Match MarkGroup}
  {f f₁ f₂ : Nat → Option Nat} {n N : Nat} {ns : List Nat} {ps qs : List (Piece MarkGroup)}

/-- `renumber` treats the marks of a text as its map treats their numbers. -/
structure ActsAsMap (t : Text) (f : Nat → Option Nat) : Prop where
  numbers : numbersInOrder (renumber t f) = ((numbersInOrder t).filterMap f).eraseDups
  outside : outside (renumber t f) = outside t
  compose : ∀ f₂, renumber (renumber t f) f₂ = renumber t fun n => (f n).bind f₂

/-! A mark with a number longer than the whole text tells where marks are. -/

/-- No blank that belongs to a mark stands outside it. -/
def Tight (ps : List (Piece MarkGroup)) : Prop :=
  ∀ xs c m ys, ps = xs ++ .plain c :: .hit m :: ys → isHSpace c = false

theorem tight_tail {p : Piece MarkGroup} (h : Tight (p :: ps)) : Tight ps := by
  rintro xs c m ys rfl
  exact h (p :: xs) c m ys rfl

theorem tight_tokens (h : Tokens ps) : Tight ps := by
  induction h with
  | nil => simp [Tight]
  | @plain c ps h hps ih =>
    intro xs d m ys heq
    cases xs with
    | cons q xs => exact ih xs d m ys (List.cons.inj heq).2
    | nil =>
      obtain ⟨hc, rfl⟩ := List.cons.inj heq
      obtain rfl := Piece.plain.inj hc
      obtain ⟨sp, k, hsp, hk, rfl⟩ := proper_tokens hps m (by simp)
      obtain ⟨hf, -⟩ := tokens_mark hsp hk hps
      by_contra hd
      refine h (c :: sp) k _ ?_ hk hf (by simp)
      exact List.forall_mem_cons.mpr ⟨by simpa using hd, hsp⟩
  | @mark sp k ps hsp hk hf hps ih =>
    intro xs d m ys heq
    cases xs with
    | cons q xs => exact ih xs d m ys (List.cons.inj heq).2
    | nil => simp at heq

theorem tight_renumber (h : Tight ps) : Tight (ps.filterMap (renumberPiece f)) := by
  intro xs c m ys heq
  obtain ⟨l₁, l₂, rfl, rfl, h₂⟩ := List.filterMap_eq_append_iff.mp heq
  obtain ⟨a, p, l₃, rfl, -, hp, h₃⟩ := List.filterMap_eq_cons_iff.mp h₂
  obtain ⟨b, q, l₄, rfl, hb, hq, -⟩ := List.filterMap_eq_cons_iff.mp h₃
  have hc : p = .plain c := by
    cases p with
    | plain d => simpa [renumberPiece] using hp
    | hit m => simp [renumberPiece] at hp
  subst hc
  have hhit : ∀ p : Piece MarkGroup, (∀ d, renumberPiece f p ≠ some (.plain d)) → ∃ m, p = .hit m := by
    intro p hp
    cases p with
    | plain d => exact absurd rfl (hp d)
    | hit m => exact ⟨m, rfl⟩
  obtain ⟨m', hm'⟩ : ∃ m' ys', b ++ q :: l₄ = .hit m' :: ys' := by
    cases b with
    | nil =>
      obtain ⟨m', rfl⟩ := hhit q (by simp [hq])
      exact ⟨m', _, rfl⟩
    | cons p b =>
      obtain ⟨m', rfl⟩ := hhit p (by simp [hb p (by simp)])
      exact ⟨m', _, rfl⟩
  obtain ⟨ys', hys⟩ := hm'
  exact h (l₁ ++ a) c m' ys' (by simp [hys])

/-- Gives every mark the number `N`. -/
def stamp (N : Nat) (ps : List (Piece MarkGroup)) : List (Piece MarkGroup) :=
  ps.filterMap (renumberPiece fun _ => some N)

theorem markNumbers_ne_nil (m : Match MarkGroup) : markNumbers m ≠ [] := by
  unfold markNumbers
  split
  · simpa [split] using gaps_ne_nil _
  · simp

@[simp] theorem stamp_plain (N : Nat) (c : Char) (ps : List (Piece MarkGroup)) :
    stamp N (.plain c :: ps) = .plain c :: stamp N ps := rfl

@[simp] theorem stamp_mark (N : Nat) (sp : Text) (k : Core) (ps : List (Piece MarkGroup)) :
    stamp N (.hit (mark sp k) :: ps) = .hit (mark sp (written k.isQuote [N])) :: stamp N ps := by
  have hN : ((markNumbers (mark sp k)).filterMap fun _ => some N).eraseDups = [N] := by
    obtain ⟨a, l, h⟩ := List.exists_cons_of_ne_nil (markNumbers_ne_nil (mark sp k))
    simp [h, List.eraseDups_cons]
  simp [stamp, renumberPiece, renumberMatch_some hN]

/-- A stamped core is longer than its number and has only inner characters behind its first. -/
theorem stamped_shape (q : Bool) (N : Nat) :
    ∃ o x, (written q [N]).text = o :: x ∧ o = (if q then '[' else '(') ∧
      (∀ c ∈ x, Inside c) ∧ (ofNat N).length ≤ x.length := by
  obtain ⟨o, x, e, hx, ho, -, hin⟩ := core_shape (written_ok q N [])
  refine ⟨o, x ++ [e], hx, by simpa using ho, hin, ?_⟩
  have hlen := congrArg List.length hx
  cases q <;> simp [written, Core.text, joinWith] at hlen ⊢ <;> omega

/-- A list of pieces and its stamped copy agree up to the first mark. -/
theorem stamp_render (hps : Proper ps) :
    ∃ u v v', render ps = u ++ v ∧ render (stamp N ps) = u ++ v' ∧
      (∀ c ∈ v'.head?, ¬ Inside c) ∧
      (∀ c qs, ps = .plain c :: qs → Tight ps → (∀ c ∈ u, isHSpace c) → v = []) := by
  induction ps with
  | nil => exact ⟨[], [], [], rfl, rfl, by simp, by simp⟩
  | cons p ps ih =>
    cases p with
    | hit m =>
      obtain ⟨sp, k, hsp, hk, rfl⟩ := hps m (by simp)
      refine ⟨sp, k.text ++ render ps, (written k.isQuote [N]).text ++ render (stamp N ps), by simp,
        by simp, fun c hc => not_inside_open (core_head_open (written_ok _ _ _) c hc), by simp⟩
    | plain c =>
      obtain ⟨u, v, v', hu, hu', hin, hv⟩ := ih (proper_tail hps)
      refine ⟨c :: u, v, v', by simp [hu], by simp [hu'], hin, ?_⟩
      rintro d qs hd ht hsp
      cases ps with
      | nil =>
        have hnil : u ++ v = [] := hu.symm
        exact (List.append_eq_nil_iff.mp hnil).2
      | cons q ps =>
        cases q with
        | plain d => exact hv d ps rfl (tight_tail ht) fun e he => hsp e (by simp [he])
        | hit m =>
          have hc := ht [] c m ps rfl
          simp [hsp c (by simp)] at hc

/-- Where one list has a character, the other cannot have a mark. -/
theorem stamp_mixed (hps : Proper (.plain c :: ps)) (ht : Tight (.plain c :: ps))
    (hsp : ∀ d ∈ sp, isHSpace d) (hk : k.Ok)
    (hN : (render (.plain c :: ps)).length < (ofNat N).length)
    (h : render (.plain c :: ps) = sp ++ (k.text ++ rest))
    (hstamp : render (stamp N (.plain c :: ps)) = sp ++ ((written k.isQuote [N]).text ++ w)) :
    False := by
  obtain ⟨u, v, v', hu, hu', hin, hv⟩ := stamp_render (N := N) hps
  obtain ⟨o, x, hx, ho, hinside, hlen⟩ := stamped_shape k.isQuote N
  rw [hu] at h hN
  rw [hu', hx] at hstamp
  rcases List.append_eq_append_iff.mp hstamp with ⟨y, rfl, hy⟩ | ⟨y, rfl, hy⟩
  · -- the characters before the first mark of the list are all blanks
    have hv := hv c ps rfl ht fun d hd => hsp d (by simp [hd])
    have hlen' := congrArg List.length h
    have hpos := List.length_pos_of_ne_nil (core_text_ne_nil hk)
    simp only [List.length_append, List.length_nil, hv] at hlen'
    omega
  · cases y with
    | nil =>
      have hv := hv c ps rfl ht (by simpa using hsp)
      have hlen' := congrArg List.length h
      have hpos := List.length_pos_of_ne_nil (core_text_ne_nil hk)
      simp only [List.length_append, List.length_nil, hv] at hlen'
      omega
    | cons o' y =>
      obtain ⟨rfl, htail⟩ : o = o' ∧ x ++ w = y ++ v' := by simpa using hy
      rcases List.append_eq_append_iff.mp htail with ⟨z, rfl, -⟩ | ⟨z, rfl, hz⟩
      · simp at hN
        omega
      · cases z with
        | nil =>
          simp at hN hlen
          omega
        | cons d z => exact hin d (by simp [hz]) (hinside d (by simp))

theorem stamp_injective {qs : List (Piece MarkGroup)} (hps : Proper ps) (hqs : Proper qs)
    (htp : Tight ps) (htq : Tight qs) (hN : (render ps).length < (ofNat N).length)
    (h : render ps = render qs) (hstamp : render (stamp N ps) = render (stamp N qs)) : ps = qs := by
  induction ps generalizing qs with
  | nil =>
    cases qs with
    | nil => rfl
    | cons q qs =>
      cases q with
      | plain c => simp at h
      | hit m =>
        obtain ⟨sp, k, -, hk, rfl⟩ := hqs m (by simp)
        simp [core_text_ne_nil hk] at h
  | cons p ps ih =>
    cases qs with
    | nil =>
      cases p with
      | plain c => simp at h
      | hit m =>
        obtain ⟨sp, k, -, hk, rfl⟩ := hps m (by simp)
        simp [core_text_ne_nil hk] at h
    | cons q qs =>
      have ih := @ih qs (proper_tail hps) (proper_tail hqs) (tight_tail htp) (tight_tail htq)
      cases p with
      | plain c =>
        cases q with
        | plain d =>
          obtain ⟨rfl, htail⟩ := List.cons.inj h
          rw [ih (by simp at hN; omega) htail (List.cons.inj hstamp).2]
        | hit m =>
          obtain ⟨sp, k, hsp, hk, rfl⟩ := hqs m (by simp)
          exact (stamp_mixed hps htp hsp hk hN (by simpa using h) (by simpa using hstamp)).elim
      | hit m =>
        obtain ⟨sp, k, hsp, hk, rfl⟩ := hps m (by simp)
        cases q with
        | plain d =>
          rw [h] at hN
          exact (stamp_mixed hqs htq hsp hk hN (by simpa using h.symm)
            (by simpa using hstamp.symm)).elim
        | hit m' =>
          obtain ⟨sp', k', hsp', hk', rfl⟩ := hqs m' (by simp)
          obtain ⟨rfl, rfl, htail⟩ := mark_unique hsp hsp' hk hk' (by simpa using h)
          rw [ih (by simp at hN; omega) htail (by simpa using hstamp)]

theorem length_ofNat_lt (n : Nat) : ∃ N, n < (ofNat N).length := by
  refine ⟨10 ^ n, ?_⟩
  by_contra h
  rcases Nat.eq_zero_or_pos n with rfl | hpos
  · simp [ofNat_ne_nil] at h
  · have hle := (Nat.length_toDigits_le_iff (n := 10 ^ n) (k := n) (b := 10) (by omega) hpos).mp
      (not_lt.mp h)
    omega

theorem stamp_renumber (N : Nat) (f : Nat → Option Nat) (t : Text) :
    renumber t (fun n => (f n).bind fun _ => some N) =
      render (stamp N ((marks t).filterMap (renumberPiece f))) := by
  rw [renumber_eq, stamp, renumberPiece_comp (proper_tokens (tokens_marks t))]

theorem Alike.symm {p q : Piece MarkGroup} (h : Alike p q) : Alike q p := by
  cases h with
  | plain c => exact .plain c
  | mark hsp hk hk' hq => exact .mark hsp hk' hk hq.symm

theorem proper_alike (h : List.Forall₂ Alike ps qs) : Proper qs := by
  induction h with
  | nil => simp [Proper]
  | cons hpq _ ih =>
    intro m hm
    rcases List.mem_cons.mp hm with rfl | hm
    · cases hpq with
      | mark hsp _ hk' _ => exact ⟨_, _, hsp, hk', rfl⟩
    · exact ih m hm

/-- If renumbering twice is renumbering by the composed map, the seams are safe. -/
theorem seamSafe_of_compose
    (h : ∀ f₂, renumber (renumber t f) f₂ = renumber t fun n => (f n).bind f₂) : SeamSafe f t := by
  have hproper := proper_tokens (tokens_marks t)
  have halike := alike_renumber (f := f) hproper
  obtain ⟨N, hN⟩ := length_ofNat_lt (renumber t f).length
  have hstamp : render (stamp N (marks (renumber t f))) =
      render (stamp N ((marks t).filterMap (renumberPiece f))) := by
    rw [← stamp_renumber, ← h]
    exact (renumber_eq _ _).symm
  have heq := stamp_injective (proper_tokens (tokens_marks (renumber t f)))
    (proper_alike halike) (tight_tokens (tokens_marks _))
    (tight_renumber (tight_tokens (tokens_marks t))) (by simpa using hN)
    (by rw [render_marks, renumber_eq]) hstamp
  have htokens : Tokens ((marks t).filterMap (renumberPiece f)) := by
    rw [← heq]
    exact tokens_marks _
  exact seamSafe_iff.2 (tokens_alike htokens (halike.flip.imp fun _ _ => Alike.symm))

/-- `renumber` acts on the marks of a text as its map acts on their numbers if and only if
deleting the unmapped marks leaves safe seams. -/
theorem actsAsMap_iff : ActsAsMap t f ↔ SeamSafe f t :=
  ⟨fun h => seamSafe_of_compose h.compose,
    fun h => ⟨renumber_numbers h, renumber_outside h, fun _ => renumber_comp h⟩⟩

/-- A bracketed number before a source mark is no quotation mark until that mark is deleted. -/
theorem not_actsAsMap_label :
    ¬ ∀ (t : Text) (f : Nat → Option Nat), ActsAsMap t f := by
  intro h
  have hnumbers := (h "[1](출처 2)".toList fun n => if n = 1 then some 10 else none).numbers
  revert hnumbers
  decide

end RownRg.Citations

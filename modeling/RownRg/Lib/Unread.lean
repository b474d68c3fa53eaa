import RownRg.Lib.Lines

/-! Patterns that never read a given character: it parts the text in two. -/

open PyText

namespace Regex

variable {γ : Type} {r : Regex γ} {s t' : Pos γ} {m : Match γ} {c : Char} {b t u v w x rest : Text}

def Shuns (c : Char) : Regex γ → Prop
  | eps | lineStart | lineEnd | textStart | behind _ | notBehind _ => True
  | cls p => p c = false
  | seq a b | alt a b => a.Shuns c ∧ b.Shuns c
  | star r | lazy r | group _ r | ahead r | notAhead r => r.Shuns c
  | textEnd => False

/-- The same position with more text at the end. -/
def Pos.more (v : Text) (s : Pos γ) : Pos γ := { s with after := s.after ++ v }

/-- What is behind the character makes no difference, and the character is never read. -/
structure Parts (f : Pos γ → List (Pos γ)) (c : Char) (v : Text) (s : Pos γ) : Prop where
  more : f (s.more v) = (f s).map (Pos.more v)
  ahead : ∀ t ∈ f s, c ∈ t.after

theorem iter_parts {f : Pos γ → List (Pos γ)} (hf : ∀ s, c ∈ s.after → Parts f c v s)
    (greedy : Bool) (n k : Nat) (hs : c ∈ s.after) (hn : s.after.length ≤ n)
    (hk : s.after.length ≤ k) :
    iter f greedy n (s.more v) = (iter f greedy k s).map (Pos.more v) ∧
      ∀ t ∈ iter f greedy k s, c ∈ t.after := by
  have hpos := List.length_pos_of_mem hs
  induction n generalizing s k with
  | zero => omega
  | succ n ih =>
    obtain ⟨k, rfl⟩ : ∃ j, k = j + 1 := ⟨k - 1, by omega⟩
    have hparts := hf s hs
    have hlonger : ∀ t : Pos γ, (t.more v).after.length < (s.more v).after.length ↔
        t.after.length < s.after.length := fun t => by simp [Pos.more]
    have hround : ∀ t ∈ (f s).filter (fun t => t.after.length < s.after.length),
        iter f greedy n (t.more v) = (iter f greedy k t).map (Pos.more v) ∧
          ∀ t' ∈ iter f greedy k t, c ∈ t'.after := by
      intro t ht
      obtain ⟨ht, hlt⟩ := List.mem_filter.mp ht
      have hc := hparts.ahead t ht
      have hlt := of_decide_eq_true hlt
      exact ih k hc (by omega) (by omega) (List.length_pos_of_mem hc)
    have hmore : ((f (s.more v)).filter
          fun t => t.after.length < (s.more v).after.length).flatMap (iter f greedy n) =
        (((f s).filter fun t => t.after.length < s.after.length).flatMap
          (iter f greedy k)).map (Pos.more v) := by
      rw [hparts.more, List.filter_map, List.flatMap_map, List.map_flatMap]
      simp only [Function.comp_def, hlonger]
      exact List.flatMap_congr fun t ht => (hround t ht).1
    have hahead : ∀ t ∈ ((f s).filter fun t => t.after.length < s.after.length).flatMap
        (iter f greedy k), c ∈ t.after := by
      intro t ht
      obtain ⟨t', ht', ht⟩ := List.mem_flatMap.mp ht
      exact (hround t' ht').2 t ht
    simp only [iter, hmore]
    cases greedy with
    | true =>
      refine ⟨by simp, fun t ht => ?_⟩
      rcases List.mem_append.mp ht with ht | ht
      · exact hahead t ht
      · exact List.mem_singleton.mp ht ▸ hs
    | false =>
      refine ⟨by simp, fun t ht => ?_⟩
      rcases List.mem_cons.mp ht with rfl | ht
      · exact hs
      · exact hahead t ht

theorem since_more (h : t'.after.length ≤ s.after.length) :
    (s.more v).since (t'.more v) = s.since t' := by
  have hlen : s.after.length - t'.after.length ≤ s.after.length := by omega
  have hsub : (s.after ++ v).length - (t'.after ++ v).length =
      s.after.length - t'.after.length := by
    simp only [List.length_append]
    omega
  simp only [Pos.since, Pos.more]
  rw [hsub, List.take_append_of_le_length hlen]

theorem length_run (h : t' ∈ r.run s) : t'.after.length ≤ s.after.length := by
  obtain ⟨w, hw⟩ := run_reads r s t' h
  simp [hw.1]

theorem run_parts (hr : r.Shuns c) (v : Text) (hs : c ∈ s.after) : Parts r.run c v s := by
  induction r generalizing s with
  | seq a b iha ihb =>
    have ha := iha hr.1 hs
    refine ⟨?_, fun t ht => ?_⟩
    · simp only [run, ha.more, List.flatMap_map, List.map_flatMap]
      exact List.flatMap_congr fun t ht => (ihb hr.2 (ha.ahead t ht)).more
    · obtain ⟨u, hu, ht⟩ := mem_run_seq.1 ht
      exact (ihb hr.2 (ha.ahead u hu)).ahead t ht
  | alt a b iha ihb =>
    have ha := iha hr.1 hs
    have hb := ihb hr.2 hs
    refine ⟨by simp [run, ha.more, hb.more], fun t ht => ?_⟩
    rcases mem_run_alt.1 ht with ht | ht
    · exact ha.ahead t ht
    · exact hb.ahead t ht
  | star r ih =>
    have hiter := iter_parts (v := v) (fun s hs => ih hr hs) true (s.more v).after.length
      s.after.length hs (by simp [Pos.more]) le_rfl
    exact ⟨hiter.1, hiter.2⟩
  | lazy r ih =>
    have hiter := iter_parts (v := v) (fun s hs => ih hr hs) false (s.more v).after.length
      s.after.length hs (by simp [Pos.more]) le_rfl
    exact ⟨hiter.1, hiter.2⟩
  | group g r ih =>
    have hr := ih hr hs
    refine ⟨?_, fun t ht => ?_⟩
    · simp only [run, hr.more, List.map_map]
      refine List.map_congr_left fun t ht => ?_
      simp only [Function.comp_apply, Pos.capture, since_more (length_run ht)]
      rfl
    · obtain ⟨u, hu, rfl⟩ := mem_run_group.1 ht
      exact hr.ahead u hu
  | ahead r ih | notAhead r ih =>
    have hr := ih hr hs
    refine ⟨?_, fun t ht => ?_⟩
    · simp only [run, hr.more, List.isEmpty_map]
      split <;> rfl
    · simp only [run] at ht
      split at ht <;> simp_all
  | cls p =>
    obtain ⟨before, after, caps⟩ := s
    cases after with
    | nil => simp at hs
    | cons d after =>
      refine ⟨?_, fun t ht => ?_⟩
      · simp only [run, Pos.more, List.cons_append]
        split <;> rfl
      · simp only [run] at ht
        split at ht
        · rename_i hd
          obtain rfl := List.mem_singleton.mp ht
          rcases List.mem_cons.mp hs with rfl | hs
          · exact absurd (hd.symm.trans hr) (by simp)
          · exact hs
        · simp at ht
  | eps => exact ⟨rfl, fun t ht => List.mem_singleton.mp ht ▸ hs⟩
  | lineEnd =>
    obtain ⟨d, after, hafter⟩ := List.exists_cons_of_ne_nil (List.ne_nil_of_mem hs)
    refine ⟨?_, fun t ht => ?_⟩
    · simp only [run, Pos.more, hafter, List.cons_append, List.head?_cons]
      split <;> simp [Pos.more, hafter]
    · simp only [run] at ht
      split at ht <;> simp_all
  | lineStart | textStart | behind p | notBehind p =>
    refine ⟨?_, fun t ht => ?_⟩
    · simp only [run]
      split <;> simp_all [Pos.more]
    · simp only [run] at ht
      split at ht <;> simp_all
  | textEnd => exact hr.elim

/-- A match is found, or not, whatever is behind the character. -/
theorem first_parts (hr : r.Shuns c) (hc : c ∈ t) (x v : Text) :
    r.first x (t ++ v) = (r.first x t).map fun y => (y.1, y.2 ++ v) := by
  have hrun := (run_parts hr v (s := ⟨x, t, []⟩) hc).more
  unfold first
  simp only [Pos.more] at hrun
  simp only [hrun, List.head?_map, Option.map_map]
  cases h : (r.run ⟨x, t, []⟩).head? with
  | none => rfl
  | some u =>
    have hlen := length_run (List.mem_of_head? h)
    have hsince := since_more (v := v) hlen
    exact congrArg some (Prod.ext (congrArg₂ Match.mk hsince rfl) rfl)

theorem mem_first_parts (hr : r.Shuns c) (hc : c ∈ t) (h : r.first x t = some (m, rest)) :
    c ∈ rest := by
  unfold first at h
  obtain ⟨u, hu, heq⟩ := Option.map_eq_some_iff.mp h
  obtain ⟨-, rfl⟩ := Prod.mk.inj heq
  exact (run_parts hr [] hc).ahead u (List.mem_of_head? hu)

theorem piecesFrom_pass (h : ∀ m rest, r.first x (c :: t) = some (m, rest) → m.text = []) :
    r.piecesFrom x (c :: t) = .plain c :: r.piecesFrom (c :: x) t := by
  unfold piecesFrom
  simp only [List.length_cons, scan]
  split
  · rfl
  · rw [if_pos (h _ _ ‹_›)]

/-- The search up to the character does not depend on what is behind it. -/
theorem piecesFrom_parts (hr : r.Shuns c) (x u : Text) :
    ∃ ps, ∀ v, r.piecesFrom x (u ++ c :: v) =
      ps ++ .plain c :: r.piecesFrom (c :: (u.reverse ++ x)) v := by
  induction hn : u.length using Nat.strongRecOn generalizing x u with
  | _ n ih =>
    have hmem : c ∈ u ++ [c] := by simp
    have hfirst : ∀ v, r.first x (u ++ c :: v) =
        (r.first x (u ++ [c])).map fun y => (y.1, y.2 ++ v) := fun v => by
      rw [← first_parts hr hmem, List.append_assoc]
      rfl
    by_cases hhit : ∃ m rest, r.first x (u ++ [c]) = some (m, rest) ∧ m.text ≠ []
    · obtain ⟨m, rest, hsome, hne⟩ := hhit
      have hc := mem_first_parts hr hmem hsome
      have hreads := first_reads hsome
      obtain ⟨w, d, rfl⟩ := List.eq_nil_or_concat' rest |>.resolve_left (List.ne_nil_of_mem hc)
      rw [← List.append_assoc] at hreads
      obtain ⟨rfl, hcd⟩ := List.append_inj' hreads rfl
      obtain rfl : c = d := by simpa using hcd
      have hlen := List.length_pos_of_ne_nil hne
      obtain ⟨ps, hps⟩ := ih w.length (by simp at hn; omega) (m.text.reverse ++ x) w rfl
      refine ⟨.hit m :: ps, fun v => ?_⟩
      have hv := hfirst v
      rw [hsome, Option.map_some] at hv
      rw [piecesFrom_hit hne hv]
      have hrest : w ++ [c] ++ v = w ++ c :: v := by simp
      simp only [hrest, hps v]
      simp
    · have hpass : ∀ v m rest, r.first x (u ++ c :: v) = some (m, rest) → m.text = [] := by
        intro v m rest hv
        rw [hfirst v] at hv
        obtain ⟨⟨m', rest'⟩, hm', heq⟩ := Option.map_eq_some_iff.mp hv
        obtain ⟨rfl, -⟩ := Prod.mk.inj heq
        by_contra hne
        exact hhit ⟨m', rest', hm', hne⟩
      cases u with
      | nil => exact ⟨[], fun v => piecesFrom_pass (hpass v)⟩
      | cons d u =>
        obtain ⟨ps, hps⟩ := ih u.length (by simp at hn; omega) (d :: x) u rfl
        refine ⟨.plain d :: ps, fun v => ?_⟩
        refine (piecesFrom_pass (hpass v)).trans ?_
        simp [hps v]

/-- A stretch at none of whose characters a match starts. -/
theorem piecesFrom_stretch
    (h : ∀ y z, w = y ++ z → z ≠ [] → r.first (y.reverse ++ x) (z ++ b) = none) :
    r.piecesFrom x (w ++ b) = w.map .plain ++ r.piecesFrom (w.reverse ++ x) b := by
  induction w generalizing x with
  | nil => rfl
  | cons d w ih =>
    have hd : r.first x (d :: (w ++ b)) = none := by simpa using h [] (d :: w) rfl (by simp)
    have hw := ih (x := d :: x) fun y z hyz hz => by
      simpa using h (d :: y) z (by simp [hyz]) hz
    rw [List.cons_append, piecesFrom_plain hd, hw]
    simp

variable {f : Match γ → Text}

/-! Patterns that do not ask for an end: there a character they never read stands like the end of
the text. -/

def Unended : Regex γ → Prop
  | textEnd | lineEnd => False
  | seq a b | alt a b => a.Unended ∧ b.Unended
  | star r | lazy r | group _ r | ahead r | notAhead r => r.Unended
  | _ => True

theorem iter_more {f : Pos γ → List (Pos γ)} (hf : ∀ s, f (s.more v) = (f s).map (Pos.more v))
    (greedy : Bool) (n k : Nat) (hn : s.after.length ≤ n) (hk : s.after.length ≤ k) :
    iter f greedy n (s.more v) = (iter f greedy k s).map (Pos.more v) := by
  have hlonger : ∀ s t : Pos γ, (t.more v).after.length < (s.more v).after.length ↔
      t.after.length < s.after.length := fun s t => by simp [Pos.more]
  induction n generalizing s k with
  | zero =>
    have hround : ∀ k, iter f greedy k s = [s] := by
      intro k
      cases k with
      | zero => rfl
      | succ k =>
        have hnone : (f s).filter (fun t => t.after.length < s.after.length) = [] :=
          List.filter_eq_nil_iff.mpr fun t _ => by simp; omega
        cases greedy <;> simp [iter, hnone]
    rw [hround]
    rfl
  | succ n ih =>
    cases k with
    | zero =>
      have hnone : (f (s.more v)).filter
          (fun t => t.after.length < (s.more v).after.length) = [] := by
        rw [hf, List.filter_map, List.filter_eq_nil_iff.mpr]
        · rfl
        · intro t _
          simp only [Function.comp_apply, hlonger, decide_eq_true_eq]
          omega
      cases greedy <;> simp [iter, hnone]
    | succ k =>
      have hmore : ((f (s.more v)).filter
            fun t => t.after.length < (s.more v).after.length).flatMap (iter f greedy n) =
          (((f s).filter fun t => t.after.length < s.after.length).flatMap
            (iter f greedy k)).map (Pos.more v) := by
        rw [hf, List.filter_map, List.flatMap_map, List.map_flatMap]
        simp only [Function.comp_def, hlonger]
        refine List.flatMap_congr fun t ht => ih k ?_ ?_
        · have hlt := of_decide_eq_true (List.mem_filter.mp ht).2
          omega
        · have hlt := of_decide_eq_true (List.mem_filter.mp ht).2
          omega
      simp only [iter, hmore]
      cases greedy <;> simp

theorem run_unread (hr : r.Shuns c) (he : r.Unended) (v : Text) (s : Pos γ) :
    r.run (s.more (c :: v)) = (r.run s).map (Pos.more (c :: v)) := by
  induction r generalizing s with
  | seq a b iha ihb =>
    simp only [run, iha hr.1 he.1, List.flatMap_map, List.map_flatMap, ihb hr.2 he.2]
  | alt a b iha ihb => simp [run, iha hr.1 he.1, ihb hr.2 he.2]
  | star r ih => exact iter_more (ih hr he) true _ _ (by simp [Pos.more]) le_rfl
  | lazy r ih => exact iter_more (ih hr he) false _ _ (by simp [Pos.more]) le_rfl
  | group g r ih =>
    simp only [run, ih hr he, List.map_map]
    refine List.map_congr_left fun t ht => ?_
    simp only [Function.comp_apply, Pos.capture, since_more (length_run ht)]
    rfl
  | ahead r ih | notAhead r ih =>
    simp only [run, ih hr he, List.isEmpty_map]
    split <;> rfl
  | cls p =>
    rcases s with ⟨before, _ | ⟨d, after⟩, caps⟩
    · have hc : p c = false := hr
      simp [run, Pos.more, hc]
    · simp only [run, Pos.more, List.cons_append]
      split <;> rfl
  | eps => rfl
  | textEnd | lineEnd => exact he.elim
  | _ =>
    simp only [run, Pos.more]
    split <;> simp_all [Pos.more]

theorem first_unread (hr : r.Shuns c) (he : r.Unended) (x t v : Text) :
    r.first x (t ++ c :: v) = (r.first x t).map fun y => (y.1, y.2 ++ c :: v) := by
  have h := run_unread hr he v ⟨x, t, []⟩
  simp only [Pos.more] at h
  simp only [first, h, List.head?_map, Option.map_map]
  cases hq : (r.run ⟨x, t, []⟩).head? with
  | none => rfl
  | some q =>
    have hlen := length_run (List.mem_of_head? hq)
    have hsince := since_more (v := c :: v) hlen
    simp only [Option.map_some, Function.comp_apply, Option.some.injEq, Prod.mk.injEq,
      Match.mk.injEq]
    exact ⟨⟨hsince, rfl⟩, rfl⟩

theorem first_shunned (hr : r.Shuns c) (he : r.Unended) (h : r.first x (c :: v) = some (m, rest)) :
    m.text = [] := by
  rw [← List.nil_append (c :: v), first_unread hr he] at h
  obtain ⟨⟨m', rest'⟩, hm', heq⟩ := Option.map_eq_some_iff.mp h
  obtain ⟨rfl, -⟩ := Prod.mk.inj heq
  exact (List.append_eq_nil_iff.mp (first_reads hm').symm).1

/-- The character parts the cut in two. -/
theorem pieces_unread (hr : r.Shuns c) (he : r.Unended) (hb : r.Blind) (u v : Text) :
    r.pieces (u ++ c :: v) = r.pieces u ++ .plain c :: r.pieces v := by
  have hfrom : ∀ x t, r.piecesFrom x t = r.pieces t := fun x t => scan_blind hb _ x t
  induction hn : u.length using Nat.strongRecOn generalizing u with
  | _ n ih =>
    cases u with
    | nil =>
      have hpass := piecesFrom_pass (x := []) fun m rest h => first_shunned (v := v) hr he h
      rw [hfrom, hfrom] at hpass
      exact hpass
    | cons d u =>
      have hfirst := first_unread hr he [] (d :: u) v
      rw [List.cons_append] at hfirst ⊢
      by_cases hhit : ∃ m rest, r.first [] (d :: u) = some (m, rest) ∧ m.text ≠ []
      · obtain ⟨m, rest, hsome, hne⟩ := hhit
        rw [hsome, Option.map_some] at hfirst
        have hlen := congrArg List.length (first_reads hsome)
        have hpos := List.length_pos_of_ne_nil hne
        simp only [List.length_cons, List.length_append] at hlen hn
        rw [pieces_hit hb hne hfirst, pieces_hit hb hne hsome, ih rest.length (by omega) rest rfl]
        rfl
      · have hempty : ∀ m rest, r.first [] (d :: u) = some (m, rest) → m.text = [] := by
          intro m rest hsome
          by_contra hne
          exact hhit ⟨m, rest, hsome, hne⟩
        have hmore : ∀ m rest, r.first [] (d :: (u ++ c :: v)) = some (m, rest) → m.text = [] := by
          intro m rest hsome
          rw [hfirst] at hsome
          obtain ⟨⟨m', rest'⟩, hm', heq⟩ := Option.map_eq_some_iff.mp hsome
          obtain ⟨rfl, -⟩ := Prod.mk.inj heq
          exact hempty _ _ hm'
        have hleft := piecesFrom_pass hmore
        have hright := piecesFrom_pass hempty
        rw [hfrom, hfrom] at hleft hright
        rw [hleft, hright, ih u.length (by simp at hn; omega) u rfl]
        rfl

theorem sub_unread (hr : r.Shuns c) (he : r.Unended) (hb : r.Blind) (u v : Text) :
    r.sub f (u ++ c :: v) = r.sub f u ++ c :: r.sub f v := by
  rw [sub, pieces_unread hr he hb, List.flatMap_append]
  rfl

variable {a : Text}

theorem sub_append_left (ha : ∀ c ∈ a, r.Shuns c) (he : r.Unended) (hb : r.Blind) (t : Text) :
    r.sub f (a ++ t) = a ++ r.sub f t := by
  induction a with
  | nil => rfl
  | cons c a ih =>
    obtain ⟨hc, ha⟩ := List.forall_mem_cons.mp ha
    have hstep := sub_unread (f := f) hc he hb [] (a ++ t)
    rw [List.nil_append] at hstep
    rw [List.cons_append, hstep, ih ha]
    rfl

theorem sub_append_right (ha : ∀ c ∈ a, r.Shuns c) (he : r.Unended) (hb : r.Blind) (t : Text) :
    r.sub f (t ++ a) = r.sub f t ++ a := by
  cases a with
  | nil => simp
  | cons c a =>
    obtain ⟨hc, ha⟩ := List.forall_mem_cons.mp ha
    have hrest := sub_append_left (f := f) ha he hb []
    rw [List.append_nil] at hrest
    rw [sub_unread hc he hb, hrest]
    simp [sub]

/-! A pattern that reads no space, and what is put for its matches has none. -/

section Tight

variable (hspace : ∀ c, isSpace c → r.Shuns c) (he : r.Unended) (hb : r.Blind)
  (hf : ∀ t, ∀ m ∈ r.finditer t, f m ≠ [] ∧ ∀ c ∈ f m, isSpace c = false)

include hf in
/-- The first character is the one of the text or no space. -/
theorem head?_sub (t : Text) : ∀ c ∈ (r.sub f t).head?, c ∈ t.head? ∨ t ≠ [] ∧ isSpace c = false := by
  have hrender := render_pieces r t
  cases hp : r.pieces t with
  | nil => simp [sub, hp]
  | cons p ps =>
    intro c hc
    rw [hp] at hrender
    cases p with
    | plain d =>
      left
      have hd : d = c := by simpa [sub, hp, Piece.rewrite] using hc
      rw [← hrender, ← hd]
      rfl
    | hit m =>
      right
      have hm := hf t m (by simp [finditer, hp, hits, Piece.match?])
      refine ⟨?_, hm.2 c ?_⟩
      · rintro rfl
        cases hp
      · obtain ⟨d, x, hx⟩ := List.exists_cons_of_ne_nil hm.1
        have hd : d = c := by simpa [sub, hp, Piece.rewrite, hx] using hc
        simp [hx, hd]

include hf in
theorem getLast?_sub (t : Text) : ∀ c ∈ (r.sub f t).getLast?, c ∈ t.getLast? ∨ isSpace c = false := by
  have hrender := render_pieces r t
  rcases List.eq_nil_or_concat (r.pieces t) with hp | ⟨ps, p, hp⟩
  · simp [sub, hp]
  · intro c hc
    rw [hp] at hrender
    cases p with
    | plain d =>
      left
      have hd : d = c := by simpa [sub, hp, Piece.rewrite] using hc
      rw [← hrender, ← hd, List.concat_eq_append, render_append]
      simp [render, Piece.text]
    | hit m =>
      right
      have hm := hf t m (by simp [finditer, hp, hits, Piece.match?])
      obtain ⟨x, d, hx⟩ := List.eq_nil_or_concat (f m) |>.resolve_left hm.1
      have hd : d = c := by simpa [sub, hp, Piece.rewrite, hx] using hc
      exact hm.2 c (by simp [hx, hd])

include hf in
theorem mem_sub {c : Char} (h : c ∈ r.sub f t) : c ∈ t ∨ isSpace c = false := by
  obtain ⟨p, hp, hc⟩ := List.mem_flatMap.mp h
  cases p with
  | plain d =>
    left
    rw [← render_pieces r t]
    exact List.mem_flatMap.mpr ⟨.plain d, hp, hc⟩
  | hit m =>
    right
    exact (hf t m (List.mem_filterMap.mpr ⟨_, hp, rfl⟩)).2 c hc

include hf in
theorem sub_eq_nil : r.sub f t = [] ↔ t = [] := by
  constructor
  · intro h
    rw [sub, List.flatMap_eq_nil_iff] at h
    have hrender := render_pieces r t
    cases hp : r.pieces t with
    | nil =>
      rw [hp] at hrender
      exact hrender.symm
    | cons p ps =>
      cases p with
      | plain d => cases h (.plain d) (by simp [hp])
      | hit m =>
        have hm := hf t m (by simp [finditer, hp, hits, Piece.match?])
        exact absurd (h (.hit m) (by simp [hp])) hm.1
  · rintro rfl
    rfl

include hf in
theorem solid_sub (h : Solid t) : Solid (r.sub f t) := by
  obtain ⟨hne, hhead, hlast⟩ := h
  refine ⟨fun hnil => hne ((sub_eq_nil hf).mp hnil), fun c hc => ?_, fun c hc => ?_⟩
  · rcases head?_sub hf t c hc with h | h
    · exact hhead c h
    · exact h.2
  · rcases getLast?_sub hf t c hc with h | h
    · exact hlast c h
    · exact h

include hspace he hb hf in
theorem strip_sub (t : Text) : strip (r.sub f t) = r.sub f (strip t) := by
  obtain ⟨x, y, hx, hy, ht⟩ := exists_strip t
  have hshun : ∀ {a : Text}, (∀ c ∈ a, isSpace c) → ∀ c ∈ a, r.Shuns c := fun h c hc =>
    hspace c (h c hc)
  have hsub : r.sub f t = x ++ (r.sub f (strip t) ++ y) := by
    nth_rewrite 1 [ht]
    rw [sub_append_left (hshun hx) he hb, sub_append_right (hshun hy) he hb]
  rw [hsub, strip_append_left hx, strip_append_right hy]
  by_cases hnil : strip t = []
  · rw [hnil]
    rfl
  · exact strip_solid (solid_sub hf (solid_strip hnil))

include hf in
theorem unbroken_sub (h : ∀ c ∈ t, isBreak c = false) : ∀ c ∈ r.sub f t, isBreak c = false := by
  intro c hc
  rcases mem_sub hf hc with hc | hc
  · exact h c hc
  · exact not_isBreak_of_not_isSpace hc

include hspace he hb hf in
/-- The lines of the text, each rewritten. -/
theorem splitLines_sub (t : Text) : splitLines (r.sub f t) = (splitLines t).map (r.sub f) := by
  induction hn : t.length using Nat.strongRecOn generalizing t with
  | _ n ih =>
    have hcut := List.takeWhile_append_dropWhile (p := fun c => !isBreak c) (l := t)
    have hl : ∀ c ∈ t.takeWhile fun c => !isBreak c, isBreak c = false := by
      intro c hc
      simpa using List.mem_takeWhile_imp hc
    generalize t.takeWhile (fun c => !isBreak c) = l at hcut hl
    cases hv : t.dropWhile fun c => !isBreak c with
    | nil =>
      obtain rfl : l = t := by simpa [hv] using hcut
      by_cases hnil : l = []
      · subst hnil
        rfl
      · rw [splitLines_unbroken hl hnil, splitLines_unbroken (unbroken_sub hf hl)
          (mt (sub_eq_nil hf).mp hnil)]
        rfl
    | cons c v =>
      have hc : isBreak c := by
        have hhead := List.head?_dropWhile_not (fun c => !isBreak c) t
        simpa [hv] using hhead
      rw [hv] at hcut
      subst hcut
      have hstep : ∀ u, r.sub f (l ++ c :: u) = r.sub f l ++ c :: r.sub f u := fun u =>
        sub_unread (hspace c (isSpace_of_isBreak hc)) he hb l u
      simp only [List.length_append, List.length_cons] at hn
      by_cases hcr : c = '\r' ∧ ∃ w, v = '\n' :: w
      · obtain ⟨rfl, w, rfl⟩ := hcr
        have hnl := sub_unread (f := f) (hspace '\n' (by decide)) he hb [] w
        rw [List.nil_append] at hnl
        rw [hstep, hnl]
        show splitLines (r.sub f l ++ '\r' :: '\n' :: r.sub f w) = _
        rw [splitLines_crlf hl, splitLines_crlf (unbroken_sub hf hl), List.map_cons,
          ih w.length (by simp at hn; omega) w rfl]
      · have hkeep : c = '\r' → ∀ w, r.sub f v ≠ '\n' :: w := by
          rintro rfl w hw
          rcases head?_sub hf v '\n' (by simp [hw]) with h | h
          · obtain ⟨w, rfl⟩ := List.head?_eq_some_iff.mp h
            exact hcr ⟨rfl, w, rfl⟩
          · exact absurd h.2 (by decide)
        rw [hstep, splitLines_break (unbroken_sub hf hl) hc hkeep,
          splitLines_break hl hc fun hr w hw => hcr ⟨hr, w, hw⟩, List.map_cons,
          ih v.length (by omega) v rfl]

end Tight

end Regex

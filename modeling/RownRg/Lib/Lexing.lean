import RownRg.Lib.Spots

/-! What any match has read, and the preferred match of a repetition. -/

open PyText

namespace Regex

variable {γ : Type} {r a b : Regex γ} {s t u : Pos γ} {p : Char → Bool} {w v x : Text}
  {k : List (γ × Text)}

/-- A letter of a pattern that ignores case, given in lower case, with the letters beyond ASCII that
fold to it. -/
def foldsTo (c d : Char) : Bool :=
  d == c || d == c.toUpper || (c == 'i' && (d == 'İ' || d == 'ı')) || (c == 's' && d == 'ſ') ||
    (c == 'k' && d == '\u212A')

/-- A word in any case. -/
def anyCase (t : Text) : Regex γ := cat (t.map fun c => cls (foldsTo c))

/-- `{0,n}?` -/
def upToLazy (r : Regex γ) : Nat → Regex γ
  | 0 => eps
  | n + 1 => alt eps (seq r (upToLazy r n))

/-- The words a pattern can read, wherever they stand: assertions and captures do not count. -/
def Words : Regex γ → Text → Prop
  | cls p, w => ∃ c, p c ∧ w = [c]
  | seq a b, w => ∃ x y, a.Words x ∧ b.Words y ∧ w = x ++ y
  | alt a b, w => a.Words w ∨ b.Words w
  | star r, w | lazy r, w => Kleene r.Words w
  | group _ r, w => r.Words w
  | _, w => w = []

theorem iter_words {f : Pos γ → List (Pos γ)} {L : Text → Prop} {greedy : Bool}
    (hf : ∀ s, ∀ t ∈ f s, ∃ w, Reads s t w ∧ L w) (n : Nat) (s : Pos γ) :
    ∀ t ∈ iter f greedy n s, ∃ w, Reads s t w ∧ Kleene L w := by
  induction n generalizing s with
  | zero =>
    intro t ht
    obtain rfl := List.mem_singleton.mp ht
    exact ⟨[], Reads.refl t, [], by simp, rfl⟩
  | succ n ih =>
    intro t ht
    have hcases : t = s ∨ ∃ u ∈ f s, u.after.length < s.after.length ∧ t ∈ iter f greedy n u := by
      cases greedy <;> simp [iter] at ht <;> grind
    obtain rfl | ⟨u, hu, hlt, ht⟩ := hcases
    · exact ⟨[], Reads.refl t, [], by simp, rfl⟩
    · obtain ⟨w, hw, hL⟩ := hf s u hu
      obtain ⟨v, hv, vs, hvs, rfl⟩ := ih u t ht
      have hne : w ≠ [] := by
        rintro rfl
        rw [hw.1] at hlt
        simp at hlt
      refine ⟨w ++ vs.flatten, hw.trans hv, w :: vs, ?_, rfl⟩
      exact List.forall_mem_cons.mpr ⟨⟨hne, hL⟩, hvs⟩

theorem run_words (r : Regex γ) (s : Pos γ) : ∀ t ∈ r.run s, ∃ w, Reads s t w ∧ r.Words w := by
  induction r generalizing s with
  | cls p =>
    intro t ht
    rcases s with ⟨before, _ | ⟨c, after⟩, caps⟩
    · simp [run] at ht
    · simp only [run] at ht
      split at ht
      · rename_i hc
        obtain rfl := List.mem_singleton.mp ht
        exact ⟨[c], ⟨rfl, rfl⟩, c, hc, rfl⟩
      · simp at ht
  | seq a b iha ihb =>
    intro t ht
    obtain ⟨u, hu, ht⟩ := List.mem_flatMap.mp ht
    obtain ⟨w, hw, haw⟩ := iha s u hu
    obtain ⟨v, hv, hbv⟩ := ihb u t ht
    exact ⟨w ++ v, hw.trans hv, w, v, haw, hbv, rfl⟩
  | alt a b iha ihb =>
    intro t ht
    rcases List.mem_append.mp ht with ht | ht
    · obtain ⟨w, hw, haw⟩ := iha s t ht
      exact ⟨w, hw, .inl haw⟩
    · obtain ⟨w, hw, hbw⟩ := ihb s t ht
      exact ⟨w, hw, .inr hbw⟩
  | star r ih => exact iter_words ih _ s
  | lazy r ih => exact iter_words ih _ s
  | group g r ih =>
    intro t ht
    obtain ⟨u, hu, rfl⟩ := List.mem_map.mp ht
    obtain ⟨w, hw, hrw⟩ := ih s u hu
    exact ⟨w, ⟨hw.1, hw.2⟩, hrw⟩
  | eps =>
    intro t ht
    obtain rfl := List.mem_singleton.mp ht
    exact ⟨[], Reads.refl t, rfl⟩
  | _ =>
    intro t ht
    simp only [run] at ht
    split at ht <;> simp at ht
    subst t
    exact ⟨[], Reads.refl s, rfl⟩

theorem words_plain (hr : r.Plain) : r.Words w ↔ r.Accepts w := by
  induction r generalizing w with
  | eps => exact Iff.rfl
  | cls p => exact Iff.rfl
  | seq a b iha ihb => simp only [Words, Accepts, iha hr.1, ihb hr.2]
  | alt a b iha ihb => simp only [Words, Accepts, iha hr.1, ihb hr.2]
  | star r ih => simp only [Words, Accepts, Kleene, ih hr]
  | lazy r ih => simp only [Words, Accepts, Kleene, ih hr]
  | _ => exact hr.elim

/-- What a found match has read. -/
theorem words_of_first {before after rest : Text} {m : Match γ}
    (h : r.first before after = some (m, rest)) : r.Words m.text := by
  obtain ⟨q, hq, hm⟩ := Option.map_eq_some_iff.mp h
  obtain ⟨w, hreads, hw⟩ := run_words r _ q (List.mem_of_head? hq)
  obtain ⟨rfl, -⟩ := Prod.mk.inj hm
  rw [← hreads.since] at hw
  exact hw

theorem words_of_mem_hits {n : Nat} {before after : Text} {m : Match γ}
    (h : m ∈ hits (scan r n before after)) : r.Words m.text := by
  induction n generalizing before after with
  | zero => simp [scan, hits_map_plain] at h
  | succ n ih =>
    cases after with
    | nil => cases h
    | cons c after =>
      rw [scan] at h
      cases hfirst : r.first before (c :: after) with
      | none =>
        rw [hfirst] at h
        exact ih h
      | some found =>
        obtain ⟨m', rest⟩ := found
        rw [hfirst] at h
        dsimp only at h
        split at h
        · exact ih h
        · rcases List.mem_cons.mp h with rfl | h
          · exact words_of_first hfirst
          · exact ih h

/-- A pattern without captures and assertions whose words determine where they end finds them. -/
theorem first_plain {m : Match γ} {before t rest : Text} (hr : r.Plain)
    (huniq : ∀ w w' v v', r.Accepts w → r.Accepts w' → w ++ v = w' ++ v' → w = w') :
    r.first before t = some (m, rest) ↔ r.Accepts m.text ∧ m.caps = [] ∧ t = m.text ++ rest := by
  have hfound : ∀ q, (r.run ⟨before, t, []⟩).head? = some q →
      ∃ w v, r.Accepts w ∧ t = w ++ v ∧ r.first before t = some (⟨w, []⟩, v) := by
    intro q hq
    obtain ⟨w, v, hw, ht, rfl⟩ := (mem_run_plain_iff hr).mp (List.mem_of_head? hq)
    have hsince : (⟨before, t, []⟩ : Pos γ).since ⟨w.reverse ++ before, v, []⟩ = w := since_skip ht
    refine ⟨w, v, hw, ht, ?_⟩
    rw [first, hq, Option.map_some, hsince]
  constructor
  · intro h
    obtain ⟨q, hq, -⟩ := Option.map_eq_some_iff.mp h
    obtain ⟨w, v, hw, ht, hsome⟩ := hfound q hq
    rw [h] at hsome
    obtain ⟨rfl, rfl⟩ := Prod.mk.inj (Option.some.inj hsome)
    exact ⟨hw, rfl, ht⟩
  · rintro ⟨hm, hcaps, ht⟩
    have hmem : (⟨m.text.reverse ++ before, rest, []⟩ : Pos γ) ∈ r.run ⟨before, t, []⟩ :=
      (mem_run_plain_iff hr).mpr ⟨m.text, rest, hm, ht, rfl⟩
    obtain ⟨q, hq⟩ := Option.ne_none_iff_exists'.mp
      (mt List.head?_eq_none_iff.mp (List.ne_nil_of_mem hmem))
    obtain ⟨w, v, hw, hwt, hsome⟩ := hfound q hq
    have hsplit := ht.symm.trans hwt
    obtain rfl := huniq _ _ _ _ hm hw hsplit
    obtain rfl := List.append_cancel_left hsplit
    obtain ⟨text, caps⟩ := m
    obtain rfl : caps = [] := hcaps
    exact hsome

/-- The first match, where it stands. -/
theorem exists_firstHit_scan {n : Nat} {before t : Text} {x : Text × Match γ}
    (h : firstHit (scan r n before t) = some x) :
    ∃ rest, t = x.1 ++ (x.2.text ++ rest) ∧
      r.first (x.1.reverse ++ before) (x.2.text ++ rest) = some (x.2, rest) := by
  induction n generalizing before t x with
  | zero => simp [scan, firstHit_map_plain] at h
  | succ n ih =>
    cases t with
    | nil => cases h
    | cons c t =>
      have hplain : firstHit (.plain c :: scan r n (c :: before) t) = some x →
          ∃ rest, c :: t = x.1 ++ (x.2.text ++ rest) ∧
            r.first (x.1.reverse ++ before) (x.2.text ++ rest) = some (x.2, rest) := by
        intro hx
        obtain ⟨y, hy, rfl⟩ := Option.map_eq_some_iff.mp hx
        obtain ⟨rest, rfl, hfirst⟩ := ih hy
        exact ⟨rest, rfl, by simpa using hfirst⟩
      rw [scan] at h
      cases hfirst : r.first before (c :: t) with
      | none =>
        rw [hfirst] at h
        exact hplain h
      | some found =>
        obtain ⟨m, rest⟩ := found
        rw [hfirst] at h
        dsimp only at h
        split at h
        · exact hplain h
        · obtain rfl := Option.some.inj h
          have ht := first_reads hfirst
          exact ⟨rest, ht, by rw [← ht]; exact hfirst⟩

theorem exists_firstHit {t : Text} {x : Text × Match γ} (h : firstHit (r.pieces t) = some x) :
    ∃ rest, t = x.1 ++ (x.2.text ++ rest) ∧
      r.first x.1.reverse (x.2.text ++ rest) = some (x.2, rest) := by
  obtain ⟨rest, ht, hfirst⟩ := exists_firstHit_scan h
  rw [List.append_nil] at hfirst
  exact ⟨rest, ht, hfirst⟩

theorem hits_of_firstHit {ps : List (Piece γ)} (h : firstHit ps = none) : hits ps = [] := by
  induction ps with
  | nil => rfl
  | cons p ps ih =>
    cases p with
    | plain c =>
      rw [hits_plain]
      exact ih (by simpa [firstHit] using h)
    | hit m => cases h

theorem plain_of_hits {ps : List (Piece γ)} (h : hits ps = []) : ps = (render ps).map .plain := by
  induction ps with
  | nil => rfl
  | cons p ps ih =>
    cases p with
    | plain c =>
      rw [render_plain, List.map_cons, ← ih h]
    | hit m => cases h

/-- Where nothing matches nothing is replaced. -/
theorem sub_of_firstHit {t : Text} (f : Match γ → Text) (h : firstHit (r.pieces t) = none) :
    r.sub f t = t := by
  have hplain := plain_of_hits (hits_of_firstHit h)
  rw [render_pieces] at hplain
  rw [sub, hplain, rewrite_map_plain]

/-! The preferred match. -/

theorem run_of_head? {l : List (Pos γ)} (h : l.head? = some t) : ∃ l', l = t :: l' := by
  cases l with
  | nil => cases h
  | cons x l =>
    obtain rfl : x = t := Option.some.inj h
    exact ⟨l, rfl⟩

/-- Fuel beyond the text ahead changes nothing. -/
theorem iter_fuel {f : Pos γ → List (Pos γ)} {greedy : Bool} {n m : Nat} (hn : s.after.length ≤ n)
    (hm : s.after.length ≤ m) : iter f greedy n s = iter f greedy m s := by
  induction n generalizing s m with
  | zero =>
    cases m with
    | zero => rfl
    | succ m =>
      have hnone : ((f s).filter fun t => t.after.length < s.after.length) = [] := by
        refine List.filter_eq_nil_iff.mpr fun t _ ht => ?_
        have hlt := of_decide_eq_true ht
        omega
      simp only [iter, hnone, List.flatMap_nil, List.nil_append]
      cases greedy <;> rfl
  | succ n ih =>
    cases m with
    | zero =>
      have hnone : ((f s).filter fun t => t.after.length < s.after.length) = [] := by
        refine List.filter_eq_nil_iff.mpr fun t _ ht => ?_
        have hlt := of_decide_eq_true ht
        omega
      simp only [iter, hnone, List.flatMap_nil, List.nil_append]
      cases greedy <;> rfl
    | succ m =>
      have hsame : ((f s).filter fun t => t.after.length < s.after.length).flatMap
            (iter f greedy n) =
          ((f s).filter fun t => t.after.length < s.after.length).flatMap (iter f greedy m) := by
        refine List.flatMap_congr fun t ht => ?_
        have hlt := of_decide_eq_true (List.mem_filter.mp ht).2
        exact ih (by omega) (by omega)
      simp only [iter, hsame]

/-- A repetition goes on with the preferred match of a round that reads something. -/
theorem head?_run_star {l : List (Pos γ)} (hr : r.run s = u :: l)
    (hlt : u.after.length < s.after.length) (ht : ((star r).run u).head? = some t) :
    ((star r).run s).head? = some t := by
  obtain ⟨n, hn⟩ : ∃ n, s.after.length = n + 1 := ⟨s.after.length - 1, by omega⟩
  have hfuel : iter r.run true n u = (star r).run u := iter_fuel (by omega) (Nat.le_refl _)
  rw [run, hn, iter, hr]
  simp only [if_pos]
  rw [List.filter_cons_of_pos (by simpa using hlt), List.flatMap_cons, hfuel, List.append_assoc,
    List.head?_append, ht]
  rfl

/-- It ends where no round is possible. -/
theorem run_star_none (hr : r.run s = []) : (star r).run s = [s] := by
  rw [run]
  cases s.after.length with
  | zero => rfl
  | succ n => simp [iter, hr]

theorem run_plus_stop (hw : ∀ c ∈ w, p c) (hne : w ≠ []) (hv : ∀ c ∈ v.head?, p c = false) :
    ∃ l, (plus (cls p)).run ⟨x, w ++ v, k⟩ = ⟨w.reverse ++ x, v, k⟩ :: l := by
  obtain ⟨c, w, rfl⟩ := List.exists_cons_of_ne_nil hne
  obtain ⟨hc, hw⟩ := List.forall_mem_cons.mp hw
  have hstep : (cls p).run (⟨x, c :: (w ++ v), k⟩ : Pos γ) = [⟨c :: x, w ++ v, k⟩] := by
    simp [run, hc]
  obtain ⟨l, hl⟩ := run_star_stop (x := c :: x) (k := k) hw hv
  refine ⟨l, ?_⟩
  rw [plus, run, List.cons_append, hstep, List.flatMap_singleton, hl]
  simp

theorem run_cls_none (hv : ∀ c ∈ v.head?, p c = false) :
    (cls p).run (⟨x, v, k⟩ : Pos γ) = [] := by
  cases v with
  | nil => rfl
  | cons c v => simp [run, hv c rfl]

theorem run_seq_none (ha : a.run s = []) : (seq a b).run s = [] := by
  rw [run, ha]
  rfl

/-- Where nothing stands that the first class takes, nothing is found. -/
theorem first_none (h : r.run ⟨x, v, []⟩ = []) : r.first x v = none := by
  simp [first, h]

/-- A pattern that cannot read nothing is found as soon as it can read somewhere. -/
theorem hits_scan_ne_nil {n : Nat} (hr : ¬ r.Words []) (hn : x.length ≤ n) :
    hits (scan r n v x) ≠ [] ↔
      ∃ u y q, x = u ++ y ∧ q ∈ r.run ⟨u.reverse ++ v, y, []⟩ := by
  have hreads : ∀ {z y : Text} {q : Pos γ}, q ∈ r.run ⟨z, y, []⟩ →
      ∃ w, w ≠ [] ∧ Reads ⟨z, y, []⟩ q w := by
    intro z y q hq
    obtain ⟨w, hw, hwords⟩ := run_words r _ q hq
    exact ⟨w, fun hnil => hr (hnil ▸ hwords), hw⟩
  have hend : ∀ {z : Text} {q : Pos γ}, q ∉ r.run ⟨z, [], []⟩ := by
    intro z q hq
    obtain ⟨w, hne, hw⟩ := hreads hq
    exact hne (List.append_eq_nil_iff.mp hw.1.symm).1
  induction n generalizing v x with
  | zero =>
    obtain rfl := List.eq_nil_of_length_eq_zero (Nat.le_zero.mp hn)
    refine iff_of_false (by simp [scan, hits]) ?_
    rintro ⟨u, y, q, hx, hq⟩
    obtain ⟨rfl, rfl⟩ := List.append_eq_nil_iff.mp hx.symm
    exact hend hq
  | succ n ih =>
    cases x with
    | nil =>
      refine iff_of_false (by simp [scan, hits]) ?_
      rintro ⟨u, y, q, hx, hq⟩
      obtain ⟨rfl, rfl⟩ := List.append_eq_nil_iff.mp hx.symm
      exact hend hq
    | cons c x =>
      have hrest := ih (v := c :: v) (x := x) (by simpa using hn)
      cases hrun : r.run ⟨v, c :: x, []⟩ with
      | nil =>
        have hscan : hits (scan r (n + 1) v (c :: x)) = hits (scan r n (c :: v) x) := by
          rw [scan, first_none hrun]
          rfl
        rw [hscan]
        refine hrest.trans ?_
        constructor
        · rintro ⟨u, y, q, rfl, hq⟩
          exact ⟨c :: u, y, q, rfl, by simpa using hq⟩
        · rintro ⟨u, y, q, hx, hq⟩
          cases u with
          | nil =>
            obtain rfl : c :: x = y := hx
            rw [List.reverse_nil, List.nil_append, hrun] at hq
            cases hq
          | cons d u =>
            obtain ⟨rfl, rfl⟩ := List.cons.inj hx
            exact ⟨u, y, q, rfl, by simpa using hq⟩
      | cons q l =>
        obtain ⟨w, hne, hw⟩ := hreads (hrun ▸ List.mem_cons_self)
        have hfirst : r.first v (c :: x) = some (⟨w, q.caps⟩, q.after) := by
          rw [first, hrun, List.head?_cons, Option.map_some, hw.since]
        refine iff_of_true ?_ ⟨[], c :: x, q, rfl, by simp [hrun]⟩
        rw [scan, hfirst]
        simp [hne, hits, Piece.match?]

theorem found_iff (hr : ¬ r.Words []) :
    r.found x ↔ ∃ u y q, x = u ++ y ∧ q ∈ r.run ⟨u.reverse, y, []⟩ := by
  have hfound : r.found x = true ↔ hits (scan r x.length [] x) ≠ [] := by
    rw [found, search, finditer, pieces, Option.isSome_iff_ne_none, ne_eq, List.head?_eq_none_iff]
  rw [hfound, hits_scan_ne_nil hr le_rfl]
  simp

end Regex

import RownRg.Lib.Regex

/-! Scanning a text with a pattern: `finditer`, `sub`, `search`, `match` and `split`. -/

open PyText

namespace Regex

/-- What a match object holds: `group(0)` and the captured groups. -/
structure Match (γ : Type) where
  text : Text
  caps : List (γ × Text)
  deriving DecidableEq

variable {γ : Type} {r : Regex γ} {m : Match γ} {s t u rest : Text} {c : Char} {n k : Nat}

/-- `match.group(g)`; `none` where the group took no part in the match. -/
def Match.group [DecidableEq γ] (m : Match γ) (g : γ) : Option Text :=
  (m.caps.find? fun x => x.1 = g).map (·.2)

/-- `pattern.match` at a position: the preferred match and the text after it. -/
def first (r : Regex γ) (before after : Text) : Option (Match γ × Text) :=
  let s : Pos γ := ⟨before, after, []⟩
  (r.run s).head?.map fun t => (⟨s.since t, t.caps⟩, t.after)

inductive Piece (γ : Type) where
  | plain (c : Char)
  | hit (m : Match γ)
  deriving DecidableEq

def Piece.text : Piece γ → Text
  | .plain c => [c]
  | .hit m => m.text

def render (ps : List (Piece γ)) : Text := ps.flatMap Piece.text

/-- Cuts the text into matches and the characters between them, leftmost first. A match that
reads nothing is passed over. -/
def scan (r : Regex γ) : Nat → Text → Text → List (Piece γ)
  | 0, _, after => after.map .plain
  | _ + 1, _, [] => []
  | n + 1, before, c :: after =>
    match r.first before (c :: after) with
    | none => .plain c :: scan r n (c :: before) after
    | some (m, rest) =>
      if m.text = [] then .plain c :: scan r n (c :: before) after
      else .hit m :: scan r n (m.text.reverse ++ before) rest

def pieces (r : Regex γ) (t : Text) : List (Piece γ) := scan r t.length [] t

def Piece.match? : Piece γ → Option (Match γ)
  | .plain _ => none
  | .hit m => some m

def hits (ps : List (Piece γ)) : List (Match γ) := ps.filterMap Piece.match?

/-- `pattern.finditer`. -/
def finditer (r : Regex γ) (t : Text) : List (Match γ) := hits (r.pieces t)

/-- `pattern.search`. -/
def search (r : Regex γ) (t : Text) : Option (Match γ) := (r.finditer t).head?

/-- The first match and the text before it. -/
def firstHit : List (Piece γ) → Option (Text × Match γ)
  | [] => none
  | .plain c :: ps => (firstHit ps).map fun x => (c :: x.1, x.2)
  | .hit m :: _ => some ([], m)

/-- `pattern.search(text) is not None`. -/
def found (r : Regex γ) (t : Text) : Bool := (r.search t).isSome

/-- `pattern.match(text)`. -/
def matchStart (r : Regex γ) (t : Text) : Option (Match γ) := (r.first [] t).map (·.1)

theorem textStart_run (t : Text) : (textStart : Regex γ).run ⟨[], t, []⟩ = [⟨[], t, []⟩] := rfl

theorem mem_textEnd {s q : Pos γ} (h : q ∈ (textEnd : Regex γ).run s) :
    q = s ∧ ∀ c ∈ s.after, isSpace c := by
  simp only [run] at h
  split at h
  · rename_i hend
    refine ⟨by simpa using h, ?_⟩
    rcases Bool.or_eq_true_iff.mp hend with hend | hend
    · simp [List.isEmpty_iff.mp hend]
    · rw [beq_iff_eq] at hend
      rw [hend]
      exact List.forall_mem_singleton.mpr (by decide)
  · simp at h

theorem exists_matchStart (h : ∃ q, q ∈ r.run ⟨[], t, []⟩) :
    ∃ q ∈ r.run ⟨[], t, []⟩, ∃ u, r.matchStart t = some ⟨u, q.caps⟩ := by
  obtain ⟨q, hq⟩ := h
  obtain ⟨q', hq'⟩ := Option.ne_none_iff_exists'.mp
    (mt List.head?_eq_none_iff.mp (List.ne_nil_of_mem hq))
  exact ⟨q', List.mem_of_head? hq', _, by simp only [matchStart, first, hq', Option.map_some]; rfl⟩

theorem mem_of_matchStart (h : r.matchStart t = some m) :
    ∃ q ∈ r.run ⟨[], t, []⟩, ∃ u, m = ⟨u, q.caps⟩ := by
  simp only [matchStart, first, Option.map_map, Option.map_eq_some_iff] at h
  obtain ⟨q, hq, rfl⟩ := h
  exact ⟨q, List.mem_of_head? hq, _, rfl⟩

theorem mem_group [DecidableEq γ] {g : γ} {x : Text} (h : r.matchStart x = some m)
    (hc : c ∈ (m.group g).getD []) : c ∈ x := by
  cases hg : m.group g with
  | none => simp [hg] at hc
  | some w =>
    rw [hg] at hc
    obtain ⟨q, hq, u, rfl⟩ := mem_of_matchStart h
    obtain ⟨y, hy, rfl⟩ := Option.map_eq_some_iff.mp hg
    exact (run_caps (q := (· ∈ x)) r ⟨[], x, []⟩ ⟨fun _ h => h, by simp⟩ q hq).2 y
      (List.mem_of_find?_eq_some hy) c hc

theorem firstHit_map_plain (t : Text) : firstHit (t.map .plain : List (Piece γ)) = none := by
  induction t with
  | nil => rfl
  | cons c t ih => simp [firstHit, ih]

/-- The first match and the text before it are made of the characters of the text. -/
theorem mem_scan {q : Char → Prop} (h : ∀ c ∈ t, q c) :
    ∀ x ∈ firstHit (scan r n s t), (∀ c ∈ x.1, q c) ∧ ∀ y ∈ x.2.caps, ∀ c ∈ y.2, q c := by
  induction n generalizing s t with
  | zero =>
    intro x hx
    simp [scan, firstHit_map_plain] at hx
  | succ n ih =>
    cases t with
    | nil =>
      intro x hx
      cases hx
    | cons c t =>
      obtain ⟨hc, ht⟩ := List.forall_mem_cons.mp h
      have hplain : ∀ x ∈ firstHit (.plain c :: scan r n (c :: s) t),
          (∀ c ∈ x.1, q c) ∧ ∀ y ∈ x.2.caps, ∀ c ∈ y.2, q c := by
        intro x hx
        obtain ⟨y, hy, rfl⟩ := Option.map_eq_some_iff.mp hx
        obtain ⟨hbefore, hcaps⟩ := ih ht y hy
        exact ⟨List.forall_mem_cons.mpr ⟨hc, hbefore⟩, hcaps⟩
      rw [scan]
      split
      · exact hplain
      · rename_i m rest hfirst
        split
        · exact hplain
        · intro x hx
          obtain rfl := Option.some.inj hx
          obtain ⟨u, hu, hm⟩ := Option.map_eq_some_iff.mp hfirst
          obtain ⟨rfl, -⟩ := Prod.mk.inj hm
          exact ⟨by simp, (run_caps r ⟨s, c :: t, []⟩ ⟨h, by simp⟩ u (List.mem_of_head? hu)).2⟩

theorem mem_firstHit {x : Text × Match γ} (h : firstHit (r.pieces t) = some x) (hc : c ∈ x.1) :
    c ∈ t :=
  (mem_scan (q := (· ∈ t)) (fun _ h => h) x h).1 c hc

theorem mem_firstHit_group [DecidableEq γ] {g : γ} {x : Text × Match γ}
    (h : firstHit (r.pieces t) = some x) (hc : c ∈ (x.2.group g).getD []) : c ∈ t := by
  cases hg : x.2.group g with
  | none => simp [hg] at hc
  | some w =>
    rw [hg] at hc
    obtain ⟨y, hy, rfl⟩ := Option.map_eq_some_iff.mp hg
    exact (mem_scan (q := (· ∈ t)) (fun _ h => h) x h).2 y (List.mem_of_find?_eq_some hy) c hc

def Piece.rewrite (f : Match γ → Text) : Piece γ → Text
  | .plain c => [c]
  | .hit m => f m

/-- `pattern.sub(f, text)`. -/
def sub (r : Regex γ) (f : Match γ → Text) (t : Text) : Text :=
  (r.pieces t).flatMap (Piece.rewrite f)

def Piece.rewriteM {m : Type → Type} [Monad m] (f : Match γ → m Text) : Piece γ → m Text
  | .plain c => pure [c]
  | .hit h => f h

/-- `pattern.sub(f, text)` where `f` may raise. -/
def subM {m : Type → Type} [Monad m] (r : Regex γ) (f : Match γ → m Text) (t : Text) : m Text := do
  return ((← (r.pieces t).mapM (Piece.rewriteM f))).flatten

/-- The texts between the matches. -/
def gaps : List (Piece γ) → List Text
  | [] => [[]]
  | .plain c :: ps =>
    match gaps ps with
    | [] => [[c]]
    | w :: ws => (c :: w) :: ws
  | .hit _ :: ps => [] :: gaps ps

/-- `pattern.split(text)`. -/
def split (r : Regex γ) (t : Text) : List Text := gaps (r.pieces t)

@[simp] theorem render_nil : render ([] : List (Piece γ)) = [] := rfl

@[simp] theorem render_plain (c : Char) (ps : List (Piece γ)) :
    render (.plain c :: ps) = c :: render ps := rfl

@[simp] theorem render_hit (m : Match γ) (ps : List (Piece γ)) :
    render (.hit m :: ps) = m.text ++ render ps := rfl

theorem render_append (ps qs : List (Piece γ)) : render (ps ++ qs) = render ps ++ render qs :=
  List.flatMap_append

theorem render_map_plain (t : Text) : render (t.map .plain : List (Piece γ)) = t := by
  induction t with
  | nil => rfl
  | cons c t ih => simp [ih]

theorem hits_append (ps qs : List (Piece γ)) : hits (ps ++ qs) = hits ps ++ hits qs :=
  List.filterMap_append

theorem hits_plain (c : Char) (ps : List (Piece γ)) : hits (.plain c :: ps) = hits ps := rfl

theorem hits_map_plain (t : Text) : hits (t.map .plain : List (Piece γ)) = [] := by
  induction t with
  | nil => rfl
  | cons c t ih => exact ih

theorem gaps_ne_nil (ps : List (Piece γ)) : gaps ps ≠ [] := by
  cases ps with
  | nil => simp [gaps]
  | cons p ps =>
    cases p with
    | plain c => cases h : gaps ps <;> simp [gaps, h]
    | hit m => simp [gaps]

theorem gaps_map_plain (t : Text) (ps : List (Piece γ)) :
    gaps (t.map .plain ++ .hit m :: ps) = t :: gaps ps := by
  induction t with
  | nil => rfl
  | cons c t ih => simp [gaps, ih]

theorem gaps_map_plain_nil (t : Text) : gaps (t.map .plain : List (Piece γ)) = [t] := by
  induction t with
  | nil => rfl
  | cons c t ih => simp [gaps, ih]

theorem first_reads (h : r.first s t = some (m, rest)) : t = m.text ++ rest := by
  obtain ⟨q, hq, hm⟩ := Option.map_eq_some_iff.mp h
  obtain ⟨w, hw⟩ := run_reads r _ q (List.mem_of_head? hq)
  obtain ⟨rfl, rfl⟩ := Prod.mk.inj hm
  simpa [hw.since] using hw.1

/-- No character is lost or added by cutting. -/
theorem render_scan (n : Nat) (s t : Text) : render (scan r n s t) = t := by
  induction n generalizing s t with
  | zero => exact render_map_plain t
  | succ n ih =>
    cases t with
    | nil => rfl
    | cons c t =>
      rw [scan]
      split
      · simp [ih]
      · split
        · simp [ih]
        · simp [ih, (first_reads ‹_›).symm]

theorem render_pieces (r : Regex γ) (t : Text) : render (r.pieces t) = t := render_scan _ _ _

/-- What is left where the matches are taken out. -/
theorem mem_sub_nil (h : c ∈ r.sub (fun _ => []) t) : c ∈ t := by
  obtain ⟨p, hp, hc⟩ := List.mem_flatMap.mp h
  cases p with
  | plain d =>
    rw [← render_pieces r t]
    exact List.mem_flatMap.mpr ⟨.plain d, hp, hc⟩
  | hit m => cases hc

theorem scan_fuel (hn : t.length ≤ n) (hk : t.length ≤ k) : scan r n s t = scan r k s t := by
  induction n generalizing s t k with
  | zero =>
    obtain rfl := List.eq_nil_of_length_eq_zero (Nat.le_zero.mp hn)
    cases k <;> rfl
  | succ n ih =>
    cases t with
    | nil => cases k <;> rfl
    | cons c t =>
      obtain ⟨k, rfl⟩ : ∃ j, k = j + 1 := ⟨k - 1, by simp at hk; omega⟩
      simp only [List.length_cons, Nat.add_le_add_iff_right] at hn hk
      rw [scan, scan, ih hn hk]
      split
      · rfl
      · split
        · rfl
        · have hr := congrArg List.length (first_reads ‹_›)
          have hpos := List.length_pos_of_ne_nil ‹_›
          simp only [List.length_cons, List.length_append] at hr
          rw [ih (k := k) (by omega) (by omega)]

/-- What `subM` makes of a list of pieces. -/
def rewriteAll (f : Match γ → Option Text) (ps : List (Piece γ)) : Option Text :=
  (ps.mapM (Piece.rewriteM f)).map List.flatten

theorem subM_eq (r : Regex γ) (f : Match γ → Option Text) (t : Text) :
    r.subM f t = rewriteAll f (r.pieces t) := by
  unfold subM rewriteAll
  cases (r.pieces t).mapM (Piece.rewriteM f) <;> rfl

@[simp] theorem rewriteAll_nil (f : Match γ → Option Text) : rewriteAll f [] = some [] := rfl

@[simp] theorem rewriteAll_plain (f : Match γ → Option Text) (c : Char) (ps : List (Piece γ)) :
    rewriteAll f (.plain c :: ps) = (rewriteAll f ps).map (c :: ·) := by
  unfold rewriteAll
  rw [List.mapM_cons]
  cases ps.mapM (Piece.rewriteM f) <;> rfl

@[simp] theorem rewriteAll_hit (f : Match γ → Option Text) (m : Match γ) (ps : List (Piece γ)) :
    rewriteAll f (.hit m :: ps) = (f m).bind fun x => (rewriteAll f ps).map (x ++ ·) := by
  unfold rewriteAll
  rw [List.mapM_cons]
  cases hm : f m with
  | none => simp [Piece.rewriteM, hm]
  | some x => cases ps.mapM (Piece.rewriteM f) <;> simp [Piece.rewriteM, hm]

theorem rewriteAll_map_plain (f : Match γ → Option Text) (t : Text) (ps : List (Piece γ)) :
    rewriteAll f (t.map .plain ++ ps) = (rewriteAll f ps).map (t ++ ·) := by
  induction t with
  | nil => simp
  | cons c t ih =>
    rw [List.map_cons, List.cons_append, rewriteAll_plain, ih, Option.map_map]
    rfl

/-! Patterns that never look behind. -/

def Blind : Regex γ → Prop
  | eps | cls _ | textEnd | lineEnd => True
  | seq a b | alt a b => a.Blind ∧ b.Blind
  | star r | lazy r | group _ r | ahead r | notAhead r => r.Blind
  | _ => False

/-- The same position with more text behind it. -/
def Pos.over (x : Text) (s : Pos γ) : Pos γ := { s with before := s.before ++ x }

theorem iter_over {f : Pos γ → List (Pos γ)} {x : Text}
    (hf : ∀ s, f (s.over x) = (f s).map (Pos.over x)) (greedy : Bool) (n : Nat) (s : Pos γ) :
    iter f greedy n (s.over x) = (iter f greedy n s).map (Pos.over x) := by
  induction n generalizing s with
  | zero => rfl
  | succ n ih =>
    have hmore : ((f (s.over x)).filter
          fun t => t.after.length < (s.over x).after.length).flatMap (iter f greedy n) =
        (((f s).filter fun t => t.after.length < s.after.length).flatMap
          (iter f greedy n)).map (Pos.over x) := by
      rw [hf, List.filter_map, List.flatMap_map, List.map_flatMap]
      simp only [ih]
      rfl
    simp only [iter, hmore]
    cases greedy <;> simp

theorem run_over (hr : r.Blind) (x : Text) (s : Pos γ) :
    r.run (s.over x) = (r.run s).map (Pos.over x) := by
  induction r generalizing s with
  | seq a b iha ihb =>
    simp only [run, iha hr.1, List.flatMap_map, List.map_flatMap, ihb hr.2]
  | alt a b iha ihb => simp [run, iha hr.1, ihb hr.2]
  | star r ih => exact iter_over (ih hr) ..
  | lazy r ih => exact iter_over (ih hr) ..
  | group g r ih =>
    simp only [run, ih hr, List.map_map]
    rfl
  | ahead r ih | notAhead r ih =>
    simp only [run, ih hr, List.isEmpty_map]
    split <;> rfl
  | cls p =>
    rcases s with ⟨before, _ | ⟨c, after⟩, caps⟩
    · rfl
    · simp only [run, Pos.over]
      split <;> rfl
  | eps => rfl
  | textEnd | lineEnd =>
    simp only [run, Pos.over]
    split <;> simp_all [Pos.over]
  | _ => exact hr.elim

theorem first_blind (hr : r.Blind) (s t : Text) : r.first s t = r.first [] t := by
  have h := run_over hr s ⟨[], t, []⟩
  simp only [Pos.over, List.nil_append] at h
  unfold first
  simp only [h, List.head?_map, Option.map_map]
  rfl

theorem scan_blind (hr : r.Blind) (n : Nat) (s t : Text) : scan r n s t = scan r n [] t := by
  induction n generalizing s t with
  | zero => rfl
  | succ n ih =>
    cases t with
    | nil => rfl
    | cons c t =>
      rw [scan, scan, first_blind hr s]
      simp only [ih (c :: s), ih [c]]
      split
      · rfl
      · rw [ih (_ ++ s), ih (_ ++ [])]

/-- Every match of a scan is the match at the front of some text. -/
theorem exists_first (hr : r.Blind) (h : m ∈ hits (scan r n s t)) :
    m.text ≠ [] ∧ ∃ u rest, r.first [] u = some (m, rest) := by
  induction n generalizing s t with
  | zero => simp [scan, hits_map_plain] at h
  | succ n ih =>
    cases t with
    | nil => cases h
    | cons c t =>
      rw [scan] at h
      split at h
      · exact ih h
      · rename_i m' rest hfirst
        split at h
        · exact ih h
        · rename_i hne
          rcases List.mem_cons.mp h with rfl | h
          · exact ⟨hne, c :: t, rest, by rw [← first_blind hr s, hfirst]⟩
          · exact ih h

@[simp] theorem pieces_nil : r.pieces [] = [] := rfl

/-- One step of the scan, for a pattern that does not look behind. -/
theorem pieces_plain (hr : r.Blind) (h : r.first [] (c :: t) = none) :
    r.pieces (c :: t) = .plain c :: r.pieces t := by
  unfold pieces
  simp only [List.length_cons, scan, h]
  rw [scan_blind hr]

theorem pieces_hit (hr : r.Blind) (hm : m.text ≠ []) (h : r.first [] t = some (m, rest)) :
    r.pieces t = .hit m :: r.pieces rest := by
  have ht := first_reads h
  obtain ⟨c, x, hx⟩ := List.exists_cons_of_ne_nil hm
  have hlen := congrArg List.length ht
  simp only [hx, List.length_append, List.length_cons] at hlen
  subst ht
  unfold pieces
  rw [hx] at h ⊢
  simp only [List.cons_append, List.length_cons, scan] at h ⊢
  simp only [h, hm, if_false]
  rw [scan_blind hr, scan_fuel (by simp) le_rfl]

/-- Characters at which no match starts pass through. -/
theorem pieces_append_plain (hr : r.Blind)
    (h : ∀ c ∈ s, ∀ v, r.first [] (c :: v) = none) : r.pieces (s ++ t) = s.map .plain ++ r.pieces t := by
  induction s with
  | nil => rfl
  | cons c s ih =>
    obtain ⟨hc, hs⟩ := List.forall_mem_cons.mp h
    rw [List.cons_append, pieces_plain hr (hc _), ih hs]
    rfl

end Regex

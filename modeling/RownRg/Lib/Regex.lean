import RownRg.Lib.Text

/-! Backtracking regular expressions: a pattern maps a position to its matches, preferred first. -/

open PyText

/-- A pattern with capture groups named by `γ`. -/
inductive Regex (γ : Type) where
  | eps
  | cls (p : Char → Bool)
  | seq (a b : Regex γ)
  | alt (a b : Regex γ)
  | star (r : Regex γ)
  | lazy (r : Regex γ)
  | group (g : γ) (r : Regex γ)
  | ahead (r : Regex γ)
  | notAhead (r : Regex γ)
  | behind (p : Char → Bool)
  | notBehind (p : Char → Bool)
  | textStart
  | textEnd
  | lineStart
  | lineEnd

namespace Regex

variable {γ : Type}

/-- The text already read (nearest character first), the text ahead, and the captures so far. -/
structure Pos (γ : Type) where
  before : Text
  after : Text
  caps : List (γ × Text)

def Pos.start (t : Text) : Pos γ := ⟨[], t, []⟩

/-- The text between an earlier position and this one. -/
def Pos.since (s t : Pos γ) : Text := s.after.take (s.after.length - t.after.length)

/-- Moves over a word of the text ahead. -/
def Pos.skip (s : Pos γ) (w : Text) : Pos γ :=
  { s with before := w.reverse ++ s.before, after := s.after.drop w.length }

def Pos.capture (g : γ) (s t : Pos γ) : Pos γ := { t with caps := (g, s.since t) :: t.caps }

/-- Repetition keeps only the rounds that read something. -/
def iter (f : Pos γ → List (Pos γ)) (greedy : Bool) : Nat → Pos γ → List (Pos γ)
  | 0, s => [s]
  | n + 1, s =>
    let more := ((f s).filter fun t => t.after.length < s.after.length).flatMap (iter f greedy n)
    if greedy then more ++ [s] else s :: more

def run : Regex γ → Pos γ → List (Pos γ)
  | eps, s => [s]
  | cls p, s =>
    match s.after with
    | [] => []
    | c :: t => if p c then [⟨c :: s.before, t, s.caps⟩] else []
  | seq a b, s => (a.run s).flatMap b.run
  | alt a b, s => a.run s ++ b.run s
  | star r, s => iter r.run true s.after.length s
  | lazy r, s => iter r.run false s.after.length s
  | group g r, s => (r.run s).map (Pos.capture g s)
  | ahead r, s => if (r.run s).isEmpty then [] else [s]
  | notAhead r, s => if (r.run s).isEmpty then [s] else []
  | behind p, s => if s.before.head?.any p then [s] else []
  | notBehind p, s => if s.before.head?.any p then [] else [s]
  | textStart, s => if s.before.isEmpty then [s] else []
  | textEnd, s => if s.after.isEmpty || s.after == ['\n'] then [s] else []
  | lineStart, s => if s.before.head?.all (· == '\n') then [s] else []
  | lineEnd, s => if s.after.head?.all (· == '\n') then [s] else []

/-! Derived forms. -/

def chr (c : Char) : Regex γ := cls (· == c)

/-- A literal text. -/
def lit : Text → Regex γ
  | [] => eps
  | c :: t => seq (chr c) (lit t)

/-- The class of the characters of a text. -/
def oneOf (t : Text) : Regex γ := cls (t.contains ·)

/-- The class of all characters outside a text. -/
def noneOf (t : Text) : Regex γ := cls (!t.contains ·)

def plus (r : Regex γ) : Regex γ := seq r (star r)

def opt (r : Regex γ) : Regex γ := alt r eps

def cat : List (Regex γ) → Regex γ
  | [] => eps
  | [r] => r
  | r :: rs => seq r (cat rs)

def anyOf : List (Regex γ) → Regex γ
  | [] => cls fun _ => false
  | [r] => r
  | r :: rs => alt r (anyOf rs)

/-- At most `n` rounds, as many as possible. -/
def upTo (r : Regex γ) : Nat → Regex γ
  | 0 => eps
  | n + 1 => opt (seq r (upTo r n))

/-- From `n` to `m` rounds, as many as possible. -/
def between (r : Regex γ) (n m : Nat) : Regex γ :=
  match n with
  | 0 => upTo r m
  | n + 1 => seq r (between r n (m - 1))

def digit : Regex γ := cls isDigit
def space : Regex γ := cls isSpace
def hspace : Regex γ := cls isHSpace

/-! What a match reads. -/

variable {r a b : Regex γ} {s t u : Pos γ} {p : Char → Bool} {g : γ} {w v t' : Text}

@[simp] theorem skip_nil : s.skip [] = s := rfl

@[simp] theorem skip_caps : (s.skip w).caps = s.caps := rfl

theorem skip_skip (s : Pos γ) (w v : Text) : (s.skip w).skip v = s.skip (w ++ v) := by
  simp [Pos.skip, List.drop_drop]

theorem skip_after (h : s.after = w ++ v) : (s.skip w).after = v := by
  simp [Pos.skip, h]

theorem since_skip (h : s.after = w ++ t.after) : s.since t = w := by
  simp [Pos.since, h]

/-- A position later in the same text. -/
def Reads (s t : Pos γ) (w : Text) : Prop :=
  s.after = w ++ t.after ∧ t.before = w.reverse ++ s.before

theorem Reads.refl (s : Pos γ) : Reads s s [] := ⟨rfl, rfl⟩

theorem Reads.trans (h : Reads s t w) (k : Reads t u v) : Reads s u (w ++ v) := by
  obtain ⟨h₁, h₂⟩ := h
  obtain ⟨k₁, k₂⟩ := k
  exact ⟨by simp [h₁, k₁], by simp [k₂, h₂]⟩

theorem Reads.since (h : Reads s t w) : s.since t = w := since_skip h.1

theorem iter_reads {f : Pos γ → List (Pos γ)} {greedy : Bool}
    (hf : ∀ s, ∀ t ∈ f s, ∃ w, Reads s t w) (n : Nat) (s : Pos γ) :
    ∀ t ∈ iter f greedy n s, ∃ w, Reads s t w := by
  induction n generalizing s with
  | zero => simpa [iter] using ⟨[], Reads.refl s⟩
  | succ n ih =>
    intro t ht
    have hcases : t = s ∨ ∃ u ∈ f s, t ∈ iter f greedy n u := by
      cases greedy <;> simp [iter] at ht <;> grind
    obtain rfl | ⟨u, hu, ht⟩ := hcases
    · exact ⟨[], Reads.refl t⟩
    · obtain ⟨w, hw⟩ := hf s u hu
      obtain ⟨v, hv⟩ := ih u t ht
      exact ⟨w ++ v, hw.trans hv⟩

/-- What asserts without reading. -/
def Still : Regex γ → Prop
  | eps | ahead _ | notAhead _ | behind _ | notBehind _ => True
  | textStart | textEnd | lineStart | lineEnd => True
  | _ => False

theorem eq_of_still (h : t ∈ r.run s) (hr : r.Still) : t = s := by
  cases r with
  | eps => exact List.mem_singleton.mp h
  | cls | seq | alt | star | lazy | group => exact hr.elim
  | _ =>
    simp only [run] at h
    split at h <;> simp at h
    exact h

theorem mem_run_cls :
    t ∈ (cls p).run s ↔ ∃ c v, p c ∧ s.after = c :: v ∧ t = ⟨c :: s.before, v, s.caps⟩ := by
  obtain ⟨before, _ | ⟨c, after⟩, caps⟩ := s
  · simp [run]
  · by_cases hc : p c
    · simp only [run, hc, if_true, List.mem_singleton]
      constructor
      · intro ht
        exact ⟨c, after, hc, rfl, ht⟩
      · rintro ⟨d, v, -, hs, rfl⟩
        obtain ⟨rfl, rfl⟩ := List.cons.inj hs
        rfl
    · simp only [run, hc]
      constructor
      · intro ht
        cases ht
      · rintro ⟨d, v, hd, hs, -⟩
        exact absurd ((List.cons.inj hs).1 ▸ hd) hc

theorem run_reads (r : Regex γ) (s : Pos γ) : ∀ t ∈ r.run s, ∃ w, Reads s t w := by
  induction r generalizing s with
  | cls p =>
    intro t ht
    obtain ⟨c, v, -, hs, rfl⟩ := mem_run_cls.1 ht
    exact ⟨[c], hs, rfl⟩
  | seq a b iha ihb =>
    intro t ht
    obtain ⟨u, hu, ht⟩ := List.mem_flatMap.mp ht
    obtain ⟨w, hw⟩ := iha s u hu
    obtain ⟨v, hv⟩ := ihb u t ht
    exact ⟨w ++ v, hw.trans hv⟩
  | alt a b iha ihb =>
    intro t ht
    obtain ht | ht := List.mem_append.mp ht
    · exact iha s t ht
    · exact ihb s t ht
  | star r ih => exact iter_reads ih _ s
  | lazy r ih => exact iter_reads ih _ s
  | group g r ih =>
    intro t ht
    obtain ⟨u, hu, rfl⟩ := List.mem_map.mp ht
    obtain ⟨w, hw⟩ := ih s u hu
    exact ⟨w, hw.1, hw.2⟩
  | _ =>
    intro t ht
    obtain rfl : t = s := eq_of_still ht trivial
    exact ⟨[], Reads.refl t⟩

/-! What a match captures. -/

theorem iter_keeps {f : Pos γ → List (Pos γ)} {greedy : Bool} {P : Pos γ → Prop}
    (hf : ∀ s, P s → ∀ t ∈ f s, P t) (n : Nat) (hs : P s) : ∀ t ∈ iter f greedy n s, P t := by
  induction n generalizing s with
  | zero => simpa [iter] using hs
  | succ n ih =>
    intro t ht
    have hcases : t = s ∨ ∃ u ∈ f s, t ∈ iter f greedy n u := by
      cases greedy <;> simp [iter] at ht <;> grind
    obtain rfl | ⟨u, hu, ht⟩ := hcases
    · exact hs
    · exact ih (hf s hs u hu) t ht

/-- A text that is captured comes from the text ahead. -/
theorem run_caps {q : Char → Prop} (r : Regex γ) (s : Pos γ)
    (hs : (∀ c ∈ s.after, q c) ∧ ∀ x ∈ s.caps, ∀ c ∈ x.2, q c) :
    ∀ t ∈ r.run s, (∀ c ∈ t.after, q c) ∧ ∀ x ∈ t.caps, ∀ c ∈ x.2, q c := by
  induction r generalizing s with
  | seq a b iha ihb =>
    intro t ht
    obtain ⟨u, hu, ht⟩ := List.mem_flatMap.mp ht
    exact ihb u (iha s hs u hu) t ht
  | alt a b iha ihb =>
    intro t ht
    rcases List.mem_append.mp ht with ht | ht
    · exact iha s hs t ht
    · exact ihb s hs t ht
  | star r ih => exact iter_keeps ih _ hs
  | lazy r ih => exact iter_keeps ih _ hs
  | group g r ih =>
    intro t ht
    obtain ⟨u, hu, rfl⟩ := List.mem_map.mp ht
    obtain ⟨hafter, hcaps⟩ := ih s hs u hu
    refine ⟨hafter, fun x hx => ?_⟩
    rcases List.mem_cons.mp hx with rfl | hx
    · exact fun c hc => hs.1 c ((List.take_sublist _ _).mem hc)
    · exact hcaps x hx
  | cls p =>
    intro t ht
    obtain ⟨c, v, -, heq, rfl⟩ := mem_run_cls.1 ht
    rw [heq] at hs
    exact ⟨fun c hc => hs.1 c (.tail _ hc), hs.2⟩
  | _ =>
    intro t ht
    obtain rfl : t = s := eq_of_still ht trivial
    exact hs

/-! Languages: what the patterns without captures and assertions accept. -/

theorem mem_run_seq : t ∈ (seq a b).run s ↔ ∃ u ∈ a.run s, t ∈ b.run u :=
  List.mem_flatMap

theorem mem_run_alt : t ∈ (alt a b).run s ↔ t ∈ a.run s ∨ t ∈ b.run s :=
  List.mem_append

theorem mem_run_group : t ∈ (group g r).run s ↔ ∃ u ∈ r.run s, Pos.capture g s u = t :=
  List.mem_map

/-- No captures and no assertions. -/
def Plain : Regex γ → Prop
  | eps | cls _ => True
  | seq a b | alt a b => a.Plain ∧ b.Plain
  | star r | lazy r => r.Plain
  | _ => False

/-- The words made of non-empty words of `L`. -/
def Kleene (L : Text → Prop) (w : Text) : Prop :=
  ∃ ws : List Text, (∀ x ∈ ws, x ≠ [] ∧ L x) ∧ w = ws.flatten

def Accepts : Regex γ → Text → Prop
  | eps, w => w = []
  | cls p, w => ∃ c, p c ∧ w = [c]
  | seq a b, w => ∃ x y, a.Accepts x ∧ b.Accepts y ∧ w = x ++ y
  | alt a b, w => a.Accepts w ∨ b.Accepts w
  | star r, w | lazy r, w => Kleene r.Accepts w
  | _, _ => False

/-- The positions `f` reaches are those past a word of `L`. -/
def Spells (f : Pos γ → List (Pos γ)) (L : Text → Prop) : Prop :=
  ∀ s t, t ∈ f s ↔ ∃ w v, L w ∧ s.after = w ++ v ∧ t = s.skip w

theorem spells_iter {f : Pos γ → List (Pos γ)} {L : Text → Prop} (hf : Spells f L)
    (greedy : Bool) (n : Nat) (s t : Pos γ) (hn : s.after.length ≤ n) :
    t ∈ iter f greedy n s ↔ ∃ w v, Kleene L w ∧ s.after = w ++ v ∧ t = s.skip w := by
  induction n generalizing s with
  | zero =>
    have hs : s.after = [] := List.eq_nil_of_length_eq_zero (by omega)
    simp only [iter, List.mem_singleton, hs]
    constructor
    · rintro rfl
      exact ⟨[], [], ⟨[], by simp, rfl⟩, rfl, rfl⟩
    · rintro ⟨w, v, -, hw, rfl⟩
      obtain ⟨rfl, -⟩ := List.append_eq_nil_iff.mp hw.symm
      rfl
  | succ n ih =>
    have hiter : t ∈ iter f greedy (n + 1) s ↔
        t = s ∨ ∃ u ∈ f s, u.after.length < s.after.length ∧ t ∈ iter f greedy n u := by
      cases greedy <;> simp [iter] <;> grind
    rw [hiter]
    constructor
    · rintro (rfl | ⟨u, hu, hlt, ht⟩)
      · exact ⟨[], t.after, ⟨[], by simp, rfl⟩, rfl, rfl⟩
      · obtain ⟨x, v, hx, hs, rfl⟩ := (hf s u).mp hu
        rw [skip_after hs] at hlt
        have hne : x ≠ [] := by rintro rfl; simp [hs] at hlt
        obtain ⟨w, y, ⟨ws, hws, rfl⟩, hv, rfl⟩ := (ih _ (by rw [skip_after hs]; omega)).mp ht
        rw [skip_after hs] at hv
        refine ⟨x ++ ws.flatten, y, ⟨x :: ws, ?_, rfl⟩, by simp [hs, hv], skip_skip ..⟩
        exact List.forall_mem_cons.mpr ⟨⟨hne, hx⟩, hws⟩
    · rintro ⟨w, v, ⟨ws, hws, rfl⟩, hs, rfl⟩
      cases ws with
      | nil => exact .inl rfl
      | cons x ws =>
        obtain ⟨⟨hne, hx⟩, hws⟩ := List.forall_mem_cons.mp hws
        have hs' : s.after = x ++ (ws.flatten ++ v) := by simpa using hs
        have hlen : 0 < x.length := List.length_pos_of_ne_nil hne
        have hlt : (s.skip x).after.length < s.after.length := by
          rw [skip_after hs', hs']; simp; omega
        refine .inr ⟨s.skip x, (hf s _).mpr ⟨x, _, hx, hs', rfl⟩, hlt, ?_⟩
        exact (ih _ (by omega)).mpr
          ⟨ws.flatten, v, ⟨ws, hws, rfl⟩, skip_after hs', (skip_skip ..).symm⟩

theorem spells_run {r : Regex γ} (hr : r.Plain) : Spells r.run r.Accepts := by
  induction r with
  | eps =>
    intro s t
    simp only [run, Accepts, List.mem_singleton]
    constructor
    · rintro rfl
      exact ⟨[], t.after, rfl, rfl, rfl⟩
    · rintro ⟨w, v, rfl, -, rfl⟩
      rfl
  | cls p =>
    intro s t
    rw [mem_run_cls]
    constructor
    · rintro ⟨c, v, hc, hs, rfl⟩
      exact ⟨[c], v, ⟨c, hc, rfl⟩, hs, by simp [Pos.skip, hs]⟩
    · rintro ⟨w, v, ⟨c, hc, rfl⟩, hs, rfl⟩
      exact ⟨c, v, hc, hs, by simp [Pos.skip, hs]⟩
  | seq a b iha ihb =>
    intro s t
    rw [mem_run_seq]
    constructor
    · rintro ⟨u, hu, ht⟩
      obtain ⟨x, v, hx, hs, rfl⟩ := (iha hr.1 s u).mp hu
      obtain ⟨y, v', hy, hs', rfl⟩ := (ihb hr.2 _ t).mp ht
      rw [skip_after hs] at hs'
      exact ⟨x ++ y, v', ⟨x, y, hx, hy, rfl⟩, by simp [hs, hs'], skip_skip ..⟩
    · rintro ⟨w, v, ⟨x, y, hx, hy, rfl⟩, hs, rfl⟩
      have hs' : s.after = x ++ (y ++ v) := by simpa using hs
      exact ⟨s.skip x, (iha hr.1 s _).mpr ⟨x, _, hx, hs', rfl⟩,
        (ihb hr.2 _ _).mpr ⟨y, v, hy, skip_after hs', (skip_skip ..).symm⟩⟩
  | alt a b iha ihb =>
    intro s t
    rw [mem_run_alt, iha hr.1 s t, ihb hr.2 s t]
    simp only [Accepts]
    grind
  | star r ih => exact fun s t => spells_iter (ih hr) _ _ s t le_rfl
  | lazy r ih => exact fun s t => spells_iter (ih hr) _ _ s t le_rfl
  | _ => exact hr.elim

theorem mem_run_plain (hr : r.Plain) :
    t ∈ r.run s ↔ ∃ w v, r.Accepts w ∧ s.after = w ++ v ∧ t = s.skip w :=
  spells_run hr s t

theorem mem_run_group_plain (hr : r.Plain) :
    t ∈ (group g r).run s ↔
      ∃ w v, r.Accepts w ∧ s.after = w ++ v ∧ t = { s.skip w with caps := (g, w) :: s.caps } := by
  rw [mem_run_group]
  constructor
  · rintro ⟨u, hu, rfl⟩
    obtain ⟨w, v, hw, hs, rfl⟩ := (mem_run_plain hr).mp hu
    refine ⟨w, v, hw, hs, ?_⟩
    simp [Pos.capture, since_skip (hs.trans (congrArg _ (skip_after hs).symm))]
  · rintro ⟨w, v, hw, hs, rfl⟩
    refine ⟨s.skip w, (mem_run_plain hr).mpr ⟨w, v, hw, hs, rfl⟩, ?_⟩
    simp [Pos.capture, since_skip (hs.trans (congrArg _ (skip_after hs).symm))]

theorem skip_eq {x y : Text} {cs : List (γ × Text)} (h : y = w ++ v) :
    (⟨x, y, cs⟩ : Pos γ).skip w = ⟨w.reverse ++ x, v, cs⟩ := by
  simp [Pos.skip, h]

theorem mem_run_plain_iff {x y : Text} {cs : List (γ × Text)} (ha : a.Plain) :
    t ∈ a.run ⟨x, y, cs⟩ ↔ ∃ w v, a.Accepts w ∧ y = w ++ v ∧ t = ⟨w.reverse ++ x, v, cs⟩ := by
  rw [mem_run_plain ha]
  constructor
  · rintro ⟨w, v, hw, hy, rfl⟩
    exact ⟨w, v, hw, hy, skip_eq hy⟩
  · rintro ⟨w, v, hw, hy, rfl⟩
    exact ⟨w, v, hw, hy, (skip_eq hy).symm⟩

theorem mem_run_seq_plain {x y : Text} {cs : List (γ × Text)} (ha : a.Plain) :
    t ∈ (seq a b).run ⟨x, y, cs⟩ ↔
      ∃ w v, a.Accepts w ∧ y = w ++ v ∧ t ∈ b.run ⟨w.reverse ++ x, v, cs⟩ := by
  rw [mem_run_seq]
  constructor
  · rintro ⟨u, hu, ht⟩
    obtain ⟨w, v, hw, hy, rfl⟩ := (mem_run_plain_iff ha).mp hu
    exact ⟨w, v, hw, hy, ht⟩
  · rintro ⟨w, v, hw, hy, ht⟩
    exact ⟨_, (mem_run_plain_iff ha).mpr ⟨w, v, hw, hy, rfl⟩, ht⟩

theorem mem_run_seq_group {x y : Text} {cs : List (γ × Text)} (ha : a.Plain) :
    t ∈ (seq (group g a) b).run ⟨x, y, cs⟩ ↔
      ∃ w v, a.Accepts w ∧ y = w ++ v ∧ t ∈ b.run ⟨w.reverse ++ x, v, (g, w) :: cs⟩ := by
  rw [mem_run_seq]
  constructor
  · rintro ⟨u, hu, ht⟩
    obtain ⟨w, v, hw, hy, rfl⟩ := (mem_run_group_plain ha).mp hu
    rw [skip_eq hy] at ht
    exact ⟨w, v, hw, hy, ht⟩
  · rintro ⟨w, v, hw, hy, ht⟩
    refine ⟨_, (mem_run_group_plain ha).mpr ⟨w, v, hw, hy, rfl⟩, ?_⟩
    rwa [skip_eq hy]

theorem mem_run_notAhead_chr {c : Char} :
    t ∈ (notAhead (chr c)).run s ↔ s.after.head? ≠ some c ∧ t = s := by
  rcases s with ⟨x, _ | ⟨d, y⟩, cs⟩
  · simp [run, chr]
  · by_cases hd : d = c <;> simp [run, chr, hd]

theorem mem_run_notAhead_cls :
    t ∈ (notAhead (cls p)).run s ↔ (∀ c ∈ s.after.head?, p c = false) ∧ t = s := by
  rcases s with ⟨x, _ | ⟨d, y⟩, cs⟩
  · simp [run]
  · cases hd : p d <;> simp [run, hd]

theorem mem_run_chr {c : Char} :
    t ∈ (chr c).run s ↔ ∃ v, s.after = c :: v ∧ t = ⟨c :: s.before, v, s.caps⟩ := by
  rw [chr, mem_run_cls]
  constructor
  · rintro ⟨d, v, hd, hs, ht⟩
    obtain rfl := beq_iff_eq.mp hd
    exact ⟨v, hs, ht⟩
  · rintro ⟨v, hs, ht⟩
    exact ⟨c, v, beq_self_eq_true c, hs, ht⟩

theorem plain_lit (t : Text) : (lit t : Regex γ).Plain := by
  induction t with
  | nil => trivial
  | cons c t ih => exact ⟨trivial, ih⟩

theorem accepts_lit : (lit t' : Regex γ).Accepts w ↔ w = t' := by
  induction t' generalizing w with
  | nil => simp [lit, Accepts]
  | cons c t' ih => simp [lit, Accepts, chr, ih]

theorem accepts_chr {c : Char} : (chr c : Regex γ).Accepts w ↔ w = [c] := by
  simp [chr, Accepts]

theorem accepts_star_cls : (star (cls p) : Regex γ).Accepts w ↔ ∀ c ∈ w, p c := by
  constructor
  · rintro ⟨ws, hws, rfl⟩ c hc
    obtain ⟨x, hx, hcx⟩ := List.mem_flatten.mp hc
    obtain ⟨d, hd, rfl⟩ := (hws x hx).2
    simp_all
  · intro h
    refine ⟨w.map ([·]), fun x hx => ?_, by simp [← List.flatMap_def]⟩
    obtain ⟨c, hc, rfl⟩ := List.mem_map.mp hx
    exact ⟨by simp, c, h c hc, rfl⟩

theorem accepts_plus_cls :
    (plus (cls p) : Regex γ).Accepts w ↔ w ≠ [] ∧ ∀ c ∈ w, p c := by
  simp only [plus, Accepts.eq_3]
  constructor
  · rintro ⟨x, y, ⟨c, hc, rfl⟩, hy, rfl⟩
    exact ⟨by simp, List.forall_mem_cons.mpr ⟨hc, accepts_star_cls.1 hy⟩⟩
  · rintro ⟨hne, hw⟩
    obtain ⟨c, y, rfl⟩ := List.exists_cons_of_ne_nil hne
    obtain ⟨hc, hy⟩ := List.forall_mem_cons.mp hw
    exact ⟨[c], y, ⟨c, hc, rfl⟩, accepts_star_cls.2 hy, rfl⟩

/-- A class repetition prefers to read as much as it can. -/
theorem run_star_cls (p : Char → Bool) (s : Pos γ) :
    ∃ l, (star (cls p)).run s = s.skip (s.after.takeWhile p) :: l := by
  have hiter : ∀ n (s : Pos γ), s.after.length ≤ n →
      ∃ l, iter (cls p).run true n s = s.skip (s.after.takeWhile p) :: l := by
    intro n
    induction n with
    | zero =>
      intro s hs
      exact ⟨[], by simp [iter, List.eq_nil_of_length_eq_zero (Nat.le_zero.mp hs)]⟩
    | succ n ih =>
      rintro ⟨before, after, caps⟩ hs
      cases after with
      | nil => exact ⟨[], by simp [iter, run]⟩
      | cons c after =>
        by_cases hc : p c
        · obtain ⟨l, hl⟩ := ih ⟨c :: before, after, caps⟩ (by simpa using hs)
          have hstep : (cls p).run ⟨before, c :: after, caps⟩ = [⟨c :: before, after, caps⟩] := by
            simp [run, hc]
          exact ⟨l ++ [⟨before, c :: after, caps⟩], by simp [iter, hstep, hl, Pos.skip, hc]⟩
        · exact ⟨[], by simp [iter, run, hc]⟩
  exact hiter _ s le_rfl

/-- It stops before the first character outside the class. -/
theorem run_star_stop {x : Text} {k : List (γ × Text)} (hw : ∀ c ∈ w, p c)
    (hv : ∀ c ∈ v.head?, p c = false) :
    ∃ l, (star (cls p)).run ⟨x, w ++ v, k⟩ = ⟨w.reverse ++ x, v, k⟩ :: l := by
  obtain ⟨l, hl⟩ := run_star_cls p (⟨x, w ++ v, k⟩ : Pos γ)
  have htake : (w ++ v).takeWhile p = w := by
    rw [List.takeWhile_append_of_pos hw]
    cases v with
    | nil => simp
    | cons c v =>
      have hc : p c = false := hv c rfl
      simp [hc]
  rw [htake, skip_eq rfl] at hl
  exact ⟨l, hl⟩

/-- A captured repetition of a class reads as much as it can. -/
theorem run_group_plus_cls {c : Char} {v' : Text} (hs : s.after = c :: v') (hc : p c) :
    ∃ l, (group g (plus (cls p))).run s =
      { s.skip (s.after.takeWhile p) with caps := (g, s.after.takeWhile p) :: s.caps } :: l := by
  obtain ⟨bf, af, cs⟩ := s
  obtain rfl : af = c :: v' := hs
  obtain ⟨l, hl⟩ := run_star_cls (γ := γ) p ⟨c :: bf, v', cs⟩
  have hstep : (cls p).run (⟨bf, c :: v', cs⟩ : Pos γ) = [⟨c :: bf, v', cs⟩] := by simp [run, hc]
  have hrun : (plus (cls p)).run (⟨bf, c :: v', cs⟩ : Pos γ) =
      Pos.skip ⟨c :: bf, v', cs⟩ (v'.takeWhile p) :: l := by
    rw [plus, run, hstep, List.flatMap_singleton, hl]
  refine ⟨l.map (Pos.capture g ⟨bf, c :: v', cs⟩), ?_⟩
  rw [run, hrun, List.map_cons]
  congr 1
  have htake : (c :: v').takeWhile p = c :: v'.takeWhile p := by simp [hc]
  have hskip : (Pos.skip ⟨c :: bf, v', cs⟩ (v'.takeWhile p) : Pos γ) =
      Pos.skip ⟨bf, c :: v', cs⟩ (c :: v'.takeWhile p) := by
    simp [Pos.skip]
  have hafter : (c :: v') = (c :: v'.takeWhile p) ++
      (Pos.skip ⟨bf, c :: v', cs⟩ (c :: v'.takeWhile p) : Pos γ).after := by
    have hcut := List.takeWhile_append_dropWhile (p := p) (l := v')
    rw [skip_after (v := v'.dropWhile p) (by simp [hcut])]
    simp [hcut]
  simp only [htake, hskip, Pos.capture]
  rw [since_skip (s := ⟨bf, c :: v', cs⟩) hafter]
  rfl

/-- The preferred match goes through the preferred match of the first part, if that leads on. -/
theorem head?_run_seq {l : List (Pos γ)} (ha : a.run s = u :: l) (hb : (b.run u).head? = some t) :
    ((seq a b).run s).head? = some t := by
  rw [run, ha, List.flatMap_cons, List.head?_append, hb]
  rfl

theorem run_group {l : List (Pos γ)} (h : a.run s = u :: l) :
    ∃ l', (group g a).run s = Pos.capture g s u :: l' :=
  ⟨l.map (Pos.capture g s), by rw [run, h, List.map_cons]⟩

/-- At most `n` characters, all there are. -/
theorem run_upTo {x : Text} {k : List (γ × Text)} {n : Nat} (hn : w.length ≤ n) (hw : ∀ c ∈ w, p c)
    (hv : ∀ c ∈ v.head?, p c = false) :
    ∃ l, (upTo (cls p) n).run ⟨x, w ++ v, k⟩ = ⟨w.reverse ++ x, v, k⟩ :: l := by
  induction n generalizing w x with
  | zero =>
    obtain rfl := List.eq_nil_of_length_eq_zero (Nat.le_zero.mp hn)
    exact ⟨[], rfl⟩
  | succ n ih =>
    cases w with
    | nil =>
      have hnone : (cls p).run (⟨x, v, k⟩ : Pos γ) = [] := by
        cases v with
        | nil => rfl
        | cons c v => simp [run, hv c rfl]
      refine ⟨[], ?_⟩
      show ((cls p).run ⟨x, v, k⟩).flatMap (upTo (cls p) n).run ++ [⟨x, v, k⟩] = [⟨x, v, k⟩]
      rw [hnone]
      rfl
    | cons c w =>
      obtain ⟨hc, hw⟩ := List.forall_mem_cons.mp hw
      have hstep : (cls p).run (⟨x, c :: (w ++ v), k⟩ : Pos γ) = [⟨c :: x, w ++ v, k⟩] := by
        simp [run, hc]
      obtain ⟨l, hl⟩ := ih (x := c :: x) (by simpa using hn) hw
      refine ⟨l ++ [⟨x, c :: (w ++ v), k⟩], ?_⟩
      show ((cls p).run ⟨x, c :: (w ++ v), k⟩).flatMap (upTo (cls p) n).run ++
        [⟨x, c :: (w ++ v), k⟩] = _
      rw [hstep, List.flatMap_singleton, hl]
      simp

theorem run_between {x : Text} {k : List (γ × Text)} {n m : Nat} (hn : n ≤ w.length)
    (hm : w.length ≤ m) (hw : ∀ c ∈ w, p c) (hv : ∀ c ∈ v.head?, p c = false) :
    ∃ l, (between (cls p) n m).run ⟨x, w ++ v, k⟩ = ⟨w.reverse ++ x, v, k⟩ :: l := by
  induction n generalizing w x m with
  | zero => exact run_upTo hm hw hv
  | succ n ih =>
    cases w with
    | nil => simp at hn
    | cons c w =>
      obtain ⟨hc, hw⟩ := List.forall_mem_cons.mp hw
      have hstep : (cls p).run (⟨x, c :: (w ++ v), k⟩ : Pos γ) = [⟨c :: x, w ++ v, k⟩] := by
        simp [run, hc]
      simp only [List.length_cons] at hn hm
      obtain ⟨l, hl⟩ := ih (x := c :: x) (m := m - 1) (by omega) (by omega) hw
      refine ⟨l, ?_⟩
      rw [List.cons_append, between, run, hstep, List.flatMap_singleton, hl]
      simp

theorem plain_upTo (hr : r.Plain) (n : Nat) : (upTo r n).Plain := by
  induction n with
  | zero => trivial
  | succ n ih => exact ⟨⟨hr, ih⟩, trivial⟩

theorem plain_between (hr : r.Plain) (n m : Nat) : (between r n m).Plain := by
  induction n generalizing m with
  | zero => exact plain_upTo hr m
  | succ n ih => exact ⟨hr, ih _⟩

theorem accepts_upTo {n : Nat} :
    (upTo (cls p) n : Regex γ).Accepts w ↔ w.length ≤ n ∧ ∀ c ∈ w, p c := by
  induction n generalizing w with
  | zero =>
    show w = [] ↔ _
    constructor
    · rintro rfl
      simp
    · exact fun h => List.eq_nil_of_length_eq_zero (Nat.le_zero.mp h.1)
  | succ n ih =>
    constructor
    · rintro (⟨x, y, ⟨c, hc, rfl⟩, hy, rfl⟩ | rfl)
      · obtain ⟨hlen, hall⟩ := ih.mp hy
        exact ⟨by simp; omega, by simpa using ⟨hc, hall⟩⟩
      · simp
    · rintro ⟨hlen, hall⟩
      cases w with
      | nil => exact .inr rfl
      | cons c w =>
        obtain ⟨hc, hall⟩ := List.forall_mem_cons.mp hall
        exact .inl ⟨[c], w, ⟨c, hc, rfl⟩, ih.mpr ⟨by simpa using hlen, hall⟩, rfl⟩

theorem accepts_between {n m : Nat} (hnm : n ≤ m) :
    (between (cls p) n m : Regex γ).Accepts w ↔
      n ≤ w.length ∧ w.length ≤ m ∧ ∀ c ∈ w, p c := by
  induction n generalizing w m with
  | zero =>
    rw [between, accepts_upTo]
    simp
  | succ n ih =>
    constructor
    · rintro ⟨x, y, ⟨c, hc, rfl⟩, hy, rfl⟩
      obtain ⟨hn, hm, hall⟩ := (ih (m := m - 1) (by omega)).mp hy
      exact ⟨by simp; omega, by simp; omega, by simpa using ⟨hc, hall⟩⟩
    · rintro ⟨hn, hm, hall⟩
      cases w with
      | nil => simp at hn
      | cons c w =>
        obtain ⟨hc, hall⟩ := List.forall_mem_cons.mp hall
        simp only [List.length_cons] at hn hm
        have hw := (ih (m := m - 1) (w := w) (by omega)).mpr ⟨by omega, by omega, hall⟩
        exact ⟨[c], w, ⟨c, hc, rfl⟩, hw, rfl⟩

/-- An option prefers to match. -/
theorem head?_run_opt (h : (r.run s).head? = some t) : ((opt r).run s).head? = some t := by
  show (r.run s ++ [s]).head? = some t
  rw [List.head?_append, h]
  rfl

end Regex

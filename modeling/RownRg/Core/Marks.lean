import RownRg.Core.Citations
import RownRg.Lib.Dedup

/-! The texts `markRe` matches, and what a change of some marks does to the others. -/

open PyText Regex

namespace RownRg.Citations

/-- What a mark has after its blanks. -/
inductive Core where
  | source (w₁ g w₂ : Text)
  | quote (g : Text)

def Core.text : Core → Text
  | .source w₁ g w₂ => "(출처".toList ++ (w₁ ++ (g ++ (w₂ ++ [')'])))
  | .quote g => '[' :: (g ++ [']'])

def Core.isQuote : Core → Bool
  | .source .. => false
  | .quote _ => true

def Core.Ok : Core → Prop
  | .source w₁ g w₂ =>
    (∀ c ∈ w₁, isSpace c) ∧ (numberList : Regex MarkGroup).Accepts g ∧ ∀ c ∈ w₂, isSpace c
  | .quote g => g ≠ [] ∧ ∀ c ∈ g, isDigit c

/-- The match object of a mark. -/
def mark (sp : Text) : Core → Match MarkGroup
  | .source w₁ g w₂ => ⟨sp ++ (Core.source w₁ g w₂).text, [(.source, g), (.space, sp)]⟩
  | .quote g => ⟨sp ++ (Core.quote g).text, [(.quote, g), (.space, sp)]⟩

variable {sp sp' t u v w g rest rest' : Text} {k k' : Core} {c : Char} {m m' : Match MarkGroup}

theorem Core.text_source {w₁ w₂ : Text} :
    (Core.source w₁ g w₂).text = "(출처".toList ++ (w₁ ++ (g ++ (w₂ ++ [')']))) := rfl

theorem Core.text_quote : (Core.quote g).text = '[' :: (g ++ [']']) := rfl

@[simp] theorem mark_text : (mark sp k).text = sp ++ k.text := by cases k <;> rfl

@[simp] theorem mark_space : (mark sp k).group .space = some sp := by cases k <;> rfl

@[simp] theorem mark_source_group (w₁ g w₂ : Text) :
    (mark sp (.source w₁ g w₂)).group .source = some g := rfl

@[simp] theorem mark_quote_group (g : Text) : (mark sp (.quote g)).group .quote = some g := rfl

@[simp] theorem mark_quote_source (g : Text) : (mark sp (.quote g)).group .source = none := rfl

/-! Characters of marks. -/

/-- The characters of a mark behind the opening one of its core. -/
def Inside (c : Char) : Prop :=
  isDigit c ∨ isSpace c ∨ c = ',' ∨ c = '출' ∨ c = '처' ∨ c = ')' ∨ c = ']'

theorem accepts_digits {γ : Type} : (digits : Regex γ).Accepts w ↔ w ≠ [] ∧ ∀ c ∈ w, isDigit c :=
  accepts_plus_cls

theorem accepts_spaces {γ : Type} : (spaces : Regex γ).Accepts w ↔ ∀ c ∈ w, isSpace c :=
  accepts_star_cls

/-- A number list, item by item. -/
inductive NumberList : Text → Prop
  | one {d} (hd : d ≠ []) (h : ∀ c ∈ d, isDigit c) : NumberList d
  | more {g w₁ w₂ d} (hg : NumberList g) (h₁ : ∀ c ∈ w₁, isSpace c) (h₂ : ∀ c ∈ w₂, isSpace c)
      (hd : d ≠ []) (h : ∀ c ∈ d, isDigit c) : NumberList (g ++ (w₁ ++ ',' :: (w₂ ++ d)))

theorem numberList_of_flatten {γ : Type} {ws : List Text} (hw : NumberList w)
    (hws : ∀ x ∈ ws, x ≠ [] ∧
      (cat [spaces, chr ',', spaces, digits] : Regex γ).Accepts x) :
    NumberList (w ++ ws.flatten) := by
  induction ws generalizing w with
  | nil => simpa using hw
  | cons x ws ih =>
    obtain ⟨⟨-, hx⟩, hrest⟩ := List.forall_mem_cons.mp hws
    simp only [cat, Accepts] at hx
    obtain ⟨w₁, _, h₁, ⟨_, _, hc, ⟨w₂, d, h₂, hd, rfl⟩, rfl⟩, rfl⟩ := hx
    obtain rfl := accepts_chr.1 hc
    obtain ⟨hd, hall⟩ := accepts_digits.1 hd
    have h := ih (.more hw (accepts_spaces.1 h₁) (accepts_spaces.1 h₂) hd hall) hrest
    simpa using h

theorem accepts_numberList {γ : Type} : (numberList : Regex γ).Accepts g ↔ NumberList g := by
  constructor
  · intro h
    simp only [numberList, Accepts] at h
    obtain ⟨d, _, hd, ⟨ws, hws, rfl⟩, rfl⟩ := h
    obtain ⟨hne, hall⟩ := accepts_digits.1 hd
    exact numberList_of_flatten (.one hne hall) hws
  · intro h
    simp only [numberList, Accepts]
    induction h with
    | one hd h => exact ⟨_, [], accepts_digits.2 ⟨hd, h⟩, ⟨[], by simp, rfl⟩, by simp⟩
    | @more g w₁ w₂ e hg h₁ h₂ hd h ih =>
      obtain ⟨d, _, hd', ⟨ws, hws, rfl⟩, rfl⟩ := ih
      refine ⟨d, _, hd', ⟨ws ++ [w₁ ++ ',' :: (w₂ ++ e)], ?_, rfl⟩, by simp⟩
      simp only [List.mem_append, List.mem_singleton]
      rintro x (hx | rfl)
      · exact hws x hx
      · refine ⟨by simp, ?_⟩
        simp only [cat, Accepts]
        exact ⟨w₁, _, accepts_spaces.2 h₁,
          ⟨[','], _, accepts_chr.2 rfl,
            ⟨w₂, e, accepts_spaces.2 h₂, accepts_digits.2 ⟨hd, h⟩, rfl⟩, rfl⟩, rfl⟩

theorem numberList_chars (h : NumberList g) : ∀ c ∈ g, isDigit c ∨ isSpace c ∨ c = ',' := by
  induction h with
  | one _ h => exact fun c hc => .inl (h c hc)
  | more _ h₁ h₂ _ h ih => grind

theorem numberList_head (h : NumberList g) : ∃ c x, g = c :: x ∧ isDigit c := by
  induction h with
  | @one d hd h =>
    obtain ⟨c, x, rfl⟩ := List.exists_cons_of_ne_nil hd
    exact ⟨c, x, rfl, h c (by simp)⟩
  | more _ _ _ _ _ ih =>
    obtain ⟨c, x, rfl, hc⟩ := ih
    exact ⟨c, _, rfl, hc⟩

theorem numberList_last (h : NumberList g) : ∃ c x, g = x ++ [c] ∧ isDigit c := by
  have hdigits : ∀ d : Text, d ≠ [] → (∀ c ∈ d, isDigit c) → ∃ c x, d = x ++ [c] ∧ isDigit c := by
    intro d hd h
    refine ⟨d.getLast hd, d.dropLast, (List.dropLast_append_getLast hd).symm, ?_⟩
    exact h _ (List.getLast_mem hd)
  cases h with
  | one hd h => exact hdigits _ hd h
  | @more g w₁ w₂ d _ _ _ hd h =>
    obtain ⟨c, x, rfl, hc⟩ := hdigits _ hd h
    exact ⟨c, g ++ (w₁ ++ ',' :: (w₂ ++ x)), by simp, hc⟩

theorem not_inside_open {o : Char} (h : o = '(' ∨ o = '[') : ¬ Inside o := by
  rcases h with rfl | rfl <;> simp [Inside] <;> decide

theorem not_isHSpace_of_not_inside (h : ¬ Inside c) : isHSpace c = false := by
  by_contra hc
  exact h (.inr (.inl (isSpace_of_isHSpace (by simpa using hc))))

/-- A core is an opening character followed by inner ones, the last of which is no blank. -/
theorem core_shape (hk : k.Ok) :
    ∃ o x e, k.text = o :: (x ++ [e]) ∧ o = (if k.isQuote then '[' else '(') ∧
      isSpace e = false ∧ ∀ c ∈ x ++ [e], Inside c := by
  cases k with
  | source w₁ g w₂ =>
    obtain ⟨h₁, hg, h₂⟩ := hk
    have hg := numberList_chars (accepts_numberList.1 hg)
    refine ⟨'(', '출' :: '처' :: (w₁ ++ (g ++ w₂)), ')', by simp [Core.text_source], rfl, by decide, ?_⟩
    simp only [Inside, List.mem_cons, List.mem_append, List.not_mem_nil, or_false]
    grind
  | quote g =>
    obtain ⟨-, hg⟩ := hk
    refine ⟨'[', g, ']', rfl, rfl, by decide, ?_⟩
    simp only [Inside, List.mem_append, List.mem_singleton]
    grind

theorem core_head (hk : k.Ok) (rest : Text) :
    (k.text ++ rest).head? = some (if k.isQuote then '[' else '(') := by
  obtain ⟨o, x, e, h, ho, -⟩ := core_shape hk
  simp [h, ho]

theorem core_head_open (hk : k.Ok) : ∀ c ∈ (k.text ++ rest).head?, c = '(' ∨ c = '[' := by
  rw [core_head hk]
  rintro c ⟨⟩
  cases k.isQuote <;> simp

/-- The pattern's lookahead: a quotation mark is not the label of a link. -/
def Fits (k : Core) (rest : Text) : Prop := k.isQuote → rest.head? ≠ some '('

/-- A core determines where it ends. -/
theorem core_unique (hk : k.Ok) (hk' : k'.Ok) (h : k.text ++ rest = k'.text ++ rest') :
    k = k' ∧ rest = rest' := by
  cases k with
  | source w₁ g w₂ =>
    cases k' with
    | quote g' => simp [Core.text_source, Core.text_quote] at h
    | source w₁' g' w₂' =>
      obtain ⟨h₁, hg, h₂⟩ := hk
      obtain ⟨h₁', hg', h₂'⟩ := hk'
      rw [accepts_numberList] at hg hg'
      have hclose : ∀ {x y z}, (∀ c ∈ x, isSpace c) → NumberList y → (∀ c ∈ z, isSpace c) →
          ∀ c ∈ x ++ (y ++ z), (c != ')') = true := by
        intro x y z hx hy hz c hc
        rw [bne_iff_ne]
        rintro rfl
        simp only [List.mem_append] at hc
        rcases hc with hc | hc | hc
        · exact absurd (hx _ hc) (by decide)
        · rcases numberList_chars hy _ hc with hc | hc | hc <;> exact absurd hc (by decide)
        · exact absurd (hz _ hc) (by decide)
      have hinner : (w₁ ++ (g ++ w₂)) ++ (')' :: rest) = (w₁' ++ (g' ++ w₂')) ++ (')' :: rest') := by
        simpa [Core.text_source, Core.text_quote] using h
      obtain ⟨hw, hr⟩ := append_inj_of_all (hclose h₁ hg h₂) (hclose h₁' hg' h₂')
        (by simp) (by simp) hinner
      obtain ⟨c, x, hx, hc⟩ := numberList_head hg
      obtain ⟨c', x', hx', hc'⟩ := numberList_head hg'
      have hdigit : ∀ {d}, isDigit d → isSpace d = false := fun hd => by
        by_contra hs
        simp [not_isDigit_of_isSpace (by simpa using hs)] at hd
      obtain ⟨rfl, hgw⟩ := append_inj_of_all h₁ h₁' (by simp [hx, hdigit hc])
        (by simp [hx', hdigit hc']) hw
      obtain ⟨e, y, hy, he⟩ := numberList_last hg
      obtain ⟨e', y', hy', he'⟩ := numberList_last hg'
      have hrev : w₂.reverse ++ g.reverse = w₂'.reverse ++ g'.reverse := by
        simpa only [List.reverse_append] using congrArg List.reverse hgw
      obtain ⟨hw₂, hg₂⟩ := append_inj_of_all (by simpa using h₂) (by simpa using h₂')
        (by simp [hy, hdigit he]) (by simp [hy', hdigit he']) hrev
      obtain rfl := List.reverse_inj.mp hw₂
      obtain rfl := List.reverse_inj.mp hg₂
      exact ⟨rfl, (List.cons.inj hr).2⟩
  | quote g =>
    cases k' with
    | source w₁' g' w₂' => simp [Core.text_source, Core.text_quote] at h
    | quote g' =>
      have hinner : g ++ (']' :: rest) = g' ++ (']' :: rest') := by simpa [Core.text_source, Core.text_quote] using h
      have hclose : ∀ {r : Text}, ∀ c ∈ (']' :: r).head?, isDigit c = false := by
        rintro r c ⟨⟩
        decide
      obtain ⟨rfl, hr⟩ := append_inj_of_all hk.2 hk'.2 hclose hclose hinner
      exact ⟨rfl, (List.cons.inj hr).2⟩

theorem mark_unique (hsp : ∀ c ∈ sp, isHSpace c) (hsp' : ∀ c ∈ sp', isHSpace c) (hk : k.Ok)
    (hk' : k'.Ok) (h : sp ++ (k.text ++ rest) = sp' ++ (k'.text ++ rest')) :
    sp = sp' ∧ k = k' ∧ rest = rest' := by
  have hopen : ∀ {k : Core} {r : Text}, k.Ok → ∀ c ∈ (k.text ++ r).head?, isHSpace c = false :=
    fun hk c hc => not_isHSpace_of_not_inside (not_inside_open (core_head_open hk c hc))
  obtain ⟨rfl, hcore⟩ := append_inj_of_all hsp hsp' (hopen hk) (hopen hk') h
  obtain ⟨rfl, rfl⟩ := core_unique hk hk' hcore
  exact ⟨rfl, rfl, rfl⟩

/-! The pattern matches exactly the marks. -/

theorem plain_numberList {γ : Type} : (numberList : Regex γ).Plain := by
  simp [numberList, digits, spaces, cat, chr, digit, Regex.space, plus, Plain]

theorem mem_markRe {before after : Text} {q : Regex.Pos MarkGroup} :
    q ∈ markRe.run ⟨before, after, []⟩ ↔
      ∃ sp k rest, (∀ c ∈ sp, isHSpace c) ∧ k.Ok ∧ Fits k rest ∧ after = (mark sp k).text ++ rest ∧
        q = ⟨(mark sp k).text.reverse ++ before, rest, (mark sp k).caps⟩ := by
  have hspaces : (spaces : Regex MarkGroup).Plain := trivial
  have hdigits : (digits : Regex MarkGroup).Plain := ⟨trivial, trivial⟩
  simp only [markRe, cat]
  rw [mem_run_seq_group (by trivial)]
  simp only [mem_run_alt, mem_run_seq_plain (plain_lit _), mem_run_seq_plain hspaces,
    mem_run_seq_group plain_numberList, mem_run_seq_group hdigits,
    mem_run_seq_plain (a := chr '[') trivial, mem_run_seq_plain (a := chr ']') trivial,
    mem_run_plain_iff (a := chr ')') trivial, mem_run_notAhead_chr, accepts_lit, accepts_chr,
    accepts_spaces, accepts_digits, hspace, accepts_star_cls]
  constructor
  · rintro ⟨sp, v, hsp, rfl, ⟨_, _, rfl, rfl, w₁, _, h₁, rfl, g, _, hg, rfl, w₂, _, h₂, rfl, _, rest,
      rfl, rfl, rfl⟩ | ⟨_, _, rfl, rfl, g, _, hg, rfl, _, rest, rfl, rfl, hf, rfl⟩⟩
    · exact ⟨sp, .source w₁ g w₂, rest, hsp, ⟨h₁, hg, h₂⟩, by simp [Fits, Core.isQuote],
        by simp [Core.text_source], by simp [Core.text_source, mark]⟩
    · exact ⟨sp, .quote g, rest, hsp, hg, fun _ => hf, by simp [Core.text_quote],
        by simp [Core.text_quote, mark]⟩
  · rintro ⟨sp, k, rest, hsp, hk, hf, rfl, rfl⟩
    refine ⟨sp, k.text ++ rest, hsp, by simp, ?_⟩
    cases k with
    | source w₁ g w₂ =>
      obtain ⟨h₁, hg, h₂⟩ := hk
      exact .inl ⟨_, _, rfl, by simp [Core.text_source], w₁, _, h₁, rfl, g, _, hg, rfl, w₂, _, h₂, rfl,
        _, rest, rfl, rfl, by simp [Core.text_source, mark]⟩
    | quote g =>
      exact .inr ⟨_, _, rfl, by simp [Core.text_quote], g, _, hk, rfl, _, rest, rfl, rfl, hf rfl,
        by simp [Core.text_quote, mark]⟩

theorem first_markRe (before : Text) :
    markRe.first before t = some (m, rest) ↔
      ∃ sp k, (∀ c ∈ sp, isHSpace c) ∧ k.Ok ∧ Fits k rest ∧ m = mark sp k ∧ t = m.text ++ rest := by
  have hsince : ∀ {sp k rest}, (⟨before, (mark sp k).text ++ rest, []⟩ : Pos MarkGroup).since
      ⟨(mark sp k).text.reverse ++ before, rest, (mark sp k).caps⟩ = (mark sp k).text :=
    since_skip rfl
  constructor
  · intro h
    obtain ⟨q, hq, hm⟩ := Option.map_eq_some_iff.mp h
    obtain ⟨sp, k, rest, hsp, hk, hf, rfl, rfl⟩ := mem_markRe.1 (List.mem_of_head? hq)
    rw [hsince] at hm
    obtain ⟨rfl, rfl⟩ := Prod.mk.inj hm
    exact ⟨sp, k, hsp, hk, hf, rfl, rfl⟩
  · rintro ⟨sp, k, hsp, hk, hf, rfl, rfl⟩
    have hmem := (@mem_markRe before).mpr ⟨sp, k, rest, hsp, hk, hf, rfl, rfl⟩
    obtain ⟨q, hq⟩ := Option.ne_none_iff_exists'.mp
      (mt List.head?_eq_none_iff.mp (List.ne_nil_of_mem hmem))
    obtain ⟨sp', k', rest', hsp', hk', -, htext, rfl⟩ := mem_markRe.1 (List.mem_of_head? hq)
    obtain ⟨rfl, rfl, rfl⟩ := mark_unique hsp hsp' hk hk' (by simpa using htext)
    simp only [first, hq, Option.map_some, hsince]

/-- No mark starts at the beginning of the text. -/
def NoMark (t : Text) : Prop :=
  ∀ sp k rest, (∀ c ∈ sp, isHSpace c) → k.Ok → Fits k rest → t ≠ sp ++ (k.text ++ rest)

theorem first_markRe_none : markRe.first [] t = none ↔ NoMark t := by
  constructor
  · rintro h sp k rest hsp hk hf rfl
    have hsome := (first_markRe []).mpr ⟨sp, k, hsp, hk, hf, rfl, rfl⟩
    simp [h] at hsome
  · intro h
    by_contra hne
    obtain ⟨⟨m, rest⟩, hm⟩ := Option.ne_none_iff_exists'.mp hne
    obtain ⟨sp, k, hsp, hk, hf, rfl, ht⟩ := (first_markRe []).mp hm
    exact h sp k rest hsp hk hf (by simpa using ht)

/-! A text as its marks and the characters between them. -/

def marks (t : Text) : List (Piece MarkGroup) := markRe.pieces t

/-- The lists of pieces that the scan of a text produces. -/
inductive Tokens : List (Piece MarkGroup) → Prop
  | nil : Tokens []
  | plain {c ps} (h : NoMark (c :: render ps)) (hps : Tokens ps) : Tokens (.plain c :: ps)
  | mark {sp k ps} (hsp : ∀ c ∈ sp, isHSpace c) (hk : k.Ok) (hf : Fits k (render ps))
      (hps : Tokens ps) : Tokens (.hit (Citations.mark sp k) :: ps)

theorem blind_markRe : markRe.Blind := by
  simp [markRe, cat, numberList, digits, spaces, lit, chr, digit, Regex.space, hspace, plus, Blind]

theorem core_text_ne_nil (hk : k.Ok) : k.text ≠ [] := by
  obtain ⟨o, x, e, h, -⟩ := core_shape hk
  simp [h]

theorem marks_plain (h : NoMark (c :: t)) : marks (c :: t) = .plain c :: marks t :=
  pieces_plain blind_markRe (first_markRe_none.2 h)

theorem marks_mark (hsp : ∀ c ∈ sp, isHSpace c) (hk : k.Ok) (hf : Fits k rest) :
    marks (sp ++ (k.text ++ rest)) = .hit (mark sp k) :: marks rest :=
  pieces_hit blind_markRe (by simp [core_text_ne_nil hk])
    ((first_markRe []).mpr ⟨sp, k, hsp, hk, hf, rfl, by simp⟩)

@[simp] theorem render_marks (t : Text) : render (marks t) = t := render_pieces _ _

theorem marks_render {ps : List (Piece MarkGroup)} (h : Tokens ps) : marks (render ps) = ps := by
  induction h with
  | nil => rfl
  | plain h _ ih => rw [render_plain, marks_plain h, ih]
  | mark hsp hk hf _ ih =>
    rw [render_hit, mark_text, List.append_assoc, marks_mark hsp hk hf, ih]

theorem tokens_marks (t : Text) : Tokens (marks t) := by
  generalize hn : t.length = n
  induction n using Nat.strongRecOn generalizing t with
  | _ n ih =>
    cases t with
    | nil => exact .nil
    | cons c t =>
      by_cases h : NoMark (c :: t)
      · rw [marks_plain h]
        exact .plain (by simpa using h) (ih t.length (by simp at hn; omega) t rfl)
      · simp only [NoMark, not_forall, not_not] at h
        obtain ⟨sp, k, rest, hsp, hk, hf, ht⟩ := h
        rw [ht, marks_mark hsp hk hf]
        have hpos := List.length_pos_of_ne_nil (core_text_ne_nil hk)
        have hlen := congrArg List.length ht
        simp only [List.length_append] at hlen
        exact .mark hsp hk (by simpa using hf) (ih rest.length (by omega) rest rfl)

/-! Changing the numbers of marks leaves every other mark where it is. -/

/-- Two texts that differ from a point on, where both go on with a character that no mark has
inside: before that point the same marks start. -/
theorem noMark_swap {v v' : Text} (hu : u ≠ []) (hhead : v.head? = v'.head?)
    (hin : ∀ c ∈ v.head?, ¬ Inside c)
    (hcore : ∀ k rest, k.Ok → Fits k rest → v' = k.text ++ rest →
      ∃ k rest, k.Ok ∧ Fits k rest ∧ v = k.text ++ rest)
    (h : NoMark (u ++ v)) : NoMark (u ++ v') := by
  rintro sp k rest hsp hk hf heq
  rcases List.append_eq_append_iff.mp heq with ⟨y, rfl, hv⟩ | ⟨y, rfl, hy⟩
  · -- the blanks of the mark reach over `u`
    cases y with
    | nil =>
      obtain ⟨k', rest', hk', hf', rfl⟩ := hcore k rest hk hf hv
      exact h u k' rest' (by simpa using hsp) hk' hf' rfl
    | cons c y =>
      refine absurd (hsp c (by simp)) ?_
      simp [not_isHSpace_of_not_inside (hin c (by simp [hhead, hv]))]
  · obtain ⟨o, x, e, hx, -, -, hinside⟩ := core_shape hk
    cases y with
    | nil =>
      obtain ⟨k', rest', hk', hf', rfl⟩ := hcore k rest hk hf (by simpa using hy.symm)
      exact h sp k' rest' hsp hk' hf' (by simp)
    | cons o' y =>
      -- the core opens inside `u`, so it also ends there
      rw [hx] at hy
      obtain ⟨rfl, htail⟩ : o = o' ∧ (x ++ [e]) ++ rest = y ++ v' := by simpa using hy
      obtain ⟨z, rfl, rfl⟩ : ∃ z, y = (x ++ [e]) ++ z ∧ rest = z ++ v' := by
        rcases List.append_eq_append_iff.mp htail with ⟨z, hz, hv⟩ | ⟨z, hz, hv⟩
        · exact ⟨z, hz, hv⟩
        · cases z with
          | nil => exact ⟨[], by simpa using hz.symm, by simpa using hv.symm⟩
          | cons c z => exact absurd (hinside c (by simp [hz])) (hin c (by simp [hhead, hv]))
      refine h sp k (z ++ v) hsp hk (fun hq => ?_) (by simp [hx])
      have hne := hf hq
      cases z <;> simpa [hhead] using hne

/-- Pieces that differ at most in the numbers of a mark. -/
inductive Alike : Piece MarkGroup → Piece MarkGroup → Prop
  | plain (c : Char) : Alike (.plain c) (.plain c)
  | mark {sp : Text} {k k' : Core} (hsp : ∀ c ∈ sp, isHSpace c) (hk : k.Ok) (hk' : k'.Ok)
      (hq : k.isQuote = k'.isQuote) :
      Alike (.hit (Citations.mark sp k)) (.hit (Citations.mark sp k'))

variable {ps qs : List (Piece MarkGroup)}

theorem mark_inj (hsp : ∀ c ∈ sp, isHSpace c) (hsp' : ∀ c ∈ sp', isHSpace c) (hk : k.Ok)
    (hk' : k'.Ok) (h : mark sp k = mark sp' k') : sp = sp' ∧ k = k' := by
  have htext : sp ++ (k.text ++ []) = sp' ++ (k'.text ++ []) := by
    simpa using congrArg Match.text h
  obtain ⟨rfl, rfl, -⟩ := mark_unique hsp hsp' hk hk' htext
  exact ⟨rfl, rfl⟩

theorem tokens_mark (hsp : ∀ c ∈ sp, isHSpace c) (hk : k.Ok)
    (h : Tokens (.hit (mark sp k) :: ps)) : Fits k (render ps) ∧ Tokens ps := by
  generalize hm : mark sp k = m at h
  cases h with
  | mark hsp' hk' hf hps =>
    obtain ⟨rfl, rfl⟩ := mark_inj hsp hsp' hk hk' hm
    exact ⟨hf, hps⟩

theorem alike_render (hps : Tokens ps) (h : List.Forall₂ Alike ps qs) :
    ∃ u v v', render ps = u ++ v ∧ render qs = u ++ v' ∧ v.head? = v'.head? ∧
      (v = [] ∨ ∃ k rest, k.Ok ∧ Fits k rest ∧ v = k.text ++ rest) := by
  induction h with
  | nil => exact ⟨[], [], [], rfl, rfl, rfl, .inl rfl⟩
  | @cons p q ps qs hpq hrest ih =>
    cases hpq with
    | plain c =>
      cases hps with
      | plain _ hps =>
        obtain ⟨u, v, v', hu, hu', hhead, hv⟩ := ih hps
        exact ⟨c :: u, v, v', by simp [hu], by simp [hu'], hhead, hv⟩
    | @mark sp k k' hsp hk hk' hq =>
      obtain ⟨hf, hps⟩ := tokens_mark hsp hk hps
      refine ⟨sp, k.text ++ render ps, k'.text ++ render qs, by simp, by simp, ?_,
        .inr ⟨k, _, hk, hf, rfl⟩⟩
      rw [core_head hk, core_head hk', hq]

theorem alike_head (hps : Tokens ps) (h : List.Forall₂ Alike ps qs) :
    (render ps).head? = (render qs).head? := by
  obtain ⟨u, v, v', hu, hu', hhead, -⟩ := alike_render hps h
  cases u <;> simp [hu, hu', hhead]

/-- Changing the numbers of marks keeps the cut of the text. -/
theorem tokens_alike (hps : Tokens ps) (h : List.Forall₂ Alike ps qs) : Tokens qs := by
  induction h with
  | nil => exact .nil
  | @cons p q ps qs hpq hrest ih =>
    cases hpq with
    | plain c =>
      cases hps with
      | plain hno hps =>
        refine .plain ?_ (ih hps)
        obtain ⟨u, v, v', hu, hu', hhead, hv⟩ := alike_render hps hrest
        rw [hu'] at *
        rw [hu] at hno
        refine noMark_swap (u := c :: u) (by simp) hhead ?_ ?_ hno
        · rcases hv with rfl | ⟨k, rest, hk, -, rfl⟩
          · simp
          · exact fun d hd => not_inside_open (core_head_open hk d hd)
        · rintro k rest hk - rfl
          rcases hv with rfl | hv
          · simp [core_head hk] at hhead
          · exact hv
    | mark hsp hk hk' hq =>
      obtain ⟨hf, hps⟩ := tokens_mark hsp hk hps
      refine .mark hsp hk' ?_ (ih hps)
      rw [Fits, ← hq, ← alike_head hps hrest]
      exact hf

end RownRg.Citations

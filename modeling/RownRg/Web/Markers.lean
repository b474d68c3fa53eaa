import RownRg.Core.Renumbering
import RownRg.Lib.Script
import RownRg.Lib.Spots

/-! The source marks of the editor: its pattern, and the correction of a mark by one number. -/

open PyText Regex

namespace RownRg.Markers

def isOpening (c : Char) : Bool := "（(".toList.contains c

def isClosing (c : Char) : Bool := ")）".toList.contains c

variable {γ : Type}

def blanks : Regex γ := star (cls Script.isSpace)

/-- `\d{1,3}` -/
def shortNumber : Regex γ := between (cls Script.isDigit) 1 3

/-- `\d{1,3}(?:\s*,\s*\d{1,3})*` -/
def shortList : Regex γ := seq shortNumber (star (cat [blanks, chr ',', blanks, shortNumber]))

def labels : List Text := ["출처".toList, "자료".toList, "참고".toList]

/-- `SOURCE_MARK_RE` -/
def sourceMarkRe : Regex Unit :=
  cat [star (cls fun c => Script.isSpace c && c != '\n'), cls isOpening, blanks, anyOf (labels.map lit),
    blanks, group () shortList, blanks, cls isClosing]

/-- `Number.parseInt(t, 10)` of a text that begins with a numeral. -/
def parseInt (t : Text) : Nat := natOf (t.takeWhile Script.isDigit)

/-- `m[1].split(",").map((x) => Number.parseInt(x.trim(), 10))` -/
def listed (g : Text) : List Nat := (g.splitOn ',').map fun x => parseInt (Script.trim x)

def markNumbers (m : Match Unit) : List Nat := listed ((m.group ()).getD [])

/-- The text up to the last closing parenthesis, where `m[0].search(/[)）][^)）]*$/)` finds it. -/
def beforeClosing (t : Text) : Text := ((t.reverse.dropWhile fun c => !isClosing c).drop 1).reverse

/-- The mark with `, n` before its closing parenthesis. -/
def withNumber (n : Nat) (mark : Text) : Text :=
  let head := beforeClosing mark
  head ++ (", ".toList ++ (ofNat n ++ mark.drop head.length))

/-- The first mark takes the number, unless it has it already. -/
def appendSourceNumber (sentence : Text) (n : Nat) : Option Text :=
  match (sourceMarkRe.spots sentence).head? with
  | none => none
  | some (before, m, after) =>
    if n ∈ markNumbers m then none
    else some (before.reverse ++ (withNumber n m.text ++ after))

/-- The first mark with the number loses it; a mark without any other number goes. -/
def removeSourceNumber (sentence : Text) (n : Nat) : Option Text :=
  (sourceMarkRe.spots sentence).findSome? fun (before, m, after) =>
    if n ∈ markNumbers m then
      match (markNumbers m).filter (· != n) with
      | [] => some (before.reverse ++ after)
      | rest =>
        let rebuilt := replaceFirst ((m.group ()).getD []) (joinWith ", ".toList (rest.map ofNat)) m.text
        some (before.reverse ++ (rebuilt ++ after))
    else none

variable {c : Char} {d g u v w w₁ w₂ : Text} {l : List Nat} {n : Nat}

/-! Characters. -/

/-- A blank of the editor is one of the back end, save for the byte order mark. -/
theorem isSpace_of_script (h : Script.isSpace c) (hc : c ≠ '\uFEFF') : isSpace c := by
  have hall : ∀ n ∈ Script.spaceCodes, n = 65279 ∨ n ∈ spaceCodes := by decide
  rcases hall c.toNat (by simpa [Script.isSpace] using h) with heq | hmem
  · exact absurd (Char.toNat_inj.mp heq) hc
  · simpa [isSpace] using hmem

/-- A number of the editor. -/
def Short (d : Text) : Prop := d ≠ [] ∧ d.length ≤ 3 ∧ ∀ c ∈ d, Script.isDigit c

/-- White space of the editor. -/
def Blank (w : Text) : Prop := ∀ c ∈ w, Script.isSpace c

/-- A list of numbers and what it says. -/
inductive Nums : Text → List Nat → Prop
  | one {e : Text} (he : Short e) : Nums e [natOf e]
  | more {e x y t : Text} {ns : List Nat} (he : Short e) (hx : Blank x) (hy : Blank y)
      (ht : Nums t ns) : Nums (e ++ (x ++ ',' :: (y ++ t))) (natOf e :: ns)

theorem accepts_blanks : (blanks : Regex γ).Accepts w ↔ Blank w := accepts_star_cls

theorem accepts_shortNumber : (shortNumber : Regex γ).Accepts d ↔ Short d := by
  unfold shortNumber Short
  rw [accepts_between (by omega), ← List.length_pos_iff]
  exact Iff.rfl

theorem plain_shortNumber : (shortNumber : Regex γ).Plain := plain_between (r := cls Script.isDigit) trivial 1 3

theorem plain_shortList : (shortList : Regex γ).Plain :=
  ⟨plain_shortNumber, trivial, trivial, trivial, plain_shortNumber⟩

theorem accepts_item : (cat [blanks, chr ',', blanks, shortNumber] : Regex γ).Accepts w ↔
    ∃ x y d, Blank x ∧ Blank y ∧ Short d ∧ w = x ++ ',' :: (y ++ d) := by
  simp only [cat, Accepts, accepts_blanks, accepts_shortNumber, accepts_chr]
  constructor
  · rintro ⟨x, _, hx, ⟨_, _, rfl, ⟨y, d, hy, hd, rfl⟩, rfl⟩, rfl⟩
    exact ⟨x, y, d, hx, hy, hd, rfl⟩
  · rintro ⟨x, y, d, hx, hy, hd, rfl⟩
    exact ⟨x, _, hx, ⟨_, _, rfl, ⟨y, d, hy, hd, rfl⟩, rfl⟩, rfl⟩

theorem accepts_shortList : (shortList : Regex γ).Accepts g ↔ ∃ l, Nums g l := by
  constructor
  · rintro ⟨d, _, hd, ⟨ws, hws, rfl⟩, rfl⟩
    rw [accepts_shortNumber] at hd
    induction ws generalizing d with
    | nil => exact ⟨_, by simpa using Nums.one hd⟩
    | cons w ws ih =>
      obtain ⟨⟨-, hw⟩, hrest⟩ := List.forall_mem_cons.mp hws
      obtain ⟨x, y, e, hx, hy, he, rfl⟩ := accepts_item.1 hw
      obtain ⟨l, hl⟩ := ih e he hrest
      exact ⟨_, by simpa using Nums.more hd hx hy hl⟩
  · rintro ⟨l, h⟩
    induction h with
    | one hd => exact ⟨_, [], accepts_shortNumber.2 hd, ⟨[], by simp, rfl⟩, by simp⟩
    | @more e x y ns t hd hx hy ht ih =>
      obtain ⟨d, _, hd', ⟨ws, hws, rfl⟩, rfl⟩ := ih
      have hitem : x ++ ',' :: (y ++ d) ≠ [] ∧
          (cat [blanks, chr ',', blanks, shortNumber] : Regex γ).Accepts (x ++ ',' :: (y ++ d)) :=
        ⟨by simp, accepts_item.2 ⟨x, y, d, hx, hy, accepts_shortNumber.1 hd', rfl⟩⟩
      refine ⟨e, _, accepts_shortNumber.2 hd, ⟨(x ++ ',' :: (y ++ d)) :: ws, ?_, rfl⟩, by simp⟩
      exact List.forall_mem_cons.mpr ⟨hitem, hws⟩

theorem blank_append (hu : Blank u) (hv : Blank v) : Blank (u ++ v) :=
  fun c hc => (List.mem_append.mp hc).elim (hu c) (hv c)

theorem nums_snoc (hg : Nums g l) (h₁ : Blank w₁) (h₂ : Blank w₂) (hd : Short d) :
    Nums (g ++ (w₁ ++ ',' :: (w₂ ++ d))) (l ++ [natOf d]) := by
  induction hg with
  | one he => exact .more he h₁ h₂ (.one hd)
  | more he hx hy _ ih => simpa using Nums.more he hx hy ih

theorem nums_head (hg : Nums g l) : ∃ c x, g = c :: x ∧ Script.isDigit c := by
  have hshort : ∀ {e : Text}, Short e → ∃ c x, e = c :: x ∧ Script.isDigit c := by
    intro e he
    obtain ⟨c, x, rfl⟩ := List.exists_cons_of_ne_nil he.1
    exact ⟨c, x, rfl, he.2.2 c (by simp)⟩
  cases hg with
  | one he => exact hshort he
  | more he _ _ _ =>
    obtain ⟨c, x, rfl, hc⟩ := hshort he
    exact ⟨c, _, rfl, hc⟩

theorem nums_chars (hg : Nums g l) :
    ∀ c ∈ g, Script.isDigit c ∨ Script.isSpace c ∨ c = ',' := by
  induction hg with
  | one he => exact fun c hc => .inl (he.2.2 c hc)
  | more he hx hy _ ih =>
    intro c hc
    simp only [List.mem_append, List.mem_cons] at hc
    rcases hc with hc | hc | rfl | hc | hc
    · exact .inl (he.2.2 c hc)
    · exact .inr (.inl (hx c hc))
    · exact .inr (.inr rfl)
    · exact .inr (.inl (hy c hc))
    · exact ih c hc

theorem comma_notMem (hu : Blank u) (hv : ∀ c ∈ v, Script.isDigit c) (hw : Blank w) :
    ',' ∉ u ++ (v ++ w) := by
  intro hmem
  simp only [List.mem_append] at hmem
  rcases hmem with h | h | h
  · exact absurd (hu _ h) (by decide)
  · exact absurd (hv _ h) (by decide)
  · exact absurd (hw _ h) (by decide)

theorem trim_blanks (hu : Blank u) (hd : Short d) (hw : Blank w) :
    Script.trim (u ++ (d ++ w)) = d := by
  obtain ⟨hne, -, hall⟩ := hd
  have hfront : ∀ {x y : Text}, Blank x → y ≠ [] → (∀ c ∈ y, Script.isDigit c) → ∀ z,
      (x ++ (y ++ z)).dropWhile Script.isSpace = y ++ z := by
    intro x y hx hy hyall z
    refine (takeWhile_append_stop hx fun c hc => ?_).2
    obtain ⟨e, y, rfl⟩ := List.exists_cons_of_ne_nil hy
    obtain rfl : e = c := by simpa using hc
    exact Script.not_isSpace_of_isDigit (hyall e (by simp))
  have hback := hfront (x := w.reverse) (y := d.reverse)
    (fun c hc => hw c (List.mem_reverse.mp hc)) (by simpa using hne)
    (fun c hc => hall c (List.mem_reverse.mp hc)) []
  rw [List.append_nil] at hback
  rw [Script.trim, hfront hu hne hall, List.reverse_append, hback, List.reverse_reverse]

theorem parseInt_trim (hu : Blank u) (hd : Short d) (hw : Blank w) :
    parseInt (Script.trim (u ++ (d ++ w))) = natOf d := by
  rw [trim_blanks hu hd hw, parseInt, List.takeWhile_eq_self_iff.mpr hd.2.2]

theorem listed_blanks (hg : Nums g l) (hu : Blank u) (hw : Blank w) : listed (u ++ (g ++ w)) = l := by
  induction hg generalizing u with
  | one he =>
    have hcomma := comma_notMem hu he.2.2 hw
    rw [listed, List.splitOn_eq_singleton hcomma]
    exact congrArg (fun x => [x]) (parseInt_trim hu he hw)
  | @more e x y t ns he hx hy _ ih =>
    have hcomma := comma_notMem hu he.2.2 hx
    have hcut : u ++ ((e ++ (x ++ ',' :: (y ++ t))) ++ w) =
        (u ++ (e ++ x)) ++ ',' :: (y ++ (t ++ w)) := by simp
    rw [listed, hcut, List.splitOn_append_cons_self_of_not_mem hcomma, List.map_cons,
      parseInt_trim hu he hx]
    exact congrArg _ (ih hy)

theorem listed_eq (hg : Nums g l) : listed g = l := by
  simpa using listed_blanks (u := []) (w := []) hg (by simp [Blank]) (by simp [Blank])

/-! The back end reads the same numbers. -/

theorem numSplitRe_blanks (h₁ : ∀ c ∈ w₁, isSpace c) (h₂ : ∀ c ∈ w₂, isSpace c) (h : isDigit c) :
    Citations.numSplitRe.first [] (w₁ ++ ',' :: (w₂ ++ c :: v)) =
      some (⟨w₁ ++ ',' :: w₂, []⟩, c :: v) := by
  obtain ⟨l, hl⟩ := run_star_stop (γ := Unit) (x := []) (k := []) (v := ',' :: (w₂ ++ c :: v)) h₁
    (by rintro c ⟨⟩; decide)
  obtain ⟨l', hl'⟩ := run_star_stop (γ := Unit) (x := ',' :: w₁.reverse) (k := []) (v := c :: v) h₂
    (by rintro d ⟨⟩; exact Citations.not_isSpace_of_isDigit h)
  have hhead : (Citations.numSplitRe.run ⟨[], w₁ ++ ',' :: (w₂ ++ c :: v), []⟩).head? =
      some ⟨w₂.reverse ++ ',' :: w₁.reverse, c :: v, []⟩ := by
    have hcomma : (chr ',' : Regex Unit).run
        ⟨w₁.reverse ++ [], ',' :: (w₂ ++ c :: v), []⟩ = [⟨',' :: w₁.reverse, w₂ ++ c :: v, []⟩] := by
      simp [run, chr]
    exact head?_run_seq hl (head?_run_seq hcomma (congrArg List.head? hl'))
  have hsince : (⟨[], w₁ ++ ',' :: (w₂ ++ c :: v), []⟩ : Pos Unit).since
      ⟨w₂.reverse ++ ',' :: w₁.reverse, c :: v, []⟩ = w₁ ++ ',' :: w₂ := since_skip (by simp)
  rw [first, hhead, Option.map_some, hsince]

theorem pieces_short (hd : Short d) (v : Text) :
    Citations.numSplitRe.pieces (d ++ v) = d.map .plain ++ Citations.numSplitRe.pieces v :=
  pieces_append_plain Citations.blind_numSplitRe fun c hc _ =>
    Citations.numSplitRe_digit (isDigit_of_ascii (Script.ascii_of_isDigit (hd.2.2 c hc)))

theorem spaces_of_blank (hw : Blank w) (hc : '\uFEFF' ∉ w) : ∀ c ∈ w, isSpace c :=
  fun c hcw => isSpace_of_script (hw c hcw) fun heq => hc (heq ▸ hcw)

theorem split_nums (hg : Nums g l) (hc : '\uFEFF' ∉ g) :
    (Citations.numSplitRe.split g).map natOf = l := by
  induction hg with
  | @one e he =>
    have h := pieces_short he []
    rw [List.append_nil, pieces_nil, List.append_nil] at h
    rw [Regex.split, h, gaps_map_plain_nil]
    rfl
  | @more e x y t ns he hx hy ht ih =>
    simp only [List.mem_append, List.mem_cons, not_or] at hc
    obtain ⟨d, z, rfl, hd⟩ := nums_head ht
    have hfirst := numSplitRe_blanks (v := z) (spaces_of_blank hx hc.2.1)
      (spaces_of_blank hy hc.2.2.2.1) (isDigit_of_ascii (Script.ascii_of_isDigit hd))
    have hhit := pieces_hit Citations.blind_numSplitRe (by simp) hfirst
    rw [Regex.split, pieces_short he, hhit, gaps_map_plain, List.map_cons]
    exact congrArg _ (ih hc.2.2.2.2)

theorem digits_of_short (hd : Short d) : ∀ c ∈ d, isDigit c :=
  fun c hc => isDigit_of_ascii (Script.ascii_of_isDigit (hd.2.2 c hc))

theorem numberList_more (hd : Short d) (h₁ : ∀ c ∈ w₁, isSpace c) (h₂ : ∀ c ∈ w₂, isSpace c)
    (hg : Citations.NumberList g) : Citations.NumberList (d ++ (w₁ ++ ',' :: (w₂ ++ g))) := by
  induction hg with
  | one he h => exact .more (.one hd.1 (digits_of_short hd)) h₁ h₂ he h
  | more _ hx hy he h ih => simpa using Citations.NumberList.more ih hx hy he h

theorem numberList_nums (hg : Nums g l) (hc : '\uFEFF' ∉ g) : Citations.NumberList g := by
  induction hg with
  | one he => exact .one he.1 (digits_of_short he)
  | more he hx hy _ ih =>
    simp only [List.mem_append, List.mem_cons, not_or] at hc
    exact numberList_more he (spaces_of_blank hx hc.2.1) (spaces_of_blank hy hc.2.2.2.1)
      (ih hc.2.2.2.2)

/-! The pattern matches exactly the marks of the editor. -/

structure SourceMark where
  sp : Text
  opening : Char
  gap : Text
  label : Text
  lead : Text
  list : Text
  trail : Text
  closing : Char

def SourceMark.body (k : SourceMark) : Text :=
  (k.gap ++ (k.label ++ k.lead)) ++ (k.list ++ k.trail)

def SourceMark.text (k : SourceMark) : Text := k.sp ++ k.opening :: (k.body ++ [k.closing])

/-- The match object of a mark. -/
def SourceMark.found (k : SourceMark) : Match Unit := ⟨k.text, [((), k.list)]⟩

structure SourceMark.Ok (k : SourceMark) : Prop where
  sp : ∀ c ∈ k.sp, Script.isSpace c && c != '\n'
  opening : isOpening k.opening
  gap : Blank k.gap
  label : k.label ∈ labels
  lead : Blank k.lead
  list : ∃ l, Nums k.list l
  trail : Blank k.trail
  closing : isClosing k.closing

variable {k k' : SourceMark} {rest rest' before t : Text} {m : Match Unit}

theorem nums_last (hg : Nums g l) : ∃ c x, g = x ++ [c] ∧ Script.isDigit c := by
  induction hg with
  | @one e he =>
    refine ⟨e.getLast he.1, e.dropLast, (List.dropLast_append_getLast he.1).symm, ?_⟩
    exact he.2.2 _ (List.getLast_mem he.1)
  | more _ _ _ _ ih =>
    obtain ⟨c, x, rfl, hc⟩ := ih
    exact ⟨c, _ ++ (_ ++ ',' :: (_ ++ x)), by simp; rfl, hc⟩

theorem isOpening_iff : isOpening c ↔ c = '（' ∨ c = '(' := by
  simp [isOpening]

theorem isClosing_iff : isClosing c ↔ c = ')' ∨ c = '）' := by
  simp [isClosing]

theorem accepts_label {γ : Type} : (anyOf (labels.map lit) : Regex γ).Accepts w ↔ w ∈ labels := by
  simp [labels, anyOf, Accepts, accepts_lit]

theorem not_space_opening (h : isOpening c) : Script.isSpace c = false := by
  rcases isOpening_iff.1 h with rfl | rfl <;> decide

theorem label_chars (h : w ∈ labels) : ∀ c ∈ w, c ∈ "출처자료참고".toList := by
  simp only [labels, List.mem_cons, List.not_mem_nil, or_false] at h
  rcases h with rfl | rfl | rfl <;> decide

/-- The characters behind the opening parenthesis, before the list and from it on. -/
theorem prefix_chars (hk : k.Ok) :
    ∀ c ∈ k.gap ++ (k.label ++ k.lead), Script.isSpace c ∨ c ∈ "출처자료참고".toList := by
  intro c hc
  simp only [List.mem_append] at hc
  rcases hc with hc | hc | hc
  · exact .inl (hk.gap c hc)
  · exact .inr (label_chars hk.label c hc)
  · exact .inl (hk.lead c hc)

theorem body_chars (hk : k.Ok) : ∀ c ∈ k.body,
    Script.isSpace c ∨ c ∈ "출처자료참고".toList ∨ Script.isDigit c ∨ c = ',' := by
  obtain ⟨l, hl⟩ := hk.list
  intro c hc
  rcases List.mem_append.mp hc with hc | hc
  · rcases prefix_chars hk c hc with h | h
    · exact .inl h
    · exact .inr (.inl h)
  · rcases List.mem_append.mp hc with hc | hc
    · rcases nums_chars hl c hc with h | h | h
      · exact .inr (.inr (.inl h))
      · exact .inl h
      · exact .inr (.inr (.inr h))
    · exact .inl (hk.trail c hc)

theorem body_plain (hk : k.Ok) : ∀ c ∈ k.body, c ∉ ")）（([]".toList := by
  have hno : ∀ d ∈ ")）（([]".toList, ¬ (Script.isSpace d ∨ d ∈ "출처자료참고".toList ∨
      Script.isDigit d ∨ d = ',') := by decide
  exact fun c hc hmem => hno c hmem (body_chars hk c hc)

theorem not_isClosing_of_plain (h : c ∉ ")）（([]".toList) : isClosing c = false := by
  rw [Bool.eq_false_iff]
  intro hc
  rcases isClosing_iff.1 hc with rfl | rfl <;> exact h (by decide)

theorem mark_unique (hk : k.Ok) (hk' : k'.Ok) (h : k.text ++ rest = k'.text ++ rest') :
    k.found = k'.found ∧ rest = rest' := by
  have hopen : k.sp ++ (k.opening :: (k.body ++ (k.closing :: rest))) =
      k'.sp ++ (k'.opening :: (k'.body ++ (k'.closing :: rest'))) := by
    simpa [SourceMark.text] using h
  have hsp : ∀ {k : SourceMark}, k.Ok → ∀ c ∈ k.sp, Script.isSpace c :=
    fun hk c hc => (Bool.and_eq_true_iff.mp (hk.sp c hc)).1
  have hhead : ∀ {k : SourceMark} {v : Text}, k.Ok →
      ∀ c ∈ (k.opening :: v).head?, Script.isSpace c = false := by
    rintro k v hk c ⟨⟩
    exact not_space_opening hk.opening
  obtain ⟨hsp, htail⟩ := append_inj_of_all (hsp hk) (hsp hk') (hhead hk) (hhead hk') hopen
  obtain ⟨ho, hbody⟩ := List.cons.inj htail
  -- the body ends at the first closing parenthesis
  have hin : ∀ {k : SourceMark}, k.Ok → ∀ c ∈ k.body, (!isClosing c) = true :=
    fun hk c hc => by rw [not_isClosing_of_plain (body_plain hk c hc)]; rfl
  have hend : ∀ {k : SourceMark} {v : Text}, k.Ok →
      ∀ c ∈ (k.closing :: v).head?, (!isClosing c) = false := by
    rintro k v hk c ⟨⟩
    rw [hk.closing]
    rfl
  obtain ⟨hbody, hclose⟩ := append_inj_of_all (hin hk) (hin hk') (hend hk) (hend hk') hbody
  obtain ⟨hc, hrest⟩ := List.cons.inj hclose
  -- the list runs from the first digit to the last
  obtain ⟨l, hl⟩ := hk.list
  obtain ⟨l', hl'⟩ := hk'.list
  have hpre : ∀ {k : SourceMark}, k.Ok → ∀ c ∈ k.gap ++ (k.label ++ k.lead),
      (!Script.isDigit c) = true := by
    intro k hk c hc
    have hno : ∀ d ∈ "출처자료참고".toList, Script.isDigit d = false := by decide
    rw [Bool.not_eq_true', Bool.eq_false_iff]
    intro hd
    rcases prefix_chars hk c hc with h | h
    · rw [Script.not_isSpace_of_isDigit hd] at h
      cases h
    · rw [hno c h] at hd
      cases hd
  have hdigit : ∀ {g v : Text} {l}, Nums g l → ∀ c ∈ (g ++ v).head?, (!Script.isDigit c) = false := by
    intro g v l hg c hc
    obtain ⟨d, x, rfl, hd⟩ := nums_head hg
    obtain rfl : d = c := by simpa using hc
    rw [hd]
    rfl
  obtain ⟨-, hlist⟩ := append_inj_of_all (hpre hk) (hpre hk') (hdigit hl) (hdigit hl') hbody
  have hrev : k.trail.reverse ++ k.list.reverse = k'.trail.reverse ++ k'.list.reverse := by
    simpa only [List.reverse_append] using congrArg List.reverse hlist
  have hlast : ∀ {g : Text} {l}, Nums g l → ∀ c ∈ g.reverse.head?, Script.isSpace c = false := by
    intro g l hg c hc
    obtain ⟨d, x, rfl, hd⟩ := nums_last hg
    obtain rfl : d = c := by simpa using hc
    exact Script.not_isSpace_of_isDigit hd
  obtain ⟨-, hlist⟩ := append_inj_of_all (fun c hc => hk.trail c (List.mem_reverse.mp hc))
    (fun c hc => hk'.trail c (List.mem_reverse.mp hc)) (hlast hl) (hlast hl') hrev
  refine ⟨?_, hrest⟩
  rw [SourceMark.found, SourceMark.found, SourceMark.text, SourceMark.text, hsp, ho, hbody, hc,
    List.reverse_inj.mp hlist]

theorem mem_sourceMarkRe {q : Pos Unit} : q ∈ sourceMarkRe.run ⟨before, t, []⟩ ↔
    ∃ k rest, SourceMark.Ok k ∧ t = k.text ++ rest ∧
      q = ⟨k.text.reverse ++ before, rest, [((), k.list)]⟩ := by
  have hblanks : (blanks : Regex Unit).Plain := trivial
  have hlabel : (anyOf (labels.map lit) : Regex Unit).Plain :=
    ⟨plain_lit _, plain_lit _, plain_lit _⟩
  have hcls : ∀ (p : Char → Bool) (w : Text),
      (cls p : Regex Unit).Accepts w ↔ ∃ c, p c ∧ w = [c] := fun _ _ => Iff.rfl
  simp only [sourceMarkRe, cat]
  rw [mem_run_seq_plain (by trivial)]
  simp only [mem_run_seq_plain (a := cls isOpening) trivial, mem_run_seq_plain hblanks,
    mem_run_seq_plain hlabel, mem_run_seq_group plain_shortList,
    mem_run_plain_iff (a := cls isClosing) trivial, accepts_star_cls, accepts_blanks, accepts_label,
    accepts_shortList, hcls]
  constructor
  · rintro ⟨sp, _, hsp, rfl, _, _, ⟨o, ho, rfl⟩, rfl, gap, _, hgap, rfl, label, _, hlabel, rfl, lead, _,
      hlead, rfl, list, _, hlist, rfl, trail, _, htrail, rfl, _, rest, ⟨c, hc, rfl⟩, rfl, rfl⟩
    exact ⟨⟨sp, o, gap, label, lead, list, trail, c⟩, rest,
      ⟨hsp, ho, hgap, hlabel, hlead, hlist, htrail, hc⟩, by simp [SourceMark.text, SourceMark.body],
      by simp [SourceMark.text, SourceMark.body]⟩
  · rintro ⟨⟨sp, o, gap, label, lead, list, trail, c⟩, rest,
      ⟨hsp, ho, hgap, hlabel, hlead, hlist, htrail, hc⟩, rfl, rfl⟩
    exact ⟨sp, _, hsp, by simp [SourceMark.text, SourceMark.body], [o], _, ⟨o, ho, rfl⟩, rfl, gap, _,
      hgap, rfl, label, _, hlabel, rfl, lead, _, hlead, rfl, list, _, hlist, rfl, trail, _, htrail, rfl,
      [c], rest, ⟨c, hc, rfl⟩, rfl, by simp [SourceMark.text, SourceMark.body]⟩

theorem first_sourceMarkRe : sourceMarkRe.first before t = some (m, rest) ↔
    ∃ k, SourceMark.Ok k ∧ m = k.found ∧ t = k.text ++ rest := by
  have hsince : ∀ {k : SourceMark} {rest}, (⟨before, k.text ++ rest, []⟩ : Pos Unit).since
      ⟨k.text.reverse ++ before, rest, [((), k.list)]⟩ = k.text := since_skip rfl
  constructor
  · intro h
    obtain ⟨q, hq, hm⟩ := Option.map_eq_some_iff.mp h
    obtain ⟨k, rest, hk, rfl, rfl⟩ := mem_sourceMarkRe.1 (List.mem_of_head? hq)
    rw [hsince] at hm
    obtain ⟨rfl, rfl⟩ := Prod.mk.inj hm
    exact ⟨k, hk, rfl, rfl⟩
  · rintro ⟨k, hk, rfl, rfl⟩
    have hmem := (@mem_sourceMarkRe before).mpr ⟨k, rest, hk, rfl, rfl⟩
    obtain ⟨q, hq⟩ := Option.ne_none_iff_exists'.mp
      (mt List.head?_eq_none_iff.mp (List.ne_nil_of_mem hmem))
    obtain ⟨k', rest', hk', htext, rfl⟩ := mem_sourceMarkRe.1 (List.mem_of_head? hq)
    obtain ⟨hfound, rfl⟩ := mark_unique hk hk' htext
    have hsame : k.text = k'.text ∧ k.list = k'.list := by
      simpa [SourceMark.found] using hfound
    rw [first, hq, Option.map_some, hsame.1, hsince, hfound, SourceMark.found]

theorem blind_sourceMarkRe : sourceMarkRe.Blind := by
  simp [sourceMarkRe, cat, labels, anyOf, lit, chr, blanks, shortList, shortNumber, between, upTo,
    opt, Blind]

end RownRg.Markers

import RownRg.Core.ChartSpec

/-! The fields of a chart fence, read line by line. -/

open PyText Regex

namespace RownRg.Charts

variable {t u v w x line key value : Text} {ls ks lines : List Text} {c : Char} {n k : Nat}

/-- The key of a line and its value, blanks stripped. -/
def fieldOf (line : Text) : Option (Text × Text) :=
  (fieldRe.matchStart (strip line)).map fun m =>
    ((m.group .key).getD [], strip ((m.group .value).getD []))

/-- What the fields of a block are, whatever the fuel. -/
theorem parseFieldsFrom_fuel (hn : lines.length ≤ n) (hk : lines.length ≤ k) :
    parseFieldsFrom n lines = parseFieldsFrom k lines := by
  induction n generalizing lines k with
  | zero =>
    obtain rfl := List.eq_nil_of_length_eq_zero (Nat.le_zero.mp hn)
    cases k <;> rfl
  | succ n ih =>
    cases lines with
    | nil => cases k <;> rfl
    | cons line lines =>
      obtain ⟨k, rfl⟩ : ∃ j, k = j + 1 := ⟨k - 1, by simp at hk; omega⟩
      simp only [List.length_cons, Nat.add_le_add_iff_right] at hn hk
      have hdrop := (lines.dropWhile_suffix isBlockLine).length_le
      simp only [parseFieldsFrom, ih hn hk,
        @ih (lines.dropWhile isBlockLine) k (by omega) (by omega)]

theorem parseFields_nil : parseFields [] = ([], []) := rfl

theorem parseFields_cons : parseFields (line :: lines) =
    match fieldOf line with
    | none => parseFields lines
    | some (key, value) =>
      if value = ['|'] then
        ((key, strip (joinLines ((lines.takeWhile isBlockLine).map strip))) ::
          (parseFields (lines.dropWhile isBlockLine)).1,
          (parseFields (lines.dropWhile isBlockLine)).2)
      else if key = "series".toList then
        ((parseFields lines).1, value :: (parseFields lines).2)
      else ((key, value) :: (parseFields lines).1, (parseFields lines).2) := by
  have hdrop := (lines.dropWhile_suffix isBlockLine).length_le
  have hfuel : parseFieldsFrom lines.length (lines.dropWhile isBlockLine) =
      parseFields (lines.dropWhile isBlockLine) := parseFieldsFrom_fuel hdrop le_rfl
  have hrest : parseFieldsFrom lines.length lines = parseFields lines := rfl
  rw [parseFields, List.length_cons, parseFieldsFrom, fieldOf]
  cases fieldRe.matchStart (strip line) with
  | none => rfl
  | some m => simp only [Option.map_some, hfuel, hrest]

/-- A line that no block goes on with. -/
def Opens (ls : List Text) : Prop := ∀ l ∈ ls.head?, isBlockLine l = false

theorem takeWhile_opens (lines : List Text) (h : Opens ls) :
    (lines ++ ls).takeWhile isBlockLine = lines.takeWhile isBlockLine ∧
      (lines ++ ls).dropWhile isBlockLine = lines.dropWhile isBlockLine ++ ls := by
  induction lines with
  | nil =>
    cases ls with
    | nil => exact ⟨rfl, rfl⟩
    | cons l ls =>
      have hl : isBlockLine l = false := h l rfl
      simp [hl]
  | cons l lines ih =>
    by_cases hl : isBlockLine l
    · simp [hl, ih.1, ih.2]
    · simp [hl]

/-- Lines behind which no block goes on are read by themselves. -/
theorem parseFields_append (h : Opens ls) : parseFields (lines ++ ls) =
    ((parseFields lines).1 ++ (parseFields ls).1, (parseFields lines).2 ++ (parseFields ls).2) := by
  induction hn : lines.length using Nat.strongRecOn generalizing lines with
  | _ n ih =>
    cases lines with
    | nil => rfl
    | cons line lines =>
      simp only [List.length_cons] at hn
      have hdrop := (lines.dropWhile_suffix isBlockLine).length_le
      obtain ⟨htake, hskip⟩ := takeWhile_opens lines h
      have hrest := ih lines.length (by omega) rfl
      have hblock := ih (lines.dropWhile isBlockLine).length (by omega) rfl
      rw [List.cons_append, parseFields_cons, @parseFields_cons line lines, htake, hskip,
        hrest, hblock]
      cases fieldOf line with
      | none => rfl
      | some field =>
        obtain ⟨key, value⟩ := field
        simp only
        split
        · rfl
        · split <;> rfl

/-! A line with a key. -/

theorem not_isSpace_of_isKeyChar (h : isKeyChar c) : isSpace c = false ∧ c ≠ ':' := by
  have hc : 97 ≤ c.toNat ∧ c.toNat ≤ 122 ∨ c = '_' := by
    simpa [isKeyChar, Char.le_def, UInt32.le_iff_toNat_le] using h
  rcases hc with hc | rfl
  · refine ⟨?_, ?_⟩
    · simp only [isSpace, spaceCodes, decide_eq_false_iff_not, List.mem_cons, List.not_mem_nil,
        or_false]
      omega
    · rintro rfl
      exact absurd hc (by decide)
  · exact ⟨by decide, by decide⟩

theorem not_isKeyChar_of_isBlank (h : isBlank c) : isKeyChar c = false := by
  have hc : c = ' ' ∨ c = '\t' := by simpa [isBlank] using h
  rcases hc with rfl | rfl <;> decide

/-- What `fieldRe` reads. -/
theorem mem_fieldRe {q : Pos FieldGroup} (h : q ∈ fieldRe.run ⟨[], t, []⟩) :
    ∃ key b b' v rest, t = key ++ (b ++ ':' :: (b' ++ (v ++ rest))) ∧ key ≠ [] ∧
      (∀ c ∈ key, isKeyChar c) ∧ (∀ c ∈ b, isBlank c) ∧ (∀ c ∈ b', isBlank c) ∧
      (∀ c ∈ rest, isSpace c) ∧ q.caps = [(.value, v), (.key, key)] := by
  simp only [fieldRe, cat] at h
  rw [run, textStart_run, List.flatMap_singleton,
    mem_run_seq_group (show (plus (cls isKeyChar) : Regex FieldGroup).Plain from
      ⟨trivial, trivial⟩)] at h
  obtain ⟨key, _, hkey, rfl, h⟩ := h
  obtain ⟨hne, hall⟩ := accepts_plus_cls.1 hkey
  rw [mem_run_seq_plain (by trivial)] at h
  obtain ⟨b, _, hb, rfl, h⟩ := h
  rw [mem_run_seq_plain (by trivial)] at h
  obtain ⟨_, _, hcolon, rfl, h⟩ := h
  obtain rfl := accepts_chr.1 hcolon
  rw [mem_run_seq_plain (by trivial)] at h
  obtain ⟨b', _, hb', rfl, h⟩ := h
  rw [mem_run_seq_group (show (star dot : Regex FieldGroup).Plain from trivial)] at h
  obtain ⟨v, rest, hv, rfl, h⟩ := h
  obtain ⟨rfl, hrest⟩ := mem_textEnd h
  exact ⟨key, b, b', v, rest, rfl, hne, hall, accepts_blanks.1 hb, accepts_blanks.1 hb', hrest,
    rfl⟩

theorem exists_fieldRe (hkey : key ≠ []) (hall : ∀ c ∈ key, isKeyChar c) (hx : '\n' ∉ x) :
    ∃ q, q ∈ fieldRe.run ⟨[], key ++ ':' :: x, []⟩ := by
  refine ⟨⟨x.reverse ++ ':' :: key.reverse, [], [(.value, x), (.key, key)]⟩, ?_⟩
  simp only [fieldRe, cat]
  rw [run, textStart_run, List.flatMap_singleton,
    mem_run_seq_group (show (plus (cls isKeyChar) : Regex FieldGroup).Plain from
      ⟨trivial, trivial⟩)]
  refine ⟨key, _, accepts_plus_cls.2 ⟨hkey, hall⟩, rfl, ?_⟩
  rw [mem_run_seq_plain (by trivial)]
  refine ⟨[], _, accepts_blanks.2 (by simp), rfl, ?_⟩
  rw [mem_run_seq_plain (by trivial)]
  refine ⟨[':'], _, accepts_chr.2 rfl, rfl, ?_⟩
  rw [mem_run_seq_plain (by trivial)]
  refine ⟨[], _, accepts_blanks.2 (by simp), rfl, ?_⟩
  rw [mem_run_seq_group (show (star dot : Regex FieldGroup).Plain from trivial)]
  refine ⟨x, [], accepts_star_cls.2 fun c hc => ?_, (List.append_nil x).symm, ?_⟩
  · exact bne_iff_ne.mpr fun he => hx (he ▸ hc)
  · simp [run]

/-- A key with a text behind its colon. -/
theorem fieldOf_keyed {k : Text} (hkey : k ≠ []) (hall : ∀ c ∈ k, isKeyChar c) (hx : '\n' ∉ x) :
    fieldOf (k ++ ':' :: x) = some (k, strip x) := by
  have hsolid : ∀ c ∈ k, isSpace c = false := fun c hc => (not_isSpace_of_isKeyChar (hall c hc)).1
  have hstrip : strip (k ++ ':' :: x) = k ++ ':' :: rstrip x := by
    have h := strip_append_solid (u := k ++ [':']) (t := x) (fun c hc => ?_) (fun c hc => ?_)
      (by simp)
    · simpa using h
    · obtain ⟨d, k, rfl⟩ := List.exists_cons_of_ne_nil hkey
      obtain rfl : d = c := by simpa using hc
      exact hsolid _ (.head _)
    · obtain rfl : ':' = c := by simpa using hc
      decide
  have hbreak : '\n' ∉ rstrip x := by
    intro hmem
    exact hx (List.mem_reverse.mp ((List.dropWhile_sublist _).mem (List.mem_reverse.mp hmem)))
  obtain ⟨q, hq, m, hm⟩ := exists_matchStart (exists_fieldRe hkey hall hbreak)
  obtain ⟨k', b, b', v, rest, ht, -, hall', hb, hb', hrest, hcaps⟩ := mem_fieldRe hq
  have hstop : ∀ y : Text, ∀ c ∈ (':' :: y).head?, isKeyChar c = false := by
    intro y c hc
    obtain rfl : ':' = c := by simpa using hc
    decide
  have hstop' : ∀ c ∈ (b ++ ':' :: (b' ++ (v ++ rest))).head?, isKeyChar c = false := by
    intro c hc
    cases b with
    | nil => exact hstop _ c hc
    | cons d b =>
      obtain rfl : d = c := by simpa using hc
      exact not_isKeyChar_of_isBlank (hb _ (.head _))
  obtain ⟨rfl, htail⟩ := append_inj_of_all hall hall' (hstop _) hstop' ht
  have hb : b = [] := by
    cases b with
    | nil => rfl
    | cons d b =>
      obtain ⟨rfl, -⟩ := List.cons.inj htail
      exact absurd (hb ':' (.head _)) (by decide)
  subst hb
  obtain ⟨-, htail⟩ := List.cons.inj htail
  have hvalue : strip v = strip x := by
    have hspace : ∀ c ∈ b', isSpace c := by
      intro c hc
      have hc : c = ' ' ∨ c = '\t' := by simpa [isBlank] using hb' c hc
      rcases hc with rfl | rfl <;> decide
    calc strip v = strip (b' ++ (v ++ rest)) := by
          rw [strip_append_left hspace, strip_append_right hrest]
      _ = strip x := by rw [← htail, strip_rstrip]
  rw [fieldOf, hstrip, hm, hcaps, Option.map_some, ← hvalue]
  rfl

/-! The characters of what is read. -/

theorem mem_fieldOf (h : fieldOf line = some (key, value)) (hc : c ∈ value) : c ∈ line := by
  obtain ⟨m, hm, hpair⟩ := Option.map_eq_some_iff.mp h
  obtain ⟨-, rfl⟩ := Prod.mk.inj hpair
  exact mem_of_mem_strip (mem_group hm (mem_of_mem_strip hc))

/-- No line break comes into a field but those that a block is joined by. -/
theorem mem_parseFields (hls : ∀ l ∈ lines, ∀ c ∈ l, isBreak c = false) :
    (∀ y ∈ (parseFields lines).1, ∀ c ∈ y.2, isBreak c = false ∨ c = '\n') ∧
      ∀ l ∈ (parseFields lines).2, ∀ c ∈ l, isBreak c = false := by
  induction hn : lines.length using Nat.strongRecOn generalizing lines with
  | _ n ih =>
    cases lines with
    | nil => simp [parseFields_nil]
    | cons line lines =>
      obtain ⟨hline, hlines⟩ := List.forall_mem_cons.mp hls
      simp only [List.length_cons] at hn
      have hrest := ih lines.length (by omega) hlines rfl
      have hdrop := (lines.dropWhile_suffix isBlockLine).length_le
      have hblock := ih (lines.dropWhile isBlockLine).length (by omega)
        (fun l hl => hlines l ((List.dropWhile_sublist _).mem hl)) rfl
      rw [parseFields_cons]
      cases hfield : fieldOf line with
      | none => exact hrest
      | some field =>
        obtain ⟨key, value⟩ := field
        have hvalue : ∀ c ∈ value, isBreak c = false := fun c hc => hline c (mem_fieldOf hfield hc)
        simp only
        split
        · refine ⟨List.forall_mem_cons.mpr ⟨fun c hc => ?_, hblock.1⟩, hblock.2⟩
          rcases mem_joinLines (mem_of_mem_strip hc) with hc | ⟨l, hl, hc⟩
          · exact .inr hc
          · obtain ⟨m, hm, rfl⟩ := List.mem_map.mp hl
            exact .inl (hlines m ((List.takeWhile_sublist _).mem hm) c (mem_of_mem_strip hc))
        · split
          · exact ⟨hrest.1, List.forall_mem_cons.mpr ⟨hvalue, hrest.2⟩⟩
          · exact ⟨List.forall_mem_cons.mpr ⟨fun c hc => .inl (hvalue c hc), hrest.1⟩, hrest.2⟩

/-! A series line. -/

/-- A text without the blanks at its end. -/
def dropBlanks (w : Text) : Text := (w.reverse.dropWhile isBlank).reverse

theorem exists_dropBlanks (w : Text) : ∃ b, (∀ c ∈ b, isBlank c) ∧ w = dropBlanks w ++ b ∧
    ∀ c ∈ (dropBlanks w).getLast?, isBlank c = false := by
  refine ⟨(w.reverse.takeWhile isBlank).reverse, fun c hc => ?_, ?_, fun c hc => ?_⟩
  · exact List.mem_takeWhile_imp (List.mem_reverse.mp hc)
  · rw [dropBlanks, ← List.reverse_append, List.takeWhile_append_dropWhile, List.reverse_reverse]
  · rw [dropBlanks, List.getLast?_reverse] at hc
    have hne : w.reverse.dropWhile isBlank ≠ [] := List.ne_nil_of_mem (List.mem_of_head? hc)
    have hhead := List.head_dropWhile_not isBlank hne
    rw [List.head?_eq_some_head hne] at hc
    obtain rfl := Option.some.inj hc
    simpa using hhead

theorem isSpace_of_isBlank (h : isBlank c) : isSpace c := by
  have hc : c = ' ' ∨ c = '\t' := by simpa [isBlank] using h
  rcases hc with rfl | rfl <;> decide

/-- The rest of a series line behind its name. -/
def seriesTailRe : Regex SeriesGroup :=
  cat [blanks, chr '=', blanks, group .values (plus dot), textEnd]

/-- No match starts before a text that is not blank and has no equals sign. -/
theorem run_seriesTailRe_nil {y rest bf : Text} {cs : List (SeriesGroup × Text)}
    (hy : '=' ∉ y) (hblank : ∃ c ∈ y, isBlank c = false) :
    seriesTailRe.run ⟨bf, y ++ '=' :: rest, cs⟩ = [] := by
  refine List.eq_nil_iff_forall_not_mem.mpr fun q hq => ?_
  simp only [seriesTailRe, cat] at hq
  rw [mem_run_seq_plain (by trivial)] at hq
  obtain ⟨b, _, hb, ht, hq⟩ := hq
  rw [mem_run_seq_plain (by trivial)] at hq
  obtain ⟨_, z, hz, rfl, -⟩ := hq
  obtain rfl := accepts_chr.1 hz
  have hb := accepts_blanks.1 hb
  obtain ⟨rfl, -⟩ := append_inj_of_all (p := fun c => c != '=')
    (fun c hc => bne_iff_ne.mpr fun he => hy (he ▸ hc))
    (fun c hc => bne_iff_ne.mpr fun he => absurd (he ▸ hb c hc) (by decide))
    (by simp) (by simp) ht
  obtain ⟨c, hc, hno⟩ := hblank
  rw [hb c hc] at hno
  cases hno

theorem takeWhile_blanks {b y : Text} (hb : ∀ c ∈ b, isBlank c) :
    (b ++ '=' :: y).takeWhile isBlank = b := by
  rw [List.takeWhile_append_of_pos hb]
  simp [isBlank]

theorem head?_seriesTailRe {b rest x : Text} {k : List (SeriesGroup × Text)}
    (hb : ∀ c ∈ b, isBlank c) (hne : rest.dropWhile isBlank ≠ []) (hrest : '\n' ∉ rest) :
    ∃ u, (seriesTailRe.run ⟨x, b ++ '=' :: rest, k⟩).head? = some u ∧
      u.caps = (.values, rest.dropWhile isBlank) :: k := by
  have hcut := List.takeWhile_append_dropWhile (p := isBlank) (l := rest)
  have hdot : ∀ c ∈ rest.dropWhile isBlank, (c != '\n') = true := fun c hc =>
    bne_iff_ne.mpr fun he => hrest (he ▸ (List.dropWhile_sublist _).mem hc)
  obtain ⟨d, y, hd⟩ := List.exists_cons_of_ne_nil hne
  obtain ⟨l₁, h₁⟩ := run_star_cls (γ := SeriesGroup) isBlank ⟨x, b ++ '=' :: rest, k⟩
  rw [takeWhile_blanks hb, skip_eq rfl] at h₁
  have h₂ : (chr '=' : Regex SeriesGroup).run ⟨b.reverse ++ x, '=' :: rest, k⟩ =
      [⟨'=' :: (b.reverse ++ x), rest, k⟩] := by
    simp [chr, run]
  obtain ⟨l₃, h₃⟩ := run_star_cls (γ := SeriesGroup) isBlank ⟨'=' :: (b.reverse ++ x), rest, k⟩
  rw [skip_eq (v := rest.dropWhile isBlank) hcut.symm] at h₃
  obtain ⟨l₄, h₄⟩ := run_group_plus_cls (γ := SeriesGroup) (p := (· != '\n')) (g := .values)
    (s := ⟨(rest.takeWhile isBlank).reverse ++ '=' :: (b.reverse ++ x),
      rest.dropWhile isBlank, k⟩) hd (hdot d (by simp [hd]))
  have htake : (rest.dropWhile isBlank).takeWhile (· != '\n') = rest.dropWhile isBlank :=
    List.takeWhile_eq_self_iff.mpr hdot
  simp only [htake] at h₄
  rw [skip_eq (List.append_nil _).symm] at h₄
  have hend : ∀ x : Text, ((textEnd : Regex SeriesGroup).run
      ⟨x, [], (.values, rest.dropWhile isBlank) :: k⟩).head? =
        some ⟨x, [], (.values, rest.dropWhile isBlank) :: k⟩ := fun x => by simp [run]
  exact ⟨_, head?_run_seq h₁ (head?_run_seq h₂ (head?_run_seq h₃ (head?_run_seq h₄ (hend _)))), rfl⟩

/-- A series line is cut at the first equals sign behind its first character. -/
theorem matchStart_seriesRe {rest : Text} (hw : '=' ∉ w) (hc : c ≠ '\n') (hbreak : '\n' ∉ w)
    (hrest : '\n' ∉ rest) (hne : rest.dropWhile isBlank ≠ []) :
    ∃ m, seriesRe.matchStart (c :: (w ++ '=' :: rest)) = some m ∧
      m.group .name = some (c :: dropBlanks w) ∧
      m.group .values = some (rest.dropWhile isBlank) := by
  obtain ⟨b, hb, hwb, hlast⟩ := exists_dropBlanks w
  have hmem : ∀ d ∈ dropBlanks w, d ∈ w := fun d hd => hwb ▸ List.mem_append_left b hd
  have hafter : c :: (w ++ '=' :: rest) = (c :: dropBlanks w) ++ (b ++ '=' :: rest) := by
    nth_rewrite 1 [hwb]
    simp
  obtain ⟨u, hu, hcaps⟩ := head?_seriesTailRe (x := (c :: dropBlanks w).reverse ++ [])
    (k := [(.name, c :: dropBlanks w)]) hb hne hrest
  have hrun : ((seq (group .name (seq dot (lazy dot))) seriesTailRe).run
      ⟨[], c :: (w ++ '=' :: rest), []⟩).head? = some u := by
    refine head?_run_seq_plusLazy (w := c :: dropBlanks w) (v := b ++ '=' :: rest)
      (fun d hd => ?_) hafter (by simp) (fun x y hxy hx hy => ?_) ?_
    · rcases List.mem_cons.mp hd with rfl | hd
      · exact bne_iff_ne.mpr hc
      · exact bne_iff_ne.mpr fun he => hbreak (he ▸ hmem d hd)
    · obtain ⟨d, x, rfl⟩ := List.exists_cons_of_ne_nil hx
      obtain ⟨rfl, hsplit⟩ : c = d ∧ dropBlanks w = x ++ y := by simpa using hxy
      have htext : c :: (w ++ '=' :: rest) = (c :: x) ++ (y ++ b ++ '=' :: rest) := by
        rw [hafter, hsplit]
        simp
      rw [skip_eq htext]
      refine run_seriesTailRe_nil ?_ ?_
      · intro he
        refine hw ?_
        rw [hwb, hsplit]
        rcases List.mem_append.mp he with he | he <;> simp [he]
      · obtain ⟨e, he⟩ : ∃ e, y.getLast? = some e :=
          ⟨_, List.getLast?_eq_some_getLast hy⟩
        refine ⟨e, List.mem_append_left b (List.mem_of_getLast? he), hlast e ?_⟩
        rw [hsplit, List.getLast?_append, he]
        rfl
    · rw [skip_eq hafter]
      exact hu
  have hfirst : (seriesRe.run ⟨[], c :: (w ++ '=' :: rest), []⟩).head? = some u := by
    have hstart : (textStart : Regex SeriesGroup).run ⟨[], c :: (w ++ '=' :: rest), []⟩ =
        [⟨[], c :: (w ++ '=' :: rest), []⟩] := rfl
    exact head?_run_seq hstart hrun
  refine ⟨_, by simp only [matchStart, first, hfirst, Option.map_some]; rfl, ?_, ?_⟩
  · simp [Match.group, hcaps]
  · simp [Match.group, hcaps]

end RownRg.Charts

import RownRg.Core.ChartFields
import RownRg.Lib.Fallible

/-! The lists of a chart fence, and the numbers in them, read back from what was written. -/

open PyText Regex

namespace RownRg.Charts

variable {t u v w x d tail : Text} {ls : List Text} {c : Char}

/-! Lists. -/

theorem joinWith_cons {sep l m : Text} :
    joinWith sep (l :: m :: ls) = l ++ (sep ++ joinWith sep (m :: ls)) := by
  simp [joinWith, List.intercalate]

/-- Parts that were joined come apart, blanks stripped. -/
theorem map_strip_splitOn_joinWith {a z b l : Text} {sep : Char} (ha : ∀ c ∈ a, isSpace c ∧ c ≠ sep)
    (hz : ∀ c ∈ z, isSpace c ∧ c ≠ sep) (hb : ∀ c ∈ b, isSpace c ∧ c ≠ sep)
    (h : ∀ x ∈ l :: ls, sep ∉ x ∧ Solid x) :
    ((b ++ joinWith (a ++ sep :: z) (l :: ls)).splitOn sep).map strip = l :: ls := by
  have hnot : ∀ {y : Text}, (∀ c ∈ y, isSpace c ∧ c ≠ sep) → sep ∉ y := fun hy hd =>
    (hy sep hd).2 rfl
  induction ls generalizing l b with
  | nil =>
    obtain ⟨hl, hsolid⟩ := h l (.head _)
    have hd : sep ∉ b ++ l := by simp [hnot hb, hl]
    have hjoin : joinWith (a ++ sep :: z) [l] = l := by simp [joinWith, List.intercalate]
    rw [hjoin, List.splitOn_eq_singleton hd, List.map_singleton,
      strip_append_left fun c hc => (hb c hc).1, strip_solid hsolid]
  | cons m ls ih =>
    obtain ⟨⟨hl, hsolid⟩, hrest⟩ := List.forall_mem_cons.mp h
    have hd : sep ∉ b ++ (l ++ a) := by simp [hnot hb, hl, hnot ha]
    have htext : b ++ joinWith (a ++ sep :: z) (l :: m :: ls) =
        (b ++ (l ++ a)) ++ sep :: (z ++ joinWith (a ++ sep :: z) (m :: ls)) := by
      rw [joinWith_cons]
      simp
    rw [htext, List.splitOn_append_cons_self_of_not_mem hd, List.map_cons, ih hz hrest,
      strip_append_left fun c hc => (hb c hc).1, strip_append_right fun c hc => (ha c hc).1,
      strip_solid hsolid]

theorem solid_joinWith {sep : Text} (hne : ls ≠ []) (h : ∀ x ∈ ls, Solid x) :
    Solid (joinWith sep ls) := by
  induction ls with
  | nil => exact absurd rfl hne
  | cons l ls ih =>
    obtain ⟨hl, hrest⟩ := List.forall_mem_cons.mp h
    cases ls with
    | nil => simpa [joinWith, List.intercalate] using hl
    | cons m ls =>
      rw [joinWith_cons]
      exact solid_append hl (ih (by simp) hrest) sep

theorem mem_joinWith {sep : Text} (h : c ∈ joinWith sep ls) : c ∈ sep ∨ ∃ l ∈ ls, c ∈ l := by
  cases ls with
  | nil => simp [joinWith, List.intercalate] at h
  | cons l ls =>
    induction ls generalizing l with
    | nil => exact .inr ⟨l, .head _, by simpa [joinWith, List.intercalate] using h⟩
    | cons m ls ih =>
      rw [joinWith_cons] at h
      rcases List.mem_append.mp h with h | h
      · exact .inr ⟨l, .head _, h⟩
      · rcases List.mem_append.mp h with h | h
        · exact .inl h
        · rcases ih m h with h | ⟨x, hx, hc⟩
          · exact .inl h
          · exact .inr ⟨x, .tail _ hx, hc⟩

theorem splitList_joinWith (hne : ls ≠ []) (h : ∀ x ∈ ls, '|' ∉ x ∧ Solid x) :
    splitList (joinWith " | ".toList ls) = ls := by
  obtain ⟨l, ls, rfl⟩ := List.exists_cons_of_ne_nil hne
  have hsplit := map_strip_splitOn_joinWith (a := [' ']) (z := [' ']) (b := [])
    (by decide) (by decide) (by simp) h
  rw [splitList, show " | ".toList = [' '] ++ '|' :: [' '] from rfl, ← List.nil_append (joinWith _ _),
    hsplit]
  exact List.filter_eq_self.mpr fun x hx => by simpa using (h x hx).2.1

theorem splitNumbers_joinWith (hne : ls ≠ []) (h : ∀ x ∈ ls, ',' ∉ x ∧ Solid x) :
    splitNumbers (joinWith ", ".toList ls) = ls := by
  obtain ⟨l, ls, rfl⟩ := List.exists_cons_of_ne_nil hne
  have hsplit := map_strip_splitOn_joinWith (a := []) (z := [' ']) (b := [])
    (by simp) (by decide) (by simp) h
  rw [splitNumbers, show ", ".toList = [] ++ ',' :: [' '] from rfl, ← List.nil_append (joinWith _ _),
    hsplit]
  exact List.filter_eq_self.mpr fun x hx => by simpa using (h x hx).2.1

/-! A number. -/

/-- `(?:\.\d+)?` -/
def fractionRe : Regex Unit := opt (cat [chr '.', plus digit])

theorem blind_numberRe : numberRe.Blind := by
  simp [numberRe, Blind, cat, opt, chr, digit, plus]

theorem run_digit {bf : Text} (hc : isDigit c) :
    (digit : Regex Unit).run ⟨bf, c :: t, []⟩ = [⟨c :: bf, t, []⟩] := by
  simp [digit, run, hc]

theorem fractionRe_none {bf : Text} (htail : ∀ c ∈ tail.head?, c = 'e') :
    (fractionRe.run ⟨bf, tail, []⟩).head? = some ⟨bf, tail, []⟩ := by
  cases tail with
  | nil => rfl
  | cons c tail =>
    obtain rfl := htail c rfl
    rfl

theorem fractionRe_some {bf : Text} (hne : w ≠ []) (hw : ∀ c ∈ w, isDigit c)
    (htail : ∀ c ∈ tail.head?, isDigit c = false) :
    (fractionRe.run ⟨bf, '.' :: (w ++ tail), []⟩).head? =
      some ⟨('.' :: w).reverse ++ bf, tail, []⟩ := by
  obtain ⟨c, y, rfl⟩ := List.exists_cons_of_ne_nil hne
  obtain ⟨hc, hy⟩ := List.forall_mem_cons.mp hw
  have hdot : (chr '.' : Regex Unit).run ⟨bf, '.' :: (c :: y ++ tail), []⟩ =
      [⟨'.' :: bf, c :: y ++ tail, []⟩] := by
    simp [chr, run]
  obtain ⟨l, hl⟩ := run_star_stop (γ := Unit) (x := c :: '.' :: bf) (k := []) hy htail
  have hdigits : ((plus digit : Regex Unit).run ⟨'.' :: bf, c :: y ++ tail, []⟩).head? =
      some ⟨y.reverse ++ (c :: '.' :: bf), tail, []⟩ :=
    head?_run_seq (run_digit hc) (congrArg List.head? hl)
  have hseq := head?_run_seq hdot hdigits
  have hopt := head?_run_opt hseq
  simpa [fractionRe, cat] using hopt

theorem exists_digits (hd : Digits d) : ∃ c y, d = c :: y ∧ isDigit c := by
  cases hd with
  | whole hu h =>
    obtain ⟨c, y, rfl⟩ := List.exists_cons_of_ne_nil hu
    exact ⟨c, y, rfl, h c (.head _)⟩
  | point hu h hw h' =>
    obtain ⟨c, y, rfl⟩ := List.exists_cons_of_ne_nil hu
    exact ⟨c, y ++ '.' :: _, rfl, h c (.head _)⟩

/-- What `numberRe` takes of the text of a number: all but the exponent. -/
theorem first_numberRe (hd : Digits d) (htail : ∀ c ∈ tail.head?, c = 'e')
    (hx : x = [] ∨ x = ['-']) :
    numberRe.first [] (x ++ (d ++ tail)) = some (⟨x ++ d, []⟩, tail) := by
  have hdigit : ∀ {c : Char}, isDigit c → (isDigit c || c == ',') = true := by
    intro c hc
    simp [hc]
  have hstop : ∀ c ∈ tail.head?, isDigit c = false ∧ (isDigit c || c == ',') = false := by
    intro c hc
    obtain rfl := htail c hc
    exact ⟨by decide, by decide⟩
  have hrest : ∀ bf : Text, ((seq digit (seq (star (cls fun c => isDigit c || c == ',')) fractionRe)).run
      ⟨bf, d ++ tail, []⟩).head? = some ⟨d.reverse ++ bf, tail, []⟩ := by
    intro bf
    cases hd with
    | whole hu h =>
      obtain ⟨c, y, rfl⟩ := List.exists_cons_of_ne_nil hu
      obtain ⟨hc, hy⟩ := List.forall_mem_cons.mp h
      obtain ⟨l, hl⟩ := run_star_stop (γ := Unit) (x := c :: bf) (k := [])
        (fun c hc => hdigit (hy c hc)) fun c hc => (hstop c hc).2
      have hrun := head?_run_seq (run_digit hc) (head?_run_seq hl (fractionRe_none htail))
      simpa using hrun
    | @point u w hu h hw h' =>
      obtain ⟨c, y, rfl⟩ := List.exists_cons_of_ne_nil hu
      obtain ⟨hc, hy⟩ := List.forall_mem_cons.mp h
      obtain ⟨l, hl⟩ := run_star_stop (γ := Unit) (x := c :: bf) (k := [])
        (v := '.' :: (w ++ tail)) (fun c hc => hdigit (hy c hc)) (by simp; decide)
      have hrun := head?_run_seq (run_digit hc)
        (head?_run_seq hl (fractionRe_some hw h' fun c hc => (hstop c hc).1))
      simpa using hrun
  obtain ⟨l, hl⟩ : ∃ l, (opt (chr '-') : Regex Unit).run ⟨[], x ++ (d ++ tail), []⟩ =
      ⟨x.reverse, d ++ tail, []⟩ :: l := by
    rcases hx with rfl | rfl
    · have hminus : (chr '-' : Regex Unit).run ⟨[], [] ++ (d ++ tail), []⟩ = [] := by
        obtain ⟨c, y, rfl, hc⟩ := exists_digits hd
        have hne : c ≠ '-' := by
          rintro rfl
          exact absurd hc (by decide)
        simp [chr, run, hne]
      exact ⟨[], by simp only [opt, run, hminus]; rfl⟩
    · exact ⟨[⟨[], '-' :: (d ++ tail), []⟩], by simp [opt, chr, run]⟩
  have hhead := head?_run_seq hl (hrest x.reverse)
  have hrun : (numberRe.run ⟨[], x ++ (d ++ tail), []⟩).head? =
      some ⟨d.reverse ++ x.reverse, tail, []⟩ := hhead
  simp only [first, hrun, Option.map_some]
  rw [since_skip (w := x ++ d) (by simp)]

theorem mem_digits (hd : Digits d) (hc : c ∈ d) : isDigit c ∨ c = '.' := by
  cases hd with
  | whole hu h => exact .inl (h c hc)
  | point hu h hw h' =>
    rcases List.mem_append.mp hc with hc | hc
    · exact .inl (h c hc)
    · rcases List.mem_cons.mp hc with rfl | hc
      · exact .inr rfl
      · exact .inl (h' c hc)

/-- A number of a fence reads as what its digits show. -/
theorem signedNumber_formatGeneral (v : ℚ) :
    ∃ y, signedNumber (formatGeneral v) = some y ∧ (y = v ↔ ShownInFull v) := by
  obtain ⟨d, tail, htext, hd, htail, hvalue⟩ := formatGeneral_shape v
  refine ⟨_, ?_, hvalue⟩
  have hne : (if v < 0 then ['-'] else []) ++ d ≠ [] := by
    obtain ⟨c, y, rfl, -⟩ := exists_digits hd
    simp
  have hcommas : ((if v < 0 then ['-'] else []) ++ d).filter (· != ',') =
      (if v < 0 then ['-'] else []) ++ d := by
    refine List.filter_eq_self.mpr fun c hc => bne_iff_ne.mpr ?_
    rintro rfl
    rcases List.mem_append.mp hc with hc | hc
    · split at hc
      · exact absurd (List.mem_singleton.mp hc) (by decide)
      · cases hc
    · rcases mem_digits hd hc with hc | hc
      · exact absurd hc (by decide)
      · exact absurd hc (by decide)
  have hread : signedFloatOf ((if v < 0 then ['-'] else []) ++ d) =
      if v < 0 then -floatOf d else floatOf d := by
    split
    · rfl
    · obtain ⟨c, y, rfl, hc⟩ := exists_digits hd
      rw [List.nil_append, signedFloatOf]
      rintro z ⟨⟩
      exact absurd hc (by decide)
  have hfirst := first_numberRe (x := if v < 0 then ['-'] else []) hd htail (by split <;> simp)
  rw [signedNumber, htext, pieces_hit blind_numberRe hne hfirst, firstHit, Option.map_some, hcommas,
    hread]
  rfl

theorem solid_ofNat (n : Nat) : Solid (ofNat n) :=
  ⟨ofNat_ne_nil,
    fun _ hc => not_isSpace_of_isNumberChar (mem_ofNat_number (List.mem_of_head? hc)),
    fun _ hc => not_isSpace_of_isNumberChar (mem_ofNat_number (List.mem_of_getLast? hc))⟩

/-- Source numbers read back. -/
theorem filterMap_splitNumbers {ns : List Nat} (hne : ns ≠ []) :
    (splitNumbers (joinWith ", ".toList (ns.map ofNat))).filterMap toNat? = ns := by
  rw [splitNumbers_joinWith (by simpa using hne)]
  · simp [List.filterMap_map, toNat?_ofNat]
  · intro x hx
    obtain ⟨n, -, rfl⟩ := List.mem_map.mp hx
    refine ⟨fun hc => ?_, solid_ofNat n⟩
    exact absurd (isDigit_of_mem_ofNat hc) (by decide)

/-! A series. -/

theorem mapM_parseNumber (vs : List ℚ) : ∃ ys,
    (vs.map formatGeneral).mapM parseNumber = .ok ys ∧ ys.length = vs.length ∧
      (ys = vs ↔ ∀ v ∈ vs, ShownInFull v) := by
  induction vs with
  | nil => exact ⟨[], rfl, rfl, by simp⟩
  | cons v vs ih =>
    obtain ⟨y, hy, hshown⟩ := signedNumber_formatGeneral v
    obtain ⟨ys, hys, hlen, hall⟩ := ih
    refine ⟨y :: ys, ?_, by simp [hlen], by simp [hshown, hall]⟩
    rw [List.map_cons, List.mapM_cons, parseNumber, hy, hys]
    rfl

theorem strip_dropBlanks (c : Char) (w : Text) : strip (c :: dropBlanks w) = strip (c :: w) := by
  obtain ⟨b, hb, hw, -⟩ := exists_dropBlanks w
  have hsplit : c :: w = (c :: dropBlanks w) ++ b := by
    nth_rewrite 1 [hw]
    rfl
  rw [hsplit, strip_append_right fun d hd => isSpace_of_isBlank (hb d hd)]

/-- What the values of a series are written as. -/
def valuesText (vs : List ℚ) : Text := joinWith " | ".toList (vs.map formatGeneral)

theorem solid_valuesText {vs : List ℚ} (h : vs ≠ []) : Solid (valuesText vs) := by
  refine solid_joinWith (by simpa using h) fun x hx => ?_
  obtain ⟨y, -, rfl⟩ := List.mem_map.mp hx
  exact solid_formatGeneral y

theorem mem_valuesText {vs : List ℚ} (h : c ∈ valuesText vs) :
    isNumberChar c ∨ c = ' ' ∨ c = '|' := by
  rcases mem_joinWith h with h | ⟨x, hx, hc⟩
  · have hc : c = ' ' ∨ c = '|' ∨ c = ' ' := by simpa using h
    rcases hc with hc | hc | hc
    · exact .inr (.inl hc)
    · exact .inr (.inr hc)
    · exact .inr (.inl hc)
  · obtain ⟨y, -, rfl⟩ := List.mem_map.mp hx
    exact .inl (mem_formatGeneral hc)

theorem dropWhile_isBlank_solid (h : Solid t) : (' ' :: t).dropWhile isBlank = t := by
  obtain ⟨hne, hhead, -⟩ := h
  obtain ⟨c, t, rfl⟩ := List.exists_cons_of_ne_nil hne
  have hc : isBlank c = false := by
    by_contra hblank
    have hspace := isSpace_of_isBlank (Bool.eq_true_of_not_eq_false hblank)
    simp [hhead c rfl] at hspace
  rw [List.dropWhile_cons_of_pos (by decide), List.dropWhile_cons_of_neg (by simp [hc])]

theorem notMem_valuesText {vs : List ℚ} : '\n' ∉ valuesText vs := by
  intro h
  rcases mem_valuesText h with h | h | h <;> exact absurd h (by decide)

/-- What a series line says: a name before its first equals sign, and values. -/
theorem parseSeries_eq {rest : Text} (hw : '=' ∉ w) (hbreak : '\n' ∉ c :: (w ++ '=' :: rest))
    (hrest : rest.dropWhile isBlank ≠ []) :
    parseSeries k (c :: (w ++ '=' :: rest)) =
      ((splitList (rest.dropWhile isBlank)).mapM parseNumber >>= fun values =>
        if values.length ≠ k then .error (.valueCount (strip (c :: w)) values.length k)
        else .ok ⟨strip (c :: w), values⟩) := by
  simp only [List.mem_cons, List.mem_append, not_or] at hbreak
  obtain ⟨hc, hbw, -, hbrest⟩ := hbreak
  obtain ⟨m, hm, hname, hvalues⟩ := matchStart_seriesRe hw (fun h => hc h.symm) hbw hbrest hrest
  rw [parseSeries, hm]
  simp only [hname, hvalues, Option.getD_some, strip_dropBlanks]

theorem seriesText_cons {s : ChartSeries} (h : s.name = c :: w) :
    seriesText s = c :: ((w ++ [' ']) ++ '=' :: ' ' :: valuesText s.values) := by
  simp [seriesText, valuesText, h]

/-- A series reads back if its name has no equals sign behind the first character. -/
theorem parseSeries_seriesText {s : ChartSeries} (hname : Solid s.name) (heq : '=' ∉ s.name.tail)
    (hbreak : '\n' ∉ s.name) (hne : s.values ≠ []) (hk : s.values.length = k) :
    ∃ ys, parseSeries k (seriesText s) = .ok ⟨s.name, ys⟩ ∧
      (ys = s.values ↔ ∀ v ∈ s.values, ShownInFull v) := by
  obtain ⟨c, w, hcw⟩ := List.exists_cons_of_ne_nil hname.1
  rw [hcw] at heq hbreak
  simp only [List.tail_cons, List.mem_cons, not_or] at heq hbreak
  obtain ⟨ys, hys, hlen, hshown⟩ := mapM_parseNumber s.values
  have hdrop := dropWhile_isBlank_solid (solid_valuesText hne)
  have hlist : splitList (valuesText s.values) = s.values.map formatGeneral := by
    refine splitList_joinWith (by simpa using hne) fun x hx => ?_
    obtain ⟨v, -, rfl⟩ := List.mem_map.mp hx
    refine ⟨fun hbar => ?_, solid_formatGeneral v⟩
    exact absurd (mem_formatGeneral hbar) (by decide)
  refine ⟨ys, ?_, hshown⟩
  rw [seriesText_cons hcw, parseSeries_eq (by simp [heq])
    (by simp [hbreak, notMem_valuesText]) (by rw [hdrop]; exact (solid_valuesText hne).1), hdrop,
    hlist, hys]
  have hstrip : strip (c :: (w ++ [' '])) = s.name := by
    rw [← List.cons_append, strip_append_right (by decide), ← hcw, strip_solid hname]
  rw [hstrip]
  show (if ys.length ≠ k then _ else _) = _
  rw [if_neg (by omega)]

/-- Else it comes back under another name, or not at all. -/
theorem parseSeries_cut {s r : ChartSeries} (heq : '=' ∈ s.name.tail) (hbreak : '\n' ∉ s.name)
    (h : parseSeries k (seriesText s) = .ok r) : r.name ≠ s.name := by
  obtain ⟨c, w, hcw⟩ : ∃ c w, s.name = c :: w := by
    cases hname : s.name with
    | nil => simp [hname] at heq
    | cons c w => exact ⟨c, w, rfl⟩
  rw [hcw] at heq hbreak
  obtain ⟨x, y, rfl, hx⟩ := List.eq_append_cons_of_mem heq
  have htext : seriesText s = c :: (x ++ '=' :: (y ++ (' ' :: '=' :: ' ' :: valuesText s.values))) := by
    rw [seriesText_cons hcw]
    simp
  have hrest : (y ++ (' ' :: '=' :: ' ' :: valuesText s.values)).dropWhile isBlank ≠ [] := by
    intro hnil
    have hblank := List.dropWhile_eq_nil_iff.mp hnil '=' (by simp)
    exact absurd hblank (by decide)
  rw [htext, parseSeries_eq hx (by simpa [notMem_valuesText] using hbreak) hrest,
    Fallible.bind_eq_ok] at h
  obtain ⟨ys, -, h⟩ := h
  split at h
  · cases h
  · obtain rfl := Except.ok.inj h
    intro hname
    have hlen := congrArg List.length hname
    have hle := length_strip_le (c :: x)
    rw [hcw] at hlen
    simp only [List.length_cons, List.length_append] at hlen hle
    omega

theorem mem_splitList (h : w ∈ splitList t) (hc : c ∈ w) : c ∈ t := by
  obtain ⟨part, hpart, rfl⟩ := List.mem_map.mp (List.mem_of_mem_filter h)
  exact (mem_splitOn hpart).2 c (mem_of_mem_strip hc)

theorem mem_parseSeries {s : ChartSeries} (h : parseSeries k t = .ok s) (hc : c ∈ s.name) :
    c ∈ t := by
  unfold parseSeries at h
  split at h
  · cases h
  · rename_i m hm
    obtain ⟨ys, -, h⟩ := Fallible.bind_eq_ok.mp h
    split at h
    · cases h
    · obtain rfl := Except.ok.inj h
      exact mem_group hm (mem_of_mem_strip hc)

end RownRg.Charts

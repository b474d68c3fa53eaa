import RownRg.Core.BuildsOn
import RownRg.Lib.Script

/-! References as the form reads and writes them. -/

open PyText Regex

namespace RownRg.Web

open BuildsOn (RefGroup RefText refOfMatch MetricPart SectionPart)

/-- `REF_RE`; behind the last `\s*` both ends of a text are the same. -/
def refRe : Regex RefGroup :=
  cat [textStart, star (cls Script.isSpace), group .chapter (plus (cls Script.isDigit)), chr '.',
    group .section (alt (plus (cls Script.isDigit)) (chr '*')),
    opt (cat [chr '(', star (cls Script.isSpace),
      group .metric (seq BuildsOn.noParen (lazy BuildsOn.noParen)), star (cls Script.isSpace),
      chr ')']), star (cls Script.isSpace), textEnd]

structure ParsedRef where
  chapter : Nat
  sectionNumber : Option Nat
  metric : Option Text
  deriving DecidableEq

def refOf (m : Match RefGroup) : ParsedRef :=
  let chapter := natOf ((m.group .chapter).getD [])
  if m.group .section = some ['*'] then ⟨chapter, none, none⟩
  else ⟨chapter, some (natOf ((m.group .section).getD [])), m.group .metric⟩

def parseRefLabel (raw : Text) : Option ParsedRef := (refRe.matchStart raw).map refOf

def formatRefLabel (ref : ParsedRef) : Text :=
  match ref.sectionNumber with
  | none => BuildsOn.chapterLabel ref.chapter
  | some n =>
    let base := BuildsOn.sectionLabel ref.chapter n
    match ref.metric with
    | some metric =>
      if (Script.trim metric).isEmpty then base else base ++ '(' :: (Script.trim metric ++ [')'])
    | none => base

/-! The form reads a reference as the server reads it with other characters for spaces. -/

variable {raw : Text} {r : ParsedRef} {c d : Char}

/-- Both languages agree on whether the character is a space and whether it is a digit. -/
def Ordinary (c : Char) : Prop := isSpace c = Script.isSpace c ∧ isDigit c = Script.isDigit c

instance decidableOrdinary (c : Char) : Decidable (Ordinary c) :=
  inferInstanceAs (Decidable (_ ∧ _))

/-- A character that the server takes as the form takes this one. -/
def asServer (c : Char) : Char :=
  if Ordinary c then c else if Script.isSpace c then ' ' else 'x'

theorem asServer_ordinary (h : Ordinary c) : asServer c = c := if_pos h

theorem map_asServer (h : ∀ c ∈ raw, Ordinary c) : raw.map asServer = raw :=
  (List.map_congr_left fun c hc => asServer_ordinary (h c hc)).trans (List.map_id _)

theorem isSpace_asServer (c : Char) : isSpace (asServer c) = Script.isSpace c := by
  by_cases h : Ordinary c
  · rw [asServer_ordinary h, h.1]
  · rw [asServer, if_neg h]
    by_cases hs : Script.isSpace c
    · rw [if_pos hs, hs]
      decide
    · rw [if_neg hs, Bool.eq_false_iff.mpr hs]
      decide

theorem ordinary_of_script (h : Script.isDigit c) : Ordinary c := by
  have hd : isDigit c := isDigit_of_ascii (Script.ascii_of_isDigit h)
  exact ⟨by rw [BuildsOn.not_isSpace_of_digit hd, Script.not_isSpace_of_isDigit h], by rw [hd, h]⟩

theorem asServer_digit (h : Script.isDigit c) : asServer c = c :=
  asServer_ordinary (ordinary_of_script h)

theorem isDigit_asServer (c : Char) : isDigit (asServer c) = Script.isDigit c := by
  by_cases h : Ordinary c
  · rw [asServer_ordinary h, h.2]
  · have hd : ¬ Script.isDigit c := fun hd => h (ordinary_of_script hd)
    rw [asServer, if_neg h, Bool.eq_false_iff.mpr hd]
    split <;> decide

/-- An ordinary character that stands for no other stands for itself only. -/
theorem asServer_eq (hd : d ∈ ".*()\n".toList) : asServer c = d ↔ c = d := by
  have hfix : Ordinary d := by
    have hall : ∀ d ∈ ".*()\n".toList, Ordinary d := by decide
    exact hall d hd
  have hclass : ∀ e ∈ [' ', 'x'], e ≠ d := by
    have hall : ∀ d ∈ ".*()\n".toList, ∀ e ∈ [' ', 'x'], e ≠ d := by decide
    exact hall d hd
  constructor
  · intro h
    by_cases hc : Ordinary c
    · rwa [asServer_ordinary hc] at h
    · rw [asServer, if_neg hc] at h
      split at h
      · exact absurd h (hclass ' ' (by simp))
      · exact absurd h (hclass 'x' (by simp))
  · rintro rfl
    exact asServer_ordinary hfix

theorem asServer_break (c : Char) : asServer c = '\n' ↔ c = '\n' := asServer_eq (by simp)

theorem refRe_eq : refRe = BuildsOn.refRe.comap asServer := by
  have hspace : (fun c => isSpace (asServer c)) = Script.isSpace := funext isSpace_asServer
  have hdigit : (fun c => isDigit (asServer c)) = Script.isDigit := funext isDigit_asServer
  have hchr : ∀ d ∈ ".*()".toList, (fun c => asServer c == d) = fun c => c == d := by
    intro d hd
    funext c
    have hd' : d ∈ ".*()\n".toList := (by decide : ".*()".toList ⊆ ".*()\n".toList) hd
    rw [Bool.eq_iff_iff, beq_iff_eq, beq_iff_eq, asServer_eq hd']
  have hparen : (fun c => !"()".toList.contains (asServer c)) = fun c => !"()".toList.contains c := by
    funext c
    rw [Bool.eq_iff_iff, BuildsOn.noParen_iff, BuildsOn.noParen_iff, Ne, Ne,
      asServer_eq (by simp), asServer_eq (by simp)]
  simp only [refRe, BuildsOn.refRe, BuildsOn.metricTail, cat, comap, BuildsOn.blank, space, digit,
    plus, opt, chr, BuildsOn.noParen, noneOf, hspace, hdigit, hparen, hchr '.' (by simp),
    hchr '*' (by simp), hchr '(' (by simp), hchr ')' (by simp)]

/-- Both read the same numbers. -/
theorem parseRefLabel_asServer (raw : Text) :
    (parseRefLabel raw).map (fun r => (r.chapter, r.sectionNumber)) =
      (BuildsOn.parseRef (raw.map asServer)).map fun r => (r.chapter, r.sectionNumber) := by
  have hrename := matchStart_rename asServer_break BuildsOn.refRe raw
  rw [← refRe_eq] at hrename
  rw [parseRefLabel, BuildsOn.parseRef, hrename]
  cases hm : refRe.matchStart raw with
  | none => rfl
  | some m =>
    rw [hm] at hrename
    obtain ⟨q, hq, u, heq⟩ := mem_of_matchStart hrename
    obtain ⟨w, d, s, x, v, k, -, -, ⟨-, hd⟩, hs, -, -, hchapter, hsection, -, -⟩ :=
      BuildsOn.parts_of_mem hq u
    rw [← heq] at hchapter hsection
    have hfix : ∀ {y z : Text}, y.map asServer = z → (∀ c ∈ z, isDigit c) → y = z := by
      rintro y z rfl hz
      refine (List.map_id y).symm.trans (List.map_congr_left fun c hc => ?_)
      refine (asServer_digit ?_).symm
      rw [← isDigit_asServer]
      exact hz _ (List.mem_map_of_mem hc)
    have hstar : ∀ {y : Text}, y.map asServer = ['*'] → y = ['*'] := by
      intro y hy
      cases y with
      | nil => cases hy
      | cons c y =>
        obtain ⟨hc, hy⟩ := List.cons.inj hy
        rw [(asServer_eq (by simp)).mp hc, List.map_eq_nil_iff.mp hy]
    rw [group_rename] at hchapter hsection
    obtain ⟨y, hy, hyd⟩ := Option.map_eq_some_iff.mp hchapter
    obtain ⟨z, hz, hzs⟩ := Option.map_eq_some_iff.mp hsection
    obtain rfl := hfix hyd hd
    simp only [Option.map_some, refOf, refOfMatch, group_rename, hy, hz, Option.getD_some, hyd, hzs]
    rcases hs with rfl | ⟨-, hs⟩
    · rw [hstar hzs]
      rfl
    · obtain rfl := hfix hzs hs
      split <;> rfl

/-! Over ordinary characters both read the same references. -/

theorem trim_eq_strip (h : ∀ c ∈ raw, Ordinary c) : Script.trim raw = strip raw := by
  have hdrop : ∀ t : Text, (∀ c ∈ t, Ordinary c) → t.dropWhile Script.isSpace = t.dropWhile isSpace := by
    intro t ht
    induction t with
    | nil => rfl
    | cons c t ih =>
      rw [List.dropWhile_cons, List.dropWhile_cons, (ht c (by simp)).1,
        ih fun d hd => ht d (by simp [hd])]
  rw [Script.trim, strip, rstrip, lstrip, hdrop raw h, hdrop]
  intro c hc
  exact h c ((List.dropWhile_sublist _).subset (List.mem_reverse.mp hc))

theorem group_ordinary (h : ∀ c ∈ raw, Ordinary c) {m : Match RefGroup}
    (hm : refRe.matchStart raw = some m) {g : RefGroup} {t : Text} (ht : m.group g = some t) :
    ∀ c ∈ t, Ordinary c := by
  obtain ⟨q, hq, u, heq⟩ := mem_of_matchStart hm
  obtain ⟨x, hx, rfl⟩ := Option.map_eq_some_iff.mp ht
  have hcaps := (run_caps refRe ⟨[], raw, []⟩ ⟨h, by simp⟩ q hq).2
  refine hcaps x ?_
  rw [heq] at hx
  exact List.mem_of_find?_eq_some hx

theorem parseRef_ordinary (h : ∀ c ∈ raw, Ordinary c) :
    BuildsOn.parseRef raw = (parseRefLabel raw).map fun r =>
      ⟨r.chapter, r.sectionNumber, BuildsOn.stripped r.metric⟩ := by
  have hrename := matchStart_rename asServer_break BuildsOn.refRe raw
  rw [← refRe_eq, map_asServer h] at hrename
  rw [BuildsOn.parseRef, parseRefLabel, hrename, Option.map_map, Option.map_map]
  cases hm : refRe.matchStart raw with
  | none => rfl
  | some m =>
    have hgroup : ∀ g, (m.rename asServer).group g = m.group g := by
      intro g
      rw [group_rename]
      cases hg : m.group g with
      | none => rfl
      | some t => exact congrArg some (map_asServer (group_ordinary h hm hg))
    simp only [Option.map_some, Function.comp_apply, refOfMatch, refOf, hgroup]
    split <;> rfl

theorem stripped_ordinary {metric : Option Text} (h : ∀ t ∈ metric, ∀ c ∈ t, Ordinary c) :
    BuildsOn.stripped metric = (metric.map Script.trim).filter fun t => !t.isEmpty := by
  cases metric with
  | none => rfl
  | some t =>
    rw [BuildsOn.stripped, Option.getD_some, Option.map_some, trim_eq_strip (h t rfl),
      Option.filter_some]
    cases strip t <;> rfl

/-- A metric has no parentheses. -/
theorem parseRefLabel_metric (h : parseRefLabel raw = some r) :
    ∀ metric ∈ r.metric, ∀ c ∈ metric, c ≠ '(' ∧ c ≠ ')' := by
  obtain ⟨m, hm, rfl⟩ := Option.map_eq_some_iff.mp h
  have hrename := matchStart_rename asServer_break BuildsOn.refRe raw
  rw [← refRe_eq, hm, Option.map_some] at hrename
  obtain ⟨q, hq, u, heq⟩ := mem_of_matchStart hrename
  obtain ⟨w, d, s, x, v, k, -, -, -, -, -, -, -, -, -, hparen⟩ := BuildsOn.parts_of_mem hq u
  rw [← heq, group_rename] at hparen
  intro metric hmetric c hc
  unfold refOf at hmetric
  dsimp only at hmetric
  split at hmetric
  · cases hmetric
  · have hgroup : m.group .metric = some metric := hmetric
    have hne := hparen (metric.map asServer) (by rw [hgroup]; rfl) (asServer c)
      (List.mem_map_of_mem hc)
    rwa [Ne, Ne, asServer_eq (by simp), asServer_eq (by simp)] at hne

theorem map_asServer_ofNat (n : Nat) : (ofNat n).map asServer = ofNat n := by
  refine (List.map_congr_left fun c hc => ?_).trans (List.map_id _)
  refine asServer_digit ?_
  have hd : c.isDigit := Nat.isDigit_of_mem_toDigits (by decide) (by decide) hc
  simp only [Char.isDigit, ge_iff_le, Bool.and_eq_true, decide_eq_true_eq] at hd
  simp only [Script.isDigit, Bool.and_eq_true, decide_eq_true_eq]
  exact hd

theorem map_asServer_sectionLabel (chapter n : Nat) :
    (BuildsOn.sectionLabel chapter n).map asServer = BuildsOn.sectionLabel chapter n := by
  have hdot : asServer '.' = '.' := (asServer_eq (by simp)).mpr rfl
  simp [BuildsOn.sectionLabel, map_asServer_ofNat, hdot]

theorem map_asServer_chapterLabel (chapter : Nat) :
    (BuildsOn.chapterLabel chapter).map asServer = BuildsOn.chapterLabel chapter := by
  have hall : ".*".toList.map asServer = ".*".toList := by decide
  rw [BuildsOn.chapterLabel, List.map_append, map_asServer_ofNat, hall]

/-- The numbers of a reference read back from its label. -/
theorem parseRefLabel_format (h : ∀ metric ∈ r.metric, ∀ c ∈ metric, c ≠ '(' ∧ c ≠ ')') :
    (parseRefLabel (formatRefLabel r)).map (fun r => (r.chapter, r.sectionNumber)) =
      some (r.chapter, r.sectionNumber) := by
  rw [parseRefLabel_asServer]
  obtain ⟨chapter, sectionNumber, metric⟩ := r
  cases sectionNumber with
  | none =>
    simp [formatRefLabel, map_asServer_chapterLabel, BuildsOn.parseRef_chapterLabel]
  | some n =>
    have hbase : BuildsOn.parseRef ((BuildsOn.sectionLabel chapter n).map asServer) =
        some ⟨chapter, some n, none⟩ := by
      rw [map_asServer_sectionLabel, BuildsOn.parseRef_sectionLabel]
    cases metric with
    | none => simp [formatRefLabel, hbase]
    | some metric =>
      simp only [formatRefLabel]
      split
      · simp [hbase]
      · rename_i hne
        have hpart : MetricPart ('(' :: ((Script.trim metric).map asServer ++ [')']))
            (BuildsOn.stripped (some ((Script.trim metric).map asServer))) := by
          refine .given (by simpa using hne) fun c hc => ?_
          obtain ⟨d, hd, rfl⟩ := List.mem_map.mp hc
          rw [Ne, Ne, asServer_eq (by simp), asServer_eq (by simp)]
          exact h metric rfl d (Script.mem_of_mem_trim hd)
        have href := RefText.mk (w := []) (v := []) (by simp) (ofNat_ne_nil (n := chapter))
          (fun c hc => isDigit_of_mem_ofNat hc) (BuildsOn.sectionPart_ofNat n) hpart (by simp)
        have hopen : asServer '(' = '(' := (asServer_eq (by simp)).mpr rfl
        have hclose : asServer ')' = ')' := (asServer_eq (by simp)).mpr rfl
        have htext : (BuildsOn.sectionLabel chapter n ++
            '(' :: (Script.trim metric ++ [')'])).map asServer =
            [] ++ (ofNat chapter ++ '.' :: (ofNat n ++
              ('(' :: ((Script.trim metric).map asServer ++ [')']) ++ []))) := by
          rw [List.map_append, map_asServer_sectionLabel]
          simp [BuildsOn.sectionLabel, hopen, hclose]
        rw [htext, BuildsOn.parseRef_eq_some.mpr href]
        simp [natOf_ofNat]

end RownRg.Web

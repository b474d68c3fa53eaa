import Mathlib.Data.List.Basic
import Mathlib.Data.List.TakeDrop
import Mathlib.Data.List.TakeWhile

/-! Python text as a list of code points: classes, integers, stripping, splitting, replacing. -/
namespace PyText

abbrev Text := List Char

variable {c : Char} {t u v : Text} {n : Nat}

theorem lawfulBEq_text : LawfulBEq Text := inferInstance

theorem beq_text : (List.instBEq : BEq Text) = instBEqOfDecidableEq := lawful_beq_subsingleton _ _

instance (t : Text) (ts : List Text) : Decidable (t ∈ ts) :=
  @List.instDecidableMemOfLawfulBEq Text _ lawfulBEq_text t ts

/-- What holds of each character of a text is decided over the text, not over all characters. -/
instance decidableInText (p : Char → Prop) [DecidablePred p] (t : Text) :
    Decidable (∀ c ∈ t, p c) :=
  List.decidableBAll p t

instance decidableInOption (p : Char → Prop) [DecidablePred p] (o : Option Char) :
    Decidable (∀ c ∈ o, p c) :=
  Option.decidableForallMem o

/-- The digit zero of each decimal digit range (category Nd). -/
def digitZeros : List Nat :=
  [48, 1632, 1776, 1984, 2406, 2534, 2662, 2790, 2918, 3046, 3174, 3302, 3430, 3558, 3664, 3792,
   3872, 4160, 4240, 6112, 6160, 6470, 6608, 6784, 6800, 6992, 7088, 7232, 7248, 42528, 43216,
   43264, 43472, 43504, 43600, 44016, 65296, 66720, 68912, 69734, 69872, 69942, 70096, 70384,
   70736, 70864, 71248, 71360, 71472, 71904, 72016, 72784, 73040, 73120, 73552, 92768, 92864,
   93008, 120782, 120792, 120802, 120812, 120822, 123200, 123632, 124144, 125264, 130032]

def digitValue (c : Char) : Option Nat :=
  (digitZeros.find? fun z => z ≤ c.toNat && c.toNat ≤ z + 9).map (c.toNat - ·)

/-- The class `\d`. -/
def isDigit (c : Char) : Bool := (digitValue c).isSome

def spaceCodes : List Nat :=
  [9, 10, 11, 12, 13, 28, 29, 30, 31, 32, 133, 160, 5760, 8192, 8193, 8194, 8195, 8196, 8197,
   8198, 8199, 8200, 8201, 8202, 8232, 8233, 8239, 8287, 12288]

/-- The class `\s`, which is also what `strip` removes. -/
def isSpace (c : Char) : Bool := c.toNat ∈ spaceCodes

/-- The class `[^\S\n]`. -/
def isHSpace (c : Char) : Bool := isSpace c && c != '\n'

/-- `int` on a text of decimal digits. -/
def natOf (t : Text) : Nat := t.foldl (fun a c => 10 * a + (digitValue c).getD 0) 0

/-- `int`; a text with anything but digits in it raises `ValueError`. -/
def toNat? (t : Text) : Option Nat :=
  if !t.isEmpty && t.all isDigit then some (natOf t) else none

/-- Decimal digits, single underscores between them. -/
def digitsValue (t : Text) : Option Nat :=
  if (t.splitOn '_').all fun part => !part.isEmpty && part.all isDigit then
    some (natOf (t.filter (· != '_')))
  else none

/-- `str` of a natural number. -/
def ofNat (n : Nat) : Text := Nat.toDigits 10 n

def lstrip (t : Text) : Text := t.dropWhile isSpace
def rstrip (t : Text) : Text := (t.reverse.dropWhile isSpace).reverse
def strip (t : Text) : Text := rstrip (lstrip t)

/-- `int` of a text; `none` where it raises `ValueError`. -/
def toInt? (t : Text) : Option Int :=
  match strip t with
  | '-' :: digits => (digitsValue digits).map fun n => -(n : Int)
  | '+' :: digits => (digitsValue digits).map fun n => (n : Int)
  | digits => (digitsValue digits).map fun n => (n : Int)

/-- `sep.join(parts)`. -/
def joinWith (sep : Text) (parts : List Text) : Text := List.intercalate sep parts

/-- `text.replace(old, new)` for a non-empty `old`, with fuel for the text. -/
def replaceFrom (old new : Text) : Nat → Text → Text
  | 0, t => t
  | _ + 1, [] => []
  | n + 1, c :: t =>
    if old.isPrefixOf (c :: t) then new ++ replaceFrom old new n ((c :: t).drop old.length)
    else c :: replaceFrom old new n t

/-- `text.replace(old, new)`. -/
def replaceAll (old new t : Text) : Text :=
  if old.isEmpty then new ++ t.flatMap fun c => c :: new else replaceFrom old new t.length t

/-- The text before the first occurrence of `old` and the text behind it. -/
def cutAt (old : Text) : Text → Option (Text × Text)
  | [] => if old.isEmpty then some ([], []) else none
  | c :: t =>
    if old.isPrefixOf (c :: t) then some ([], (c :: t).drop old.length)
    else (cutAt old t).map fun x => (c :: x.1, x.2)

/-- `text.split(sep)` for a non-empty `sep`, with fuel for the text. -/
def splitFrom (sep : Text) : Nat → Text → List Text
  | 0, t => [t]
  | n + 1, t =>
    match cutAt sep t with
    | none => [t]
    | some (u, v) => u :: splitFrom sep n v

/-- `text.split(sep)` for a non-empty `sep`. -/
def splitText (sep t : Text) : List Text := splitFrom sep t.length t

/-- `text.replace(old, new, 1)`. -/
def replaceFirst (old new t : Text) : Text :=
  match cutAt old t with
  | none => t
  | some (u, v) => u ++ new ++ v

/-- `old in text`. -/
def contains (old t : Text) : Bool := (cutAt old t).isSome

theorem cutAt_eq {old : Text} (h : cutAt old t = some (u, v)) : t = u ++ (old ++ v) := by
  induction t generalizing u v with
  | nil =>
    simp only [cutAt, Option.ite_none_right_eq_some, List.isEmpty_iff] at h
    obtain ⟨rfl, h⟩ := h
    obtain ⟨rfl, rfl⟩ := Prod.mk.inj (Option.some.inj h)
    rfl
  | cons c t ih =>
    simp only [cutAt] at h
    split at h
    · rename_i hprefix
      obtain ⟨w, hw⟩ := List.isPrefixOf_iff_prefix.mp hprefix
      obtain ⟨rfl, rfl⟩ := Prod.mk.inj (Option.some.inj h)
      simp [← hw]
    · obtain ⟨⟨x, y⟩, hxy, heq⟩ := Option.map_eq_some_iff.mp h
      obtain ⟨rfl, rfl⟩ := Prod.mk.inj heq
      rw [ih hxy]
      rfl

/-- A text is cut uniquely before the first character that fails `p`. -/
theorem append_inj_of_all {p : Char → Bool} {x x' y y' : Text} (hx : ∀ c ∈ x, p c)
    (hx' : ∀ c ∈ x', p c) (hy : ∀ c ∈ y.head?, p c = false) (hy' : ∀ c ∈ y'.head?, p c = false)
    (h : x ++ y = x' ++ y') : x = x' ∧ y = y' := by
  induction x generalizing x' with
  | nil =>
    cases x' with
    | nil => exact ⟨rfl, h⟩
    | cons c x' =>
      subst h
      have hc := hy c rfl
      simp [hx' c (by simp)] at hc
  | cons c x ih =>
    cases x' with
    | nil =>
      subst h
      have hc := hy' c rfl
      simp [hx c (by simp)] at hc
    | cons d x' =>
      obtain ⟨rfl, htail⟩ : c = d ∧ x ++ y = x' ++ y' := by simpa using h
      have hx := List.forall_mem_cons.mp hx
      obtain ⟨rfl, hyy⟩ := ih hx.2 (List.forall_mem_cons.mp hx').2 htail
      exact ⟨rfl, hyy⟩

theorem head?_dropWhile {p : Char → Bool} (t : Text) :
    ∀ c ∈ (t.dropWhile p).head?, p c = false := by
  intro c hc
  have hhead := List.head?_dropWhile_not p t
  rw [Option.mem_def.mp hc] at hhead
  simpa using hhead

/-- A stretch of a class ends before the first character outside it. -/
theorem takeWhile_append_stop {p : Char → Bool} {w v : Text} (hw : ∀ c ∈ w, p c)
    (hv : ∀ c ∈ v.head?, p c = false) :
    (w ++ v).takeWhile p = w ∧ (w ++ v).dropWhile p = v := by
  rw [List.takeWhile_append_of_pos hw, List.dropWhile_append_of_pos hw]
  cases v with
  | nil => simp
  | cons c v => simp [hv c rfl]

theorem mem_replaceFrom_nil {old : Text} (h : c ∈ replaceFrom old [] n t) : c ∈ t := by
  induction n generalizing t with
  | zero => exact h
  | succ n ih =>
    cases t with
    | nil => exact h
    | cons d t =>
      rw [replaceFrom] at h
      split at h
      · exact (List.drop_sublist _ _).mem (ih (by simpa using h))
      · rcases List.mem_cons.mp h with rfl | h
        · exact .head _
        · exact .tail _ (ih h)

theorem mem_replaceAll_nil {old : Text} (h : c ∈ replaceAll old [] t) : c ∈ t := by
  rw [replaceAll] at h
  split at h
  · simpa using h
  · exact mem_replaceFrom_nil h

/-- A text without one of the characters of `old` is left alone. -/
theorem replaceAll_of_notMem {old new : Text} (hold : c ∈ old) (h : c ∉ t) :
    replaceAll old new t = t := by
  have hfrom : ∀ n t, c ∉ t → replaceFrom old new n t = t := by
    intro n
    induction n with
    | zero => intro t _; rfl
    | succ n ih =>
      intro t ht
      cases t with
      | nil => rfl
      | cons d t =>
        have hprefix : old.isPrefixOf (d :: t) = false := by
          by_contra hp
          rw [Bool.not_eq_false, List.isPrefixOf_iff_prefix] at hp
          exact ht (hp.subset hold)
        rw [replaceFrom, hprefix, ih t fun hc => ht (by simp [hc])]
        simp
  have hne : old.isEmpty = false := by cases old <;> simp_all
  rw [replaceAll, hne]
  exact hfrom _ t h

/-- Only a blank text strips to nothing. -/
theorem isSpace_of_strip (h : strip t = []) : ∀ c ∈ t, isSpace c := by
  have hl : ∀ c ∈ lstrip t, isSpace c := by
    have hdrop := List.dropWhile_eq_nil_iff.mp (List.reverse_eq_nil_iff.mp h)
    exact fun c hc => hdrop c (List.mem_reverse.mpr hc)
  refine List.dropWhile_eq_nil_iff.mp ?_
  by_contra hne
  have hhead := List.head_dropWhile_not isSpace hne
  rw [hl _ (List.head_mem hne)] at hhead
  simp at hhead

theorem strip_blank (h : ∀ c ∈ t, isSpace c) : strip t = [] := by
  have hl : lstrip t = [] := List.dropWhile_eq_nil_iff.mpr h
  rw [strip, hl]
  rfl

theorem strip_append_left (h : ∀ c ∈ u, isSpace c) : strip (u ++ t) = strip t := by
  rw [strip, lstrip, List.dropWhile_append_of_pos h]
  rfl

theorem strip_append_right (h : ∀ c ∈ u, isSpace c) : strip (t ++ u) = strip t := by
  by_cases hall : ∀ c ∈ t, isSpace c
  · rw [strip_blank hall]
    refine strip_blank fun c hc => ?_
    exact (List.mem_append.mp hc).elim (hall c) (h c)
  · have hne : t.dropWhile isSpace ≠ [] := mt List.dropWhile_eq_nil_iff.mp hall
    have hl : lstrip (t ++ u) = lstrip t ++ u := by
      rw [lstrip, List.dropWhile_append]
      simp [hne, lstrip]
    rw [strip, hl, rstrip, List.reverse_append,
      List.dropWhile_append_of_pos fun c hc => h c (List.mem_reverse.mp hc)]
    rfl

theorem rstrip_append (hu : u ≠ []) (hlast : ∀ c ∈ u.getLast?, isSpace c = false) :
    rstrip (u ++ t) = u ++ rstrip t := by
  obtain ⟨d, v, hv⟩ := List.exists_cons_of_ne_nil (List.reverse_ne_nil_iff.mpr hu)
  have hd : isSpace d = false := hlast d (by rw [← List.head?_reverse, hv]; rfl)
  rw [rstrip, rstrip, List.reverse_append, List.dropWhile_append]
  split
  · rename_i hempty
    rw [List.isEmpty_iff.mp hempty, hv, List.dropWhile_cons_of_neg (by simp [hd]), ← hv]
    simp
  · simp

/-- A text that starts with no blank loses only the blanks behind it. -/
theorem strip_append_solid (hhead : ∀ c ∈ u.head?, isSpace c = false)
    (hlast : ∀ c ∈ u.getLast?, isSpace c = false) (hu : u ≠ []) :
    strip (u ++ t) = u ++ rstrip t := by
  obtain ⟨d, v, rfl⟩ := List.exists_cons_of_ne_nil hu
  have hd : isSpace d = false := hhead d rfl
  have hl : lstrip (d :: v ++ t) = d :: v ++ t := by simp [lstrip, hd]
  rw [strip, hl, rstrip_append hu hlast]

/-- Only blanks are stripped. -/
theorem exists_strip (t : Text) :
    ∃ u v, (∀ c ∈ u, isSpace c) ∧ (∀ c ∈ v, isSpace c) ∧ t = u ++ (strip t ++ v) := by
  have hall : ∀ u : Text, ∀ c ∈ u.takeWhile isSpace, isSpace c := fun u =>
    List.all_eq_true.mp (List.all_takeWhile (l := u))
  refine ⟨t.takeWhile isSpace, ((lstrip t).reverse.takeWhile isSpace).reverse, hall t, ?_, ?_⟩
  · intro c hc
    exact hall _ c (List.mem_reverse.mp hc)
  · rw [strip, rstrip, ← List.reverse_append, List.takeWhile_append_dropWhile,
      List.reverse_reverse, lstrip, List.takeWhile_append_dropWhile]

theorem mem_of_mem_strip (h : c ∈ strip t) : c ∈ t := by
  obtain ⟨u, v, -, -, ht⟩ := exists_strip t
  rw [ht]
  simp [h]

theorem length_strip_le (t : Text) : (strip t).length ≤ t.length := by
  obtain ⟨u, v, -, -, ht⟩ := exists_strip t
  have hlen := congrArg List.length ht
  simp only [List.length_append] at hlen
  omega

theorem strip_strip (t : Text) : strip (strip t) = strip t := by
  obtain ⟨u, v, hu, hv, ht⟩ := exists_strip t
  calc strip (strip t) = strip (u ++ (strip t ++ v)) := by
        rw [strip_append_left hu, strip_append_right hv]
    _ = strip t := by rw [← ht]

theorem strip_rstrip (t : Text) : strip (rstrip t) = strip t := by
  have hcut := List.takeWhile_append_dropWhile (p := isSpace) (l := t.reverse)
  have ht : t = rstrip t ++ (t.reverse.takeWhile isSpace).reverse := by
    rw [rstrip, ← List.reverse_append, hcut, List.reverse_reverse]
  have hall : ∀ c ∈ (t.reverse.takeWhile isSpace).reverse, isSpace c := by
    intro c hc
    exact List.mem_takeWhile_imp (List.mem_reverse.mp hc)
  calc strip (rstrip t) = strip (rstrip t ++ (t.reverse.takeWhile isSpace).reverse) :=
        (strip_append_right hall).symm
    _ = strip t := by rw [← ht]

/-- A text that no stripping shortens. -/
def Solid (t : Text) : Prop :=
  t ≠ [] ∧ (∀ c ∈ t.head?, isSpace c = false) ∧ ∀ c ∈ t.getLast?, isSpace c = false

theorem strip_solid (h : Solid t) : strip t = t := by
  obtain ⟨hne, hhead, hlast⟩ := h
  have hstrip := strip_append_solid (t := []) hhead hlast hne
  simpa [rstrip] using hstrip

theorem solid_strip (h : strip t ≠ []) : Solid (strip t) := by
  refine ⟨h, fun c hc => ?_, fun c hc => ?_⟩
  · by_contra hspace
    rw [Bool.not_eq_false] at hspace
    obtain ⟨u, hu⟩ := List.head?_eq_some_iff.mp hc
    have hlen := congrArg List.length (strip_strip t)
    have hdrop : strip (c :: u) = strip u := strip_append_left (u := [c]) (by simpa using hspace)
    rw [hu, hdrop] at hlen
    have hle := length_strip_le u
    simp at hlen
    omega
  · by_contra hspace
    rw [Bool.not_eq_false] at hspace
    obtain ⟨u, hu⟩ := List.getLast?_eq_some_iff.mp hc
    have hlen := congrArg List.length (strip_strip t)
    rw [hu, strip_append_right (u := [c]) (t := u) (by simpa using hspace)] at hlen
    have hle := length_strip_le u
    simp at hlen
    omega

theorem solid_append (hu : Solid u) (hv : Solid v) (t : Text) : Solid (u ++ (t ++ v)) := by
  obtain ⟨hne, hhead, -⟩ := hu
  obtain ⟨hne', -, hlast⟩ := hv
  refine ⟨by simp [hne], fun c hc => hhead c ?_, fun c hc => hlast c ?_⟩
  · obtain ⟨d, u, rfl⟩ := List.exists_cons_of_ne_nil hne
    exact hc
  · rw [← List.append_assoc, List.getLast?_append_of_ne_nil _ hne'] at hc
    exact hc

theorem isSpace_of_isHSpace (h : isHSpace c) : isSpace c := by
  simp_all [isHSpace]

theorem not_isDigit_of_isSpace (h : isSpace c) : isDigit c = false := by
  have hnone : ∀ n ∈ spaceCodes, digitZeros.find? (fun z => z ≤ n && n ≤ z + 9) = none := by
    decide
  have hc : c.toNat ∈ spaceCodes := by simpa [isSpace] using h
  simp [isDigit, digitValue, hnone _ hc]

theorem digitValue_of_ascii (h : c.isDigit) : digitValue c = some (c.toNat - 48) := by
  have hc : 48 ≤ c.toNat ∧ c.toNat ≤ 57 := by
    simpa [Char.isDigit, UInt32.le_iff_toNat_le] using h
  simp [digitValue, digitZeros, hc.1, hc.2]

theorem isDigit_of_ascii (h : c.isDigit) : isDigit c := by
  simp [isDigit, digitValue_of_ascii h]

theorem isDigit_of_mem_ofNat (h : c ∈ ofNat n) : isDigit c :=
  isDigit_of_ascii (Nat.isDigit_of_mem_toDigits (by omega) (by omega) h)

theorem ofNat_ne_nil : ofNat n ≠ [] := Nat.toDigits_ne_nil

theorem all_isDigit_ofNat : (ofNat n).all isDigit := by
  simpa using fun c hc => isDigit_of_mem_ofNat hc

theorem natOf_foldl (ht : ∀ c ∈ t, c.isDigit) (a : Nat) :
    t.foldl (fun a c => 10 * a + (digitValue c).getD 0) a = Nat.ofDigitChars 10 t a := by
  induction t generalizing a with
  | nil => rfl
  | cons c t ih =>
    have hc : (digitValue c).getD 0 = c.toNat - 48 := by
      rw [digitValue_of_ascii (ht c (by simp))]; rfl
    rw [List.foldl_cons, ih fun d hd => ht d (by simp [hd]), Nat.ofDigitChars_cons, hc]
    rfl

theorem natOf_ofNat (n : Nat) : natOf (ofNat n) = n := by
  unfold natOf ofNat
  rw [natOf_foldl fun c hc => Nat.isDigit_of_mem_toDigits (by omega) (by omega) hc]
  exact Nat.ofDigitChars_ten_toDigits

theorem ofNat_injective {m n : Nat} (h : ofNat n = ofNat m) : n = m := by
  rw [← natOf_ofNat n, h, natOf_ofNat]

theorem dot_notMem_ofNat (n : Nat) : '.' ∉ ofNat n := by
  intro h
  exact absurd (isDigit_of_mem_ofNat h) (by decide)

theorem toNat?_ofNat (n : Nat) : toNat? (ofNat n) = some n := by
  simp [toNat?, ofNat_ne_nil, all_isDigit_ofNat, natOf_ofNat]

/-- A part has no separator and nothing that the text has not. -/
theorem mem_splitOn {l : Text} {d : Char} (h : l ∈ t.splitOn d) : d ∉ l ∧ ∀ c ∈ l, c ∈ t := by
  induction t generalizing l with
  | nil =>
    obtain rfl : l = [] := by simpa using h
    simp
  | cons x t ih =>
    rw [List.splitOn_cons_eq_if_modifyHead] at h
    split at h
    · rcases List.mem_cons.mp h with rfl | h
      · simp
      · exact ⟨(ih h).1, fun c hc => .tail _ ((ih h).2 c hc)⟩
    · rename_i hx
      obtain ⟨m, ms, hms⟩ := List.exists_cons_of_ne_nil (List.splitOn_ne_nil d t)
      rw [hms] at h ih
      rcases List.mem_cons.mp h with rfl | h
      · obtain ⟨hd, hm⟩ := ih (.head _)
        have hne : d ≠ x := fun he => hx (by simp [he])
        refine ⟨by simp [hne, hd], fun c hc => ?_⟩
        rcases List.mem_cons.mp hc with rfl | hc
        · exact .head _
        · exact .tail _ (hm c hc)
      · exact ⟨(ih (.tail _ h)).1, fun c hc => .tail _ ((ih (.tail _ h)).2 c hc)⟩

end PyText

import Mathlib.Algebra.GroupWithZero.Nat
import RownRg.Lib.Scan

/-! Texts as a browser script reads them, and patterns read through a renaming of characters. -/

namespace Script

open PyText

/-- White space of the language: also the byte order mark, but no control separators. -/
def spaceCodes : List Nat :=
  [9, 10, 11, 12, 13, 32, 160, 5760, 8192, 8193, 8194, 8195, 8196, 8197, 8198, 8199, 8200, 8201,
    8202, 8232, 8233, 8239, 8287, 12288, 65279]

def isSpace (c : Char) : Bool := c.toNat ∈ spaceCodes

/-- `\d` -/
def isDigit (c : Char) : Bool := '0' ≤ c && c ≤ '9'

/-- `text.trim()` -/
def trim (t : Text) : Text := ((t.dropWhile isSpace).reverse.dropWhile isSpace).reverse

/-- `text.length`: the code units of sixteen bits. -/
def length (t : Text) : Nat := (t.map fun c => if c.toNat < 65536 then 1 else 2).sum

theorem ascii_of_isDigit {c : Char} (h : isDigit c) : c.isDigit := by
  simp only [isDigit, Bool.and_eq_true, decide_eq_true_eq] at h
  simp only [Char.isDigit, ge_iff_le, Bool.and_eq_true, decide_eq_true_eq]
  exact h

theorem not_isSpace_of_isDigit {c : Char} (h : isDigit c) : isSpace c = false := by
  have hc := ascii_of_isDigit h
  simp only [Char.isDigit, ge_iff_le, Bool.and_eq_true, decide_eq_true_eq] at hc
  obtain ⟨hlo, hhi⟩ := hc
  have hlo' : 48 ≤ c.toNat := hlo
  have hhi' : c.toNat ≤ 57 := hhi
  simp only [isSpace, spaceCodes, List.mem_cons, List.not_mem_nil, or_false,
    decide_eq_false_iff_not]
  omega

theorem mem_of_mem_trim {c : Char} {t : Text} (h : c ∈ trim t) : c ∈ t := by
  have hrest := List.mem_reverse.mp h
  have hmem := List.mem_reverse.mp ((List.dropWhile_sublist _).subset hrest)
  exact (List.dropWhile_sublist _).subset hmem

end Script

namespace Regex

open PyText

variable {γ : Type} {φ : Char → Char} {f f' : Pos γ → List (Pos γ)} {s : Pos γ}

/-- The pattern with its classes read through a renaming of characters. -/
def comap (φ : Char → Char) : Regex γ → Regex γ
  | eps => eps
  | cls p => cls fun c => p (φ c)
  | seq a b => seq (a.comap φ) (b.comap φ)
  | alt a b => alt (a.comap φ) (b.comap φ)
  | star r => star (r.comap φ)
  | lazy r => lazy (r.comap φ)
  | group g r => group g (r.comap φ)
  | ahead r => ahead (r.comap φ)
  | notAhead r => notAhead (r.comap φ)
  | behind p => behind fun c => p (φ c)
  | notBehind p => notBehind fun c => p (φ c)
  | textStart => textStart
  | textEnd => textEnd
  | lineStart => lineStart
  | lineEnd => lineEnd

def Pos.rename (φ : Char → Char) (s : Pos γ) : Pos γ :=
  ⟨s.before.map φ, s.after.map φ, s.caps.map fun x => (x.1, x.2.map φ)⟩

@[simp] theorem length_rename (s : Pos γ) : (s.rename φ).after.length = s.after.length := by
  simp [Pos.rename]

theorem since_rename (s t : Pos γ) : (s.rename φ).since (t.rename φ) = (s.since t).map φ := by
  simp [Pos.since, Pos.rename, List.map_take]

theorem iter_rename (hf : ∀ s, f (s.rename φ) = (f' s).map (Pos.rename φ)) (greedy : Bool) (n : Nat)
    (s : Pos γ) : iter f greedy n (s.rename φ) = (iter f' greedy n s).map (Pos.rename φ) := by
  induction n generalizing s with
  | zero => rfl
  | succ n ih =>
    have hmore : ((f (s.rename φ)).filter fun t =>
          t.after.length < (s.rename φ).after.length).flatMap (iter f greedy n) =
        (((f' s).filter fun t => t.after.length < s.after.length).flatMap
          (iter f' greedy n)).map (Pos.rename φ) := by
      rw [hf, List.filter_map, List.flatMap_map, List.map_flatMap]
      have hsame : ((fun t : Pos γ => decide (t.after.length < (s.rename φ).after.length)) ∘
          Pos.rename φ) = fun t => decide (t.after.length < s.after.length) := by
        funext t
        simp
      rw [hsame]
      exact congrArg (List.flatMap · _) (funext ih)
    rw [iter, iter, hmore]
    cases greedy <;> simp

/-- Reading the renamed text is reading the text with renamed classes. -/
theorem run_rename (hφ : ∀ c, φ c = '\n' ↔ c = '\n') (r : Regex γ) (s : Pos γ) :
    r.run (s.rename φ) = ((r.comap φ).run s).map (Pos.rename φ) := by
  have hbreak : ∀ t : Text, (t.map φ).head?.all (· == '\n') = t.head?.all (· == '\n') := by
    intro t
    cases t with
    | nil => rfl
    | cons c t =>
      have hc : (φ c == '\n') = (c == '\n') := by
        rw [Bool.eq_iff_iff, beq_iff_eq, beq_iff_eq, hφ]
      simpa using hc
  induction r generalizing s with
  | eps => rfl
  | cls p =>
    obtain ⟨b, t, k⟩ := s
    cases t with
    | nil => rfl
    | cons c t =>
      by_cases hp : p (φ c) <;> simp [run, comap, Pos.rename, hp]
  | seq a b iha ihb =>
    rw [run, comap, run, iha, List.flatMap_map, List.map_flatMap]
    exact congrArg (List.flatMap · _) (funext ihb)
  | alt a b iha ihb => rw [run, comap, run, iha, ihb, List.map_append]
  | star r ih =>
    rw [run, comap, run, length_rename]
    exact iter_rename ih true _ s
  | lazy r ih =>
    rw [run, comap, run, length_rename]
    exact iter_rename ih false _ s
  | group g r ih =>
    rw [run, comap, run, ih, List.map_map, List.map_map]
    refine List.map_congr_left fun t _ => ?_
    simp only [Function.comp_apply, Pos.capture, since_rename]
    rfl
  | ahead r ih =>
    rw [run, comap, run, ih, List.isEmpty_map]
    split <;> rfl
  | notAhead r ih =>
    rw [run, comap, run, ih, List.isEmpty_map]
    split <;> rfl
  | behind p =>
    have hsame : (s.rename φ).before.head?.any p = s.before.head?.any fun c => p (φ c) := by
      simp [Pos.rename, Option.any_map]
    rw [run, comap, run, hsame]
    split <;> rfl
  | notBehind p =>
    have hsame : (s.rename φ).before.head?.any p = s.before.head?.any fun c => p (φ c) := by
      simp [Pos.rename, Option.any_map]
    rw [run, comap, run, hsame]
    split <;> rfl
  | textStart =>
    have hsame : (s.rename φ).before.isEmpty = s.before.isEmpty := by simp [Pos.rename]
    rw [run, comap, run, hsame]
    split <;> rfl
  | textEnd =>
    have hsame : ((s.rename φ).after.isEmpty || (s.rename φ).after == ['\n']) =
        (s.after.isEmpty || s.after == ['\n']) := by
      rcases s with ⟨b, _ | ⟨c, _ | ⟨d, t⟩⟩, k⟩
      · rfl
      · have hc : (φ c == '\n') = (c == '\n') := by
          rw [Bool.eq_iff_iff, beq_iff_eq, beq_iff_eq, hφ]
        simpa [Pos.rename] using hφ c
      · simp [Pos.rename]
    rw [run, comap, run, hsame]
    split <;> rfl
  | lineStart =>
    rw [run, comap, run, Pos.rename, hbreak]
    split <;> rfl
  | lineEnd =>
    rw [run, comap, run, Pos.rename, hbreak]
    split <;> rfl

def Match.rename (φ : Char → Char) (m : Match γ) : Match γ :=
  ⟨m.text.map φ, m.caps.map fun x => (x.1, x.2.map φ)⟩

theorem matchStart_rename (hφ : ∀ c, φ c = '\n' ↔ c = '\n') (r : Regex γ) (t : Text) :
    r.matchStart (t.map φ) = ((r.comap φ).matchStart t).map (Match.rename φ) := by
  have hrun := run_rename hφ r ⟨[], t, []⟩
  have hstart : (⟨[], t, []⟩ : Pos γ).rename φ = ⟨[], t.map φ, []⟩ := rfl
  rw [hstart] at hrun
  simp only [matchStart, first, hrun, List.head?_map, Option.map_map]
  refine congrArg (Option.map · _) (funext fun q => ?_)
  simp only [Function.comp_apply, Match.rename, ← since_rename, hstart]
  rfl

theorem group_rename [DecidableEq γ] (m : Match γ) (g : γ) :
    (m.rename φ).group g = (m.group g).map (List.map φ) := by
  simp only [Match.group, Match.rename, List.find?_map, Option.map_map]
  rfl

end Regex

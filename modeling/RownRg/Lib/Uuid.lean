import RownRg.Lib.Text

/-! `uuid.UUID`: the spellings it reads and the one spelling it writes. -/

open PyText

variable {t raw : Text} {c : Char}

/-- A hexadecimal digit, as `str(UUID)` writes it. -/
def isLowerHex (c : Char) : Bool := "0123456789abcdef".toList.contains c

def isHex (c : Char) : Bool := isLowerHex c.toLower

structure Uuid where
  hex : Text
  length : hex.length = 32
  lower : hex.all isLowerHex = true
  deriving DecidableEq

namespace Uuid

variable {u v : Uuid}

/-- The five groups of the canonical spelling. -/
def hyphenate (h : Text) : Text :=
  h.take 8 ++ '-' :: ((h.drop 8).take 4 ++ '-' :: ((h.drop 12).take 4 ++ '-' ::
    ((h.drop 16).take 4 ++ '-' :: h.drop 20)))

/-- `str(UUID)`. -/
def str (u : Uuid) : Text := hyphenate u.hex

/-- `text.strip(chars)`. -/
def stripSet (p : Char → Bool) (t : Text) : Text :=
  ((t.dropWhile p).reverse.dropWhile p).reverse

/-- What is left of a spelling: braces, hyphens and the URN prefix are optional. -/
def bare (raw : Text) : Text :=
  (stripSet ("\x7b\x7d".toList.contains ·)
    (replaceAll "uuid:".toList [] (replaceAll "urn:".toList [] raw))).filter (· != '-')

def ofHex? (h : Text) : Option Uuid :=
  if hok : h.length = 32 ∧ h.all isLowerHex = true then some ⟨h, hok.1, hok.2⟩ else none

/-- `UUID(raw)`; `none` where it raises `ValueError`. -/
def parse (raw : Text) : Option Uuid := ofHex? ((bare raw).map Char.toLower)

theorem hex_injective (h : u.hex = v.hex) : u = v := by
  cases u
  cases v
  simpa using h

theorem ofHex?_hex (u : Uuid) : ofHex? u.hex = some u := by
  simp [ofHex?, u.length, u.lower]

theorem mem_hyphenate (h : c ∈ hyphenate t) : c = '-' ∨ c ∈ t := by
  have htake := fun n m (hc : c ∈ (t.drop n).take m) => List.mem_of_mem_drop (List.mem_of_mem_take hc)
  simp only [hyphenate, List.mem_append, List.mem_cons] at h
  rcases h with h | h | h | h | h | h | h | h | h
  · exact .inr (List.mem_of_mem_take h)
  · exact .inl h
  · exact .inr (htake _ _ h)
  · exact .inl h
  · exact .inr (htake _ _ h)
  · exact .inl h
  · exact .inr (htake _ _ h)
  · exact .inl h
  · exact .inr (List.mem_of_mem_drop h)

theorem filter_hyphenate (h : '-' ∉ t) : (hyphenate t).filter (· != '-') = t := by
  have hself : ∀ {s : Text}, (∀ d ∈ s, d ∈ t) → s.filter (· != '-') = s := by
    intro s hs
    refine List.filter_eq_self.mpr fun d hd => ?_
    exact bne_iff_ne.mpr fun he => h (he ▸ hs d hd)
  have hdrop : ∀ n m, (t.drop n).take m ++ t.drop (n + m) = t.drop n := by
    intro n m
    rw [← List.drop_drop, List.take_append_drop]
  simp only [hyphenate, List.filter_append, List.filter_cons, bne_self_eq_false,
    Bool.false_eq_true, if_false]
  rw [hself fun d hd => List.mem_of_mem_take hd,
    hself fun d hd => List.mem_of_mem_drop (List.mem_of_mem_take hd),
    hself fun d hd => List.mem_of_mem_drop (List.mem_of_mem_take hd),
    hself fun d hd => List.mem_of_mem_drop (List.mem_of_mem_take hd),
    hself fun d hd => List.mem_of_mem_drop hd]
  rw [hdrop 16 4, hdrop 12 4, hdrop 8 4, List.take_append_drop]

theorem mem_str (h : c ∈ u.str) : c = '-' ∨ isLowerHex c := by
  refine (mem_hyphenate h).imp id fun hc => ?_
  exact List.all_eq_true.mp u.lower c hc

theorem notMem_hex {d : Char} (hd : isLowerHex d = false) (u : Uuid) : d ∉ u.hex := by
  intro h
  simp [List.all_eq_true.mp u.lower d h] at hd

theorem notMem_str {d : Char} (hd : isLowerHex d = false) (hne : d ≠ '-') (u : Uuid) :
    d ∉ u.str := by
  intro h
  rcases mem_str h with h | h
  · exact hne h
  · simp [h] at hd

theorem stripSet_of_notMem {p : Char → Bool} (h : ∀ c ∈ t, p c = false) : stripSet p t = t := by
  have hdrop : ∀ {s : Text}, (∀ c ∈ s, p c = false) → s.dropWhile p = s := by
    intro s hs
    cases s with
    | nil => rfl
    | cons d s => simp [hs d (by simp)]
  unfold stripSet
  rw [hdrop h, hdrop (fun c hc => h c (List.mem_reverse.mp hc)), List.reverse_reverse]

theorem toLower_of_isLowerHex (h : isLowerHex c) : c.toLower = c := by
  have hall : "0123456789abcdef".toList.all (fun d => d.toLower == d) := by decide
  exact beq_iff_eq.mp (List.all_eq_true.mp hall c (by simpa [isLowerHex] using h))

/-- `UUID(str(u)) == u`. -/
theorem parse_str (u : Uuid) : parse u.str = some u := by
  have hurn : ':' ∉ u.str := notMem_str (by decide) (by decide) u
  have hbare : bare u.str = u.hex := by
    unfold bare
    rw [replaceAll_of_notMem (c := ':') (by decide) hurn,
      replaceAll_of_notMem (c := ':') (by decide) hurn, stripSet_of_notMem]
    · exact filter_hyphenate (notMem_hex (by decide) u)
    · intro c hc
      have hbraces : ∀ d ∈ "\x7b\x7d".toList, isLowerHex d = false ∧ d ≠ '-' := by
        simp
        decide
      by_contra hbrace
      obtain ⟨hhex, hne⟩ := hbraces c (by simpa [or_iff_not_imp_left] using hbrace)
      exact notMem_str hhex hne u hc
  have hlower : u.hex.map Char.toLower = u.hex := by
    refine (List.map_congr_left fun c hc => ?_).trans (List.map_id _)
    exact toLower_of_isLowerHex (List.all_eq_true.mp u.lower c hc)
  rw [parse, hbare, hlower, ofHex?_hex]

theorem str_injective (h : u.str = v.str) : u = v := by
  have hparse := parse_str u
  rw [h, parse_str v] at hparse
  exact (Option.some.inj hparse).symm

end Uuid

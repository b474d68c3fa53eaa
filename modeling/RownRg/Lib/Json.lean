import Mathlib.Data.List.Nodup
import RownRg.Lib.Text

/-! JSON values as Python reads them back, and what storing a value may change. -/

open PyText

inductive Json where
  | null
  | bool (b : Bool)
  | num (n : Int)
  | str (t : Text)
  | arr (xs : List Json)
  | obj (fields : List (Text × Json))

namespace Json

variable {x y : Json} {xs ys : List Json} {fs gs : List (Text × Json)} {k : Text} {t : Text}
  {ts : List Text}

def truthy : Json → Bool
  | null => false
  | bool b => b
  | num n => n != 0
  | str t => !t.isEmpty
  | arr xs => !xs.isEmpty
  | obj fs => !fs.isEmpty

/-- `x or default`. -/
def orElse (x default : Json) : Json := if x.truthy then x else default

/-- `item.get(key)` of a dictionary, `None` where the key is missing. -/
def get (fs : List (Text × Json)) (key : Text) : Json := (fs.lookup key).getD null

/-- `int(x)`; `none` where it raises. -/
def toInt? : Json → Option Int
  | num n => some n
  | bool b => some (if b then 1 else 0)
  | str t => PyText.toInt? t
  | _ => none

/-- What a loop over a value runs through; `none` where it raises `TypeError`. -/
def items? : Json → Option (List Json)
  | arr xs => some xs
  | str t => some (t.map fun c => str [c])
  | obj fs => some (fs.map fun f => str f.1)
  | _ => none

/-- `str(x)`, given the text of a value that is no text. -/
def toText (repr : Json → Text) : Json → Text
  | str t => t
  | x => repr x

def texts (ts : List Text) : Json := arr (ts.map str)

def ofNat? (n : Option Nat) : Json := n.elim null fun n => num n

mutual
/-- `x == y`: a truth value is a number, and the order of a dictionary's keys does not count. -/
def same : Json → Json → Bool
  | null, null => true
  | bool b, bool c => b == c
  | bool b, num n => n == if b then 1 else 0
  | num n, bool b => n == if b then 1 else 0
  | num n, num m => n == m
  | str t, str u => t == u
  | arr xs, arr ys => sameItems xs ys
  | obj fs, obj gs => fs.length == gs.length && sameFields fs gs
  | _, _ => false

def sameItems : List Json → List Json → Bool
  | [], [] => true
  | x :: xs, y :: ys => same x y && sameItems xs ys
  | _, _ => false

def sameFields : List (Text × Json) → List (Text × Json) → Bool
  | [], _ => true
  | (k, x) :: fs, gs =>
    (match gs.lookup k with
      | some y => same x y
      | none => false) && sameFields fs gs
end

/-- A value read back from a JSON column: the keys of a dictionary may come in another order. -/
inductive Stored : Json → Json → Prop
  | null : Stored null null
  | bool (b : Bool) : Stored (bool b) (bool b)
  | num (n : Int) : Stored (num n) (num n)
  | str (t : Text) : Stored (str t) (str t)
  | arr {xs ys : List Json} (h : List.Forall₂ Stored xs ys) : Stored (arr xs) (arr ys)
  | obj {fs gs hs : List (Text × Json)}
      (hkeys : fs.map Prod.fst = gs.map Prod.fst)
      (h : List.Forall₂ Stored (fs.map Prod.snd) (gs.map Prod.snd)) (hperm : gs.Perm hs) :
      Stored (obj fs) (obj hs)

theorem sizeOf_value {y : Json} (h : y ∈ fs.map Prod.snd) : sizeOf y < sizeOf (obj fs) := by
  obtain ⟨f, hf, rfl⟩ := List.mem_map.mp h
  have hlt := List.sizeOf_lt_of_mem hf
  cases f
  simp only [obj.sizeOf_spec, Prod.mk.sizeOf_spec] at hlt ⊢
  omega

theorem stored_refl (x : Json) : Stored x x := by
  induction hn : sizeOf x using Nat.strongRecOn generalizing x with
  | _ n ih =>
    cases x with
    | null => exact .null
    | bool b => exact .bool b
    | num n => exact .num n
    | str t => exact .str t
    | arr xs =>
      refine .arr (List.forall₂_same.mpr fun y hy => ih _ ?_ y rfl)
      have hlt := List.sizeOf_lt_of_mem hy
      simp only [arr.sizeOf_spec] at hn
      omega
    | obj fs =>
      refine .obj rfl (List.forall₂_same.mpr fun y hy => ih _ ?_ y rfl) (List.Perm.refl fs)
      rw [← hn]
      exact sizeOf_value hy

@[simp] theorem stored_str : Stored (str t) y ↔ y = str t :=
  ⟨fun h => by cases h; rfl, fun h => h ▸ .str t⟩

@[simp] theorem stored_num {n : Int} : Stored (num n) y ↔ y = num n :=
  ⟨fun h => by cases h; rfl, fun h => h ▸ .num n⟩

theorem stored_strs : List.Forall₂ Stored (ts.map str) ys ↔ ys = ts.map str := by
  induction ts generalizing ys with
  | nil => simp
  | cons t ts ih =>
    cases ys with
    | nil => simp
    | cons y ys => simp [ih]

@[simp] theorem stored_texts : Stored (texts ts) y ↔ y = texts ts := by
  constructor
  · intro h
    cases h with
    | arr h => rw [stored_strs.1 h]; rfl
  · rintro rfl
    exact .arr (stored_strs.2 rfl)

/-- A dictionary has one entry for a key. -/
theorem lookup_eq_some (hnodup : (fs.map Prod.fst).Nodup) :
    fs.lookup k = some x ↔ (k, x) ∈ fs := by
  induction fs with
  | nil => simp
  | cons f fs ih =>
    obtain ⟨hf, htail⟩ := List.nodup_cons.mp hnodup
    by_cases hk : k = f.1
    · subst hk
      rw [List.lookup_cons_self, List.mem_cons]
      constructor
      · rintro ⟨⟩
        exact .inl rfl
      · rintro (he | hmem)
        · exact congrArg (fun g => some g.2) he.symm
        · exact absurd (List.mem_map_of_mem hmem) hf
    · rw [List.lookup_cons, beq_false_of_ne hk, List.mem_cons]
      simp only [ih htail]
      exact ⟨.inr, fun h => h.resolve_left fun he => hk (congrArg Prod.fst he)⟩

theorem lookup_stored (hkeys : fs.map Prod.fst = gs.map Prod.fst)
    (h : List.Forall₂ Stored (fs.map Prod.snd) (gs.map Prod.snd)) (hk : fs.lookup k = some x) :
    ∃ z, gs.lookup k = some z ∧ Stored x z := by
  induction fs generalizing gs with
  | nil => simp at hk
  | cons f fs ih =>
    cases gs with
    | nil => simp at hkeys
    | cons g gs =>
      obtain ⟨hfg, hkeys⟩ := List.cons.inj hkeys
      obtain ⟨hval, h⟩ := List.forall₂_cons.mp h
      by_cases he : k = f.1
      · subst he
        rw [List.lookup_cons_self] at hk
        obtain rfl := Option.some.inj hk
        exact ⟨g.2, by rw [hfg]; exact List.lookup_cons_self, hval⟩
      · have hne : (k == g.1) = false := beq_false_of_ne (hfg ▸ he)
        rw [List.lookup_cons, beq_false_of_ne he] at hk
        obtain ⟨z, hz, hxz⟩ := ih hkeys h hk
        exact ⟨z, by rw [List.lookup_cons, hne]; exact hz, hxz⟩

/-- Reading a key of a stored dictionary. -/
theorem get_stored (hnodup : (fs.map Prod.fst).Nodup) (h : Stored (obj fs) y) :
    ∃ gs, y = obj gs ∧ ∀ k x, fs.lookup k = some x → ∃ z, gs.lookup k = some z ∧ Stored x z := by
  cases h with
  | @obj _ gs hs hkeys h hperm =>
    refine ⟨hs, rfl, fun k x hk => ?_⟩
    obtain ⟨z, hz, hxz⟩ := lookup_stored hkeys h hk
    have hgs : (gs.map Prod.fst).Nodup := hkeys ▸ hnodup
    have hhs : (hs.map Prod.fst).Nodup := (hperm.map Prod.fst).nodup_iff.mp hgs
    exact ⟨z, (lookup_eq_some hhs).mpr (hperm.mem_iff.mp ((lookup_eq_some hgs).mp hz)), hxz⟩

/-- A key that a dictionary lacks is not there after storing either. -/
theorem lookup_stored_none (h : Stored (obj fs) y) (hk : fs.lookup k = none) :
    ∃ gs, y = obj gs ∧ gs.lookup k = none := by
  have hnone : ∀ {gs : List (Text × Json)}, gs.lookup k = none ↔ k ∉ gs.map Prod.fst := by
    intro gs
    rw [List.lookup_eq_none_iff]
    simp only [bne_iff_ne, List.mem_map, not_exists, not_and]
    exact forall₂_congr fun _ _ => ne_comm
  cases h with
  | @obj _ gs hs hkeys h hperm =>
    refine ⟨hs, rfl, hnone.mpr ?_⟩
    rw [← (hperm.map Prod.fst).mem_iff, ← hkeys]
    exact hnone.mp hk

@[simp] theorem str_orElse (t : Text) : (str t).orElse (str []) = str t := by
  cases t <;> rfl

@[simp] theorem texts_orElse (ts : List Text) : (texts ts).orElse (arr []) = texts ts := by
  cases ts <;> rfl

end Json

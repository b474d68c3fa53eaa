import RownRg.Sections.Renumber
import RownRg.Lib.Dedup

/-! The chunks a generated draft cites, and what assembly makes of its numbers. -/

open PyText RownRg.Citations RownRg.Sections

namespace RownRg.Generation

variable {ι : Type}

/-- The chunks behind the numbers of the body, numbers outside the pool ignored. -/
def extractCitedIds [DecidableEq ι] (content : Text) (chunks : List (RetrievedChunk ι)) : List ι :=
  ((numbersInOrder content).filterMap fun n =>
    if 1 ≤ n then chunks[n - 1]?.map (·.chunkId) else none).eraseDups

/-- What a draft is written from: citable chunks with pairwise distinct ids. -/
structure CitablePool (ι : Type) where
  chunks : List (RetrievedChunk ι)
  distinct : (chunks.map (·.chunkId)).Nodup

namespace CitablePool

variable {pool : CitablePool ι} {n m : Nat} {c : ι}

/-- The chunk the writer was shown under a number. -/
def chunk? (pool : CitablePool ι) (n : Nat) : Option ι :=
  if 1 ≤ n then pool.chunks[n - 1]?.map (·.chunkId) else none

def InRange (pool : CitablePool ι) (n : Nat) : Prop := 1 ≤ n ∧ n ≤ pool.chunks.length

instance : Decidable (pool.InRange n) := inferInstanceAs (Decidable (_ ∧ _))

theorem chunk?_isSome : (pool.chunk? n).isSome ↔ pool.InRange n := by
  unfold chunk? InRange
  split
  · rename_i h
    simp [h]
    omega
  · rename_i h
    simp [h]

theorem chunk?_injective (hn : pool.chunk? n = some c) (hm : pool.chunk? m = some c) :
    n = m := by
  obtain ⟨hn₁, hn⟩ : 1 ≤ n ∧ pool.chunks[n - 1]?.map (·.chunkId) = some c := by
    simpa [chunk?] using hn
  obtain ⟨hm₁, hm⟩ : 1 ≤ m ∧ pool.chunks[m - 1]?.map (·.chunkId) = some c := by
    simpa [chunk?] using hm
  rw [← List.getElem?_map] at hn hm
  have hlt := (List.getElem?_eq_some_iff.mp hn).1
  have hidx := (List.getElem?_inj hlt pool.distinct).mp (hn.trans hm.symm)
  omega

variable [DecidableEq ι]

theorem extractCitedIds_eq (pool : CitablePool ι) (body : Text) :
    extractCitedIds body pool.chunks = (numbersInOrder body).filterMap pool.chunk? := by
  refine FirstSeen.of_nodup ?_
  refine List.Nodup.filterMap (fun n m c hn hm => @chunk?_injective _ pool n m c hn hm) ?_
  exact nodup_numbersInOrder body

/-- The numbers of the pool appear before all others. -/
def InRangeFirst (pool : CitablePool ι) (body : Text) : Prop :=
  (numbersInOrder body).Pairwise fun a b => pool.InRange b → pool.InRange a

/-- Assembly sends every number of the pool to the source of its chunk, and no other number
anywhere. -/
def Faithful (pool : CitablePool ι) (body : Text) : Prop :=
  ∀ chunkToGlobal : ι → Option Nat,
    let mapping := localToGlobal body (extractCitedIds body pool.chunks) chunkToGlobal
    (∀ n ∈ numbersInOrder body, pool.InRange n → ∀ c g, pool.chunk? n = some c →
      chunkToGlobal c = some g → mapping.lookup n = some g) ∧
    ∀ n, ¬ pool.InRange n → mapping.lookup n = none

/-- The stored chunks are read back right if and only if no number outside the pool comes before
one of the pool. -/
theorem faithful_iff (pool : CitablePool ι) (body : Text) :
    Faithful pool body ↔ InRangeFirst pool body := by
  have hiff := Pairing.zip_filterMap_iff (f := pool.chunk?) (nodup_numbersInOrder body)
  simp only [chunk?_isSome] at hiff
  unfold InRangeFirst
  rw [← hiff]
  unfold Faithful
  simp only [lookup_localToGlobal, extractCitedIds_eq]
  constructor
  · intro h n hn
    by_cases hr : pool.InRange n
    · obtain ⟨c, hc⟩ := Option.isSome_iff_exists.mp (chunk?_isSome.2 hr)
      have hmap := (h fun x => if x = c then some 1 else none).1 n hn hr c 1 hc (by simp)
      obtain ⟨x, hx, hxc⟩ := Option.bind_eq_some_iff.mp hmap
      split at hxc
      · simp_all
      · simp at hxc
    · have hmap := (h fun _ => some 1).2 n hr
      have hnone : pool.chunk? n = none := by simpa [← chunk?_isSome] using hr
      rw [hnone, Option.eq_none_iff_forall_ne_some]
      simpa using hmap
  · intro h chunkToGlobal
    refine ⟨fun n hn _ c g hc hg => by simp [h n hn, hc, hg], fun n hn => ?_⟩
    by_cases hmem : n ∈ numbersInOrder body
    · have hnone : pool.chunk? n = none := by
        simpa [← chunk?_isSome] using hn
      simp [h n hmem, hnone]
    · simp [Pairing.lookup_zip_notMem hmem]

/-- A number outside the pool takes the place of the number behind it. -/
theorem not_faithful_out_of_range_first :
    ¬ ∀ (pool : CitablePool Nat) (body : Text), Faithful pool body := by
  intro h
  have hmap := (h ⟨[⟨7, [], false⟩], by decide⟩ "[9] [1]".toList fun _ => some 1).2 9 (by decide)
  revert hmap
  decide

end CitablePool
end RownRg.Generation

import RownRg.Core.Carried
import RownRg.Core.State
import RownRg.Lib.Pairing
import RownRg.Lib.Runs

/-! Stored sections follow the numbering of the adopted sources. -/

open PyText RownRg.Citations

namespace RownRg.Sections

/-- A source of the project; the list of a project's sources is in the order of creation. -/
structure ProjectSource (σ : Type) where
  id : σ
  isIncluded : Bool
  deriving DecidableEq

variable {ι σ : Type} [DecidableEq ι] [DecidableEq σ]

/-- The number of a source: its place among those adopted, from one. -/
def sourceOrder (sources : List (ProjectSource σ)) (sid : σ) : Option Nat :=
  (((sources.filter (·.isIncluded)).map (·.id)).zipIdx 1).lookup sid

/-- `chunkSource` is the source of a chunk, if the chunk is stored and has one. -/
def chunkToGlobal (chunkSource : ι → Option σ) (sources : List (ProjectSource σ)) (c : ι) :
    Option Nat := (chunkSource c).bind (sourceOrder sources)

/-- The paragraphs that have lost marks, if the paragraphs of the two texts match up. -/
def lostEvidenceParagraphs (before after : Text) : List LostParagraph :=
  let old := splitText "\n\n".toList before
  let new := splitText "\n\n".toList after
  if old.length ≠ new.length then []
  else (old.zip new).filterMap fun x =>
    let lost := (numbersInOrder x.1).length - (numbersInOrder x.2).length
    if 0 < lost && !(strip x.2).isEmpty then some ⟨strip x.2, lost⟩ else none

/-- The number that an entry gets: that of its first chunk whose source is adopted. -/
def newNumber (g : ι → Option Nat) (cids : List ι) : Option Nat := cids.findSome? g

/-- `new_cmap[new_g] = list(dict.fromkeys(cids + new_cmap.get(new_g, [])))` -/
def putChunks (out : List (Nat × List ι)) (n : Nat) (cids : List ι) : List (Nat × List ι) :=
  let chunks := (cids ++ (out.lookup n).getD []).eraseDups
  if out.any fun x => x.1 = n then out.map fun x => if x.1 = n then (n, chunks) else x
  else out ++ [(n, chunks)]

def oldToNew (g : ι → Option Nat) (cmap : List (Nat × List ι)) : List (Nat × Nat) :=
  cmap.filterMap fun x => (newNumber g x.2).map fun n => (x.1, n)

def rekeyed (g : ι → Option Nat) (cmap : List (Nat × List ι)) : List (Nat × List ι) :=
  cmap.foldl (fun out x =>
    match newNumber g x.2 with
    | none => out
    | some n => putChunks out n x.2) []

/-- One section, and whether it was changed. -/
def rebaseSection (g : ι → Option Nat) (row : Section ι) : Section ι × Bool :=
  let cmap := row.sectionMeta.citationChunks
  if cmap.isEmpty then (row, false)
  else
    let moved := oldToNew g cmap
    if moved = cmap.map fun x => (x.1, x.1) then (row, false)
    else
      let content := renumber row.content fun n => moved.lookup n
      if content = row.content then (row, false)
      else
        let prev := row.sectionMeta.evidenceLost
        let lost := (lostEvidenceParagraphs row.content content).filter fun p =>
          !(prev.map (·.text)).contains p.text
        ({ row with
            content
            sectionMeta := { row.sectionMeta with
              citationChunks := rekeyed g cmap
              evidenceLost := prev ++ lost } }, true)

/-- Follows the present numbering; the second part is how many sections were changed. -/
def rebaseGlobalNumbers (chunkSource : ι → Option σ) (sources : List (ProjectSource σ))
    (rows : List (Section ι)) : List (Section ι) × Nat :=
  if (rows.flatMap fun r => r.sectionMeta.citationChunks.flatMap (·.2)).isEmpty then (rows, 0)
  else
    let out := rows.map (rebaseSection (chunkToGlobal chunkSource sources))
    (out.map (·.1), (out.filter (·.2)).length)

/-! What the numbers of a section stand for. -/

variable {src : ι → Option σ} {g : ι → Option Nat} {F : Nat → Option Nat}
  {row row₀ : Section ι} {cmap : List (Nat × List ι)} {cids : List ι} {n m : Nat} {s s' : σ}
  {sources : List (ProjectSource σ)}

/-- Every number of the text has an entry; an entry stands for the chunks of one source, and each
source has one entry at most. -/
structure Keyed (src : ι → Option σ) (row : Section ι) : Prop where
  keys : (row.sectionMeta.citationChunks.map Prod.fst).Nodup
  source : ∀ x ∈ row.sectionMeta.citationChunks, ∃ s, x.2 ≠ [] ∧ ∀ c ∈ x.2, src c = some s
  apart : ∀ x ∈ row.sectionMeta.citationChunks, ∀ y ∈ row.sectionMeta.citationChunks,
    ∀ c ∈ x.2, ∀ d ∈ y.2, src c = src d → x.1 = y.1
  known : ∀ n ∈ numbersInOrder row.content, n ∈ row.sectionMeta.citationChunks.map Prod.fst

/-- What becomes of the number of a section. -/
def moved (g : ι → Option Nat) (row : Section ι) (n : Nat) : Option Nat :=
  (oldToNew g row.sectionMeta.citationChunks).lookup n

/-- Every number of the text is the number of the source of its chunks. -/
def NumbersTrue (g : ι → Option Nat) (row : Section ι) : Prop :=
  ∀ n ∈ numbersInOrder row.content, ∃ cids, row.sectionMeta.citationChunks.lookup n = some cids ∧
    cids ≠ [] ∧ ∀ c ∈ cids, g c = some n

/-- The chunks behind a number, each once. -/
def chunksBehind (row : Section ι) (n : Nat) : Option (List ι) :=
  (row.sectionMeta.citationChunks.lookup n).map List.eraseDups

/-- No two sources have the same number. -/
theorem sourceOrder_injective (hs : sourceOrder sources s = some n)
    (hs' : sourceOrder sources s' = some n) : s = s' := by
  obtain ⟨l₁, l₂, hl, -⟩ := List.lookup_eq_some_iff.mp hs
  obtain ⟨l₃, l₄, hl', -⟩ := List.lookup_eq_some_iff.mp hs'
  have hmem : (s, n) ∈ ((sources.filter (·.isIncluded)).map (·.id)).zipIdx 1 := by simp [hl]
  have hmem' : (s', n) ∈ ((sources.filter (·.isIncluded)).map (·.id)).zipIdx 1 := by simp [hl']
  have hget := (List.mem_zipIdx_iff_le_and_getElem?_sub.mp hmem).2
  have hget' := (List.mem_zipIdx_iff_le_and_getElem?_sub.mp hmem').2
  exact Option.some.inj (hget.symm.trans hget')

omit [DecidableEq ι] in
theorem chunkToGlobal_eq {c : ι} (h : src c = some s) :
    chunkToGlobal src sources c = sourceOrder sources s := by simp [chunkToGlobal, h]

omit [DecidableEq ι] in
theorem newNumber_eq (hne : cids ≠ []) (h : ∀ c ∈ cids, src c = some s) :
    newNumber (chunkToGlobal src sources) cids = sourceOrder sources s := by
  obtain ⟨c, cs, rfl⟩ := List.exists_cons_of_ne_nil hne
  cases ho : sourceOrder sources s with
  | some n => simp [newNumber, chunkToGlobal_eq (h c (by simp)), ho]
  | none =>
    rw [newNumber, List.findSome?_eq_none_iff]
    intro d hd
    rw [chunkToGlobal_eq (h d hd), ho]

/-! The numbers of a section before and after. -/

omit [DecidableEq ι] in
theorem lookup_oldToNew (hkeys : (cmap.map Prod.fst).Nodup) :
    (oldToNew g cmap).lookup n = (cmap.lookup n).bind (newNumber g) := by
  have hzip : (cmap.map Prod.fst).zip (cmap.map Prod.snd) = cmap := by
    simpa [List.unzip_eq_map] using List.zip_unzip cmap
  have h := Pairing.lookup_filterMap_zip (a := n) (h := newNumber g) (cmap.map Prod.snd) hkeys
  rwa [hzip] at h

/-- With distinct new numbers no two entries are merged. -/
theorem foldl_putChunks {out : List (Nat × List ι)}
    (hnew : ((oldToNew g cmap).map Prod.snd).Nodup)
    (hout : ∀ m ∈ (oldToNew g cmap).map Prod.snd, m ∉ out.map Prod.fst) :
    cmap.foldl (fun out x =>
        match newNumber g x.2 with
        | none => out
        | some n => putChunks out n x.2) out =
      out ++ cmap.filterMap fun x => (newNumber g x.2).map fun m => (m, x.2.eraseDups) := by
  induction cmap generalizing out with
  | nil => simp
  | cons x cmap ih =>
    rw [List.foldl_cons]
    cases hx : newNumber g x.2 with
    | none =>
      rw [oldToNew, List.filterMap_cons_none (by simp [hx])] at hnew hout
      rw [List.filterMap_cons_none (by simp [hx])]
      exact ih hnew hout
    | some m =>
      have hcons : oldToNew g (x :: cmap) = (x.1, m) :: oldToNew g cmap := by
        simp [oldToNew, hx]
      rw [hcons, List.map_cons] at hnew hout
      obtain ⟨hm, hnew⟩ := List.nodup_cons.mp hnew
      obtain ⟨hmout, hout⟩ := List.forall_mem_cons.mp hout
      have hany : (out.any fun x => x.1 = m) = false := by
        rw [List.any_eq_false]
        intro y hy hym
        exact hmout (List.mem_map.mpr ⟨y, hy, of_decide_eq_true hym⟩)
      have hlookup : out.lookup m = none := by
        rw [← Option.not_isSome_iff_eq_none, Pairing.lookup_isSome]
        exact hmout
      have hput : putChunks out m x.2 = out ++ [(m, x.2.eraseDups)] := by
        simp [putChunks, hany, hlookup]
      have hdisjoint : ∀ k ∈ (oldToNew g cmap).map Prod.snd,
          k ∉ (out ++ [(m, x.2.eraseDups)]).map Prod.fst := by
        intro k hk
        have hne : k ≠ m := fun he => hm (he ▸ hk)
        simpa [hne] using hout k hk
      simp only [hput]
      rw [ih hnew hdisjoint]
      simp [hx]

theorem rekeyed_eq (hnew : ((oldToNew g cmap).map Prod.snd).Nodup) :
    rekeyed g cmap =
      cmap.filterMap fun x => (newNumber g x.2).map fun m => (m, x.2.eraseDups) := by
  exact foldl_putChunks hnew (by simp)

theorem keys_rekeyed (hnew : ((oldToNew g cmap).map Prod.snd).Nodup) :
    (rekeyed g cmap).map Prod.fst = (oldToNew g cmap).map Prod.snd := by
  rw [rekeyed_eq hnew, oldToNew, List.map_filterMap, List.map_filterMap]
  refine List.filterMap_congr fun x _ => ?_
  cases newNumber g x.2 <;> rfl

/-- The chunks of an entry move with it to its new number. -/
theorem lookup_rekeyed (hkeys : (cmap.map Prod.fst).Nodup)
    (hnew : ((oldToNew g cmap).map Prod.snd).Nodup) (hn : cmap.lookup n = some cids)
    (hm : newNumber g cids = some m) : (rekeyed g cmap).lookup m = some cids.eraseDups := by
  rw [Pairing.lookup_eq_some (keys_rekeyed hnew ▸ hnew), rekeyed_eq hnew]
  exact List.mem_filterMap.mpr ⟨(n, cids), (Pairing.lookup_eq_some hkeys).mp hn, by simp [hm]⟩

omit [DecidableEq ι] in
theorem nodup_newNumbers (h : Keyed src row) :
    ((oldToNew (chunkToGlobal src sources) row.sectionMeta.citationChunks).map Prod.snd).Nodup := by
  have hpairs := List.pairwise_map.mp h.keys
  rw [oldToNew, List.nodup_iff_pairwise_ne, List.pairwise_map, List.pairwise_filterMap]
  refine hpairs.imp_of_mem fun {x y} hx hy hne a ha b hb hab => ?_
  obtain ⟨s, hxne, hxs⟩ := h.source x hx
  obtain ⟨s', hyne, hys⟩ := h.source y hy
  rw [Option.map_eq_some_iff] at ha hb
  obtain ⟨m, hm, rfl⟩ := ha
  obtain ⟨m', hm', rfl⟩ := hb
  rw [newNumber_eq hxne hxs] at hm
  rw [newNumber_eq hyne hys] at hm'
  obtain rfl : m = m' := hab
  obtain rfl := sourceOrder_injective hm hm'
  obtain ⟨c, hc⟩ := List.exists_mem_of_ne_nil _ hxne
  obtain ⟨d, hd⟩ := List.exists_mem_of_ne_nil _ hyne
  exact hne (h.apart x hx y hy c hc d hd ((hxs c hc).trans (hys d hd).symm))

/-- What a section may become: it stays, or it is renumbered with its table. -/
theorem rebaseSection_cases (g : ι → Option Nat) (row : Section ι) :
    (rebaseSection g row = (row, false) ∧
      (row.sectionMeta.citationChunks = [] ∨
        oldToNew g row.sectionMeta.citationChunks =
          row.sectionMeta.citationChunks.map (fun x => (x.1, x.1)) ∨
        renumber row.content (moved g row) =
          row.content)) ∨
    ((rebaseSection g row).2 = true ∧
      (rebaseSection g row).1.content =
        renumber row.content (moved g row) ∧
      (rebaseSection g row).1.sectionMeta.citationChunks =
        rekeyed g row.sectionMeta.citationChunks) := by
  unfold rebaseSection
  simp only
  split
  · exact .inl ⟨rfl, .inl (List.isEmpty_iff.mp ‹_›)⟩
  · split
    · exact .inl ⟨rfl, .inr (.inl ‹_›)⟩
    · split
      · exact .inl ⟨rfl, .inr (.inr ‹_›)⟩
      · exact .inr ⟨rfl, rfl, rfl⟩

/-- The marks of a section carried over, each number with the chunks behind it. -/
structure Follows (F : Nat → Option Nat) (row row' : Section ι) : Prop where
  marks : markLists row'.content = (markLists row.content).filterMap (carried F)
  chunks : ∀ n ∈ numbersInOrder row.content, ∀ m, F n = some m →
    chunksBehind row' m = chunksBehind row n

omit [DecidableEq ι] in
/-- The entry of a number, and what becomes of the number. -/
theorem Keyed.entry (h : Keyed src row) (hn : n ∈ row.sectionMeta.citationChunks.map Prod.fst) :
    ∃ cids s, row.sectionMeta.citationChunks.lookup n = some cids ∧ cids ≠ [] ∧
      (∀ c ∈ cids, src c = some s) ∧
      moved (chunkToGlobal src sources) row n =
        sourceOrder sources s := by
  obtain ⟨cids, hcids⟩ := Option.isSome_iff_exists.mp (Pairing.lookup_isSome.mpr hn)
  obtain ⟨s, hne, hs⟩ := h.source _ ((Pairing.lookup_eq_some h.keys).mp hcids)
  refine ⟨cids, s, hcids, hne, hs, ?_⟩
  rw [moved, lookup_oldToNew h.keys, hcids, Option.bind_some, newNumber_eq hne hs]

theorem Keyed.follows_self (h : ∀ n ∈ numbersInOrder row.content, F n = some n) :
    Follows F row row := by
  refine ⟨(markLists_id h).symm, fun n hn m hm => ?_⟩
  obtain rfl := Option.some.inj ((h n hn).symm.trans hm)
  rfl

omit [DecidableEq ι] in
theorem Keyed.numbersTrue_self (h : Keyed src row)
    (hid : ∀ n ∈ numbersInOrder row.content,
      moved (chunkToGlobal src sources) row n = some n) :
    NumbersTrue (chunkToGlobal src sources) row := by
  intro n hn
  obtain ⟨cids, s, hcids, hne, hs, hnew⟩ := h.entry (h.known n hn)
  refine ⟨cids, hcids, hne, fun c hc => ?_⟩
  rw [chunkToGlobal_eq (hs c hc), ← hnew, hid n hn]

omit [DecidableEq ι] [DecidableEq σ] in
/-- A section that stays keeps every number of its text. -/
theorem Keyed.stays (h : Keyed src row)
    (hsafe : SeamSafe (moved g row) row.content)
    (hstay : row.sectionMeta.citationChunks = [] ∨
      oldToNew g row.sectionMeta.citationChunks =
        row.sectionMeta.citationChunks.map (fun x => (x.1, x.1)) ∨
      renumber row.content (moved g row) =
        row.content) :
    ∀ n ∈ numbersInOrder row.content,
      moved g row n = some n := by
  intro n hn
  have hkey := h.known n hn
  rcases hstay with hnil | hid | htext
  · simp [hnil] at hkey
  · have hnodup : ((row.sectionMeta.citationChunks.map fun x => (x.1, x.1)).map Prod.fst).Nodup := by
      simpa [Function.comp_def] using h.keys
    rw [moved, hid, Pairing.lookup_eq_some hnodup]
    obtain ⟨x, hx, rfl⟩ := List.mem_map.mp hkey
    exact List.mem_map.mpr ⟨x, hx, rfl⟩
  · have hmarks := markLists_renumber hsafe
    rw [htext] at hmarks
    exact id_of_markLists hmarks.symm n hn

/-- The table of a renumbered section fits its text. -/
theorem Keyed.renumbered (h : Keyed src row)
    (hsafe : SeamSafe (moved (chunkToGlobal src sources) row) row.content)
    (htext : row₀.content = renumber row.content (moved (chunkToGlobal src sources) row))
    (htable : row₀.sectionMeta.citationChunks =
      rekeyed (chunkToGlobal src sources) row.sectionMeta.citationChunks) :
    Follows (moved (chunkToGlobal src sources) row) row row₀ ∧
      Keyed src row₀ ∧ NumbersTrue (chunkToGlobal src sources) row₀ := by
  have hnew : ((oldToNew (chunkToGlobal src sources)
      row.sectionMeta.citationChunks).map Prod.snd).Nodup := nodup_newNumbers h
  have hmarks := markLists_renumber hsafe
  rw [← htext] at hmarks
  have hlookup : ∀ n cids s, row.sectionMeta.citationChunks.lookup n = some cids → cids ≠ [] →
      (∀ c ∈ cids, src c = some s) → ∀ m, sourceOrder sources s = some m →
      row₀.sectionMeta.citationChunks.lookup m = some cids.eraseDups := by
    intro n cids s hcids hne hs m hm
    rw [htable]
    exact lookup_rekeyed h.keys hnew hcids ((newNumber_eq hne hs).trans hm)
  have hfrom : ∀ m ∈ numbersInOrder row₀.content, ∃ n ∈ numbersInOrder row.content,
      moved (chunkToGlobal src sources) row n = some m := by
    intro m hm
    obtain ⟨ns', hns', hm⟩ := mem_markLists.1 hm
    rw [hmarks] at hns'
    obtain ⟨ns, hns, hcarried⟩ := List.mem_filterMap.mp hns'
    obtain ⟨n, hn, hnm⟩ := (mem_carried hcarried).mp hm
    exact ⟨n, mem_markLists.2 ⟨ns, hns, hn⟩, hnm⟩
  have hentries : ∀ x ∈ row₀.sectionMeta.citationChunks, ∃ y ∈ row.sectionMeta.citationChunks,
      newNumber (chunkToGlobal src sources) y.2 = some x.1 ∧ x.2 = y.2.eraseDups := by
    intro x hx
    rw [htable, rekeyed_eq hnew] at hx
    obtain ⟨y, hy, hxy⟩ := List.mem_filterMap.mp hx
    obtain ⟨m, hm, rfl⟩ := Option.map_eq_some_iff.mp hxy
    exact ⟨y, hy, hm, rfl⟩
  have htrue : NumbersTrue (chunkToGlobal src sources) row₀ := by
    intro m hm
    obtain ⟨n, hn, hnm⟩ := hfrom m hm
    obtain ⟨cids, s, hcids, hne, hs, hnew⟩ := h.entry (h.known n hn)
    rw [hnew] at hnm
    refine ⟨cids.eraseDups, hlookup n cids s hcids hne hs m hnm, mt FirstSeen.eq_nil hne, ?_⟩
    intro c hc
    rw [chunkToGlobal_eq (hs c (List.mem_eraseDups.mp hc)), hnm]
  refine ⟨⟨hmarks, ?_⟩, ⟨?_, ?_, ?_, ?_⟩, htrue⟩
  · intro n hn m hm
    obtain ⟨cids, s, hcids, hne, hs, hnew⟩ := h.entry (h.known n hn)
    rw [hnew] at hm
    simp [chunksBehind, hlookup n cids s hcids hne hs m hm, hcids, FirstSeen.idem]
  · rw [htable, keys_rekeyed hnew]
    exact hnew
  · intro x hx
    obtain ⟨y, hy, -, hxy⟩ := hentries x hx
    obtain ⟨s, hne, hs⟩ := h.source y hy
    refine ⟨s, hxy ▸ mt FirstSeen.eq_nil hne, fun c hc => hs c ?_⟩
    rwa [hxy, List.mem_eraseDups] at hc
  · intro x hx x' hx' c hc d hd hcd
    obtain ⟨y, hy, hm, hxy⟩ := hentries x hx
    obtain ⟨y', hy', hm', hxy'⟩ := hentries x' hx'
    rw [hxy, List.mem_eraseDups] at hc
    rw [hxy', List.mem_eraseDups] at hd
    have hsame := List.inj_on_of_nodup_map h.keys hy hy' (h.apart y hy y' hy' c hc d hd hcd)
    rw [hsame] at hm
    exact Option.some.inj (hm.symm.trans hm')
  · intro m hm
    obtain ⟨cids, hcids, -, -⟩ := htrue m hm
    exact Pairing.lookup_isSome.mp (by simp [hcids])

/-- One section under the present numbering. -/
theorem rebaseSection_spec (h : Keyed src row)
    (hsafe : SeamSafe (moved (chunkToGlobal src sources) row) row.content) :
    Follows (moved (chunkToGlobal src sources) row) row
        (rebaseSection (chunkToGlobal src sources) row).1 ∧
      Keyed src (rebaseSection (chunkToGlobal src sources) row).1 ∧
      NumbersTrue (chunkToGlobal src sources) (rebaseSection (chunkToGlobal src sources) row).1 := by
  rcases rebaseSection_cases (chunkToGlobal src sources) row with
    ⟨hstays, hwhy⟩ | ⟨-, htext, htable⟩
  · have hid := h.stays hsafe hwhy
    rw [hstays]
    exact ⟨Keyed.follows_self hid, h, h.numbersTrue_self hid⟩
  · exact h.renumbered hsafe htext htable

/-- A second pass finds nothing to change. -/
theorem rebaseSection_again (h : Keyed src row) :
    rebaseSection (chunkToGlobal src sources) (rebaseSection (chunkToGlobal src sources) row).1 =
      ((rebaseSection (chunkToGlobal src sources) row).1, false) := by
  rcases rebaseSection_cases (chunkToGlobal src sources) row with ⟨hstays, -⟩ | ⟨-, -, htable⟩
  · rw [hstays, hstays]
  · have hself : oldToNew (chunkToGlobal src sources)
        (rekeyed (chunkToGlobal src sources) row.sectionMeta.citationChunks) =
        (rekeyed (chunkToGlobal src sources) row.sectionMeta.citationChunks).map
          fun x => (x.1, x.1) := by
      rw [rekeyed_eq (nodup_newNumbers h), oldToNew, List.filterMap_filterMap, List.map_filterMap]
      refine List.filterMap_congr fun x hx => ?_
      obtain ⟨s, hne, hs⟩ := h.source x hx
      have hdedup : newNumber (chunkToGlobal src sources) x.2.eraseDups =
          sourceOrder sources s :=
        newNumber_eq (mt FirstSeen.eq_nil hne) fun c hc => hs c (List.mem_eraseDups.mp hc)
      rw [newNumber_eq hne hs]
      cases ho : sourceOrder sources s <;> simp [hdedup, ho]
    rw [rebaseSection, htable]
    simp only [hself, if_true, ite_self]

theorem Follows.trans {F' : Nat → Option Nat} {row₁ : Section ι} (h : Follows F row₀ row)
    (h' : Follows F' row row₁) : Follows (fun n => (F n).bind F') row₀ row₁ := by
  refine ⟨?_, fun n hn k hk => ?_⟩
  · rw [h'.marks, h.marks, List.filterMap_filterMap]
    exact List.filterMap_congr fun ns _ => carried_comp
  · obtain ⟨m, hm, hk⟩ := Option.bind_eq_some_iff.mp hk
    obtain ⟨ns, hns, hnns⟩ := mem_markLists.1 hn
    obtain ⟨ns', hns'⟩ := carried_isSome hnns hm
    have hmark : ns' ∈ markLists row.content := by
      rw [h.marks]
      exact List.mem_filterMap.mpr ⟨ns, hns, hns'⟩
    have hmem : m ∈ numbersInOrder row.content :=
      mem_markLists.2 ⟨ns', hmark, (mem_carried hns').mpr ⟨n, hnns, hm⟩⟩
    rw [h'.chunks m hmem k hk, h.chunks n hn m hm]

/-! All sections of a report. -/

variable {rows rows₀ : List (Section ι)}

theorem rebaseGlobalNumbers_fixed
    (h : ∀ r ∈ rows, rebaseSection (chunkToGlobal src sources) r = (r, false)) :
    rebaseGlobalNumbers src sources rows = (rows, 0) := by
  have hmap : rows.map (rebaseSection (chunkToGlobal src sources)) = rows.map fun r => (r, false) :=
    List.map_congr_left h
  unfold rebaseGlobalNumbers
  simp only [hmap]
  split
  · rfl
  · simp [List.filter_map, Function.comp_def]

theorem rebaseGlobalNumbers_sections (h : ∀ r ∈ rows, Keyed src r) :
    (rebaseGlobalNumbers src sources rows).1 =
      rows.map fun r => (rebaseSection (chunkToGlobal src sources) r).1 := by
  unfold rebaseGlobalNumbers
  simp only
  split
  · rename_i hempty
    have hself : ∀ r ∈ rows, (rebaseSection (chunkToGlobal src sources) r).1 = r := by
      intro r hr
      have hnil : r.sectionMeta.citationChunks = [] := by
        by_contra hne
        obtain ⟨x, hx⟩ := List.exists_mem_of_ne_nil _ hne
        obtain ⟨s, hne, -⟩ := (h r hr).source x hx
        obtain ⟨c, hc⟩ := List.exists_mem_of_ne_nil _ hne
        rw [List.isEmpty_iff, List.flatMap_eq_nil_iff] at hempty
        have hchunks := List.flatMap_eq_nil_iff.mp (hempty r hr) x hx
        simp [hchunks] at hc
      simp [rebaseSection, hnil]
    rw [List.map_congr_left hself, List.map_id']
  · simp

/-- The adopted sources and the sections of a project. -/
structure Report (ι σ : Type) where
  sources : List (ProjectSource σ)
  sections : List (Section ι)

def withIncluded (sources : List (ProjectSource σ)) (sourceId : σ) (isIncluded : Bool) :
    List (ProjectSource σ) :=
  sources.map fun s => if s.id = sourceId then { s with isIncluded } else s

/-- Adopts or excludes a source; a real change is followed by the new numbering. -/
def updateProjectSource (chunkSource : ι → Option σ) (report : Report ι σ) (change : σ × Bool) :
    Option (Report ι σ) :=
  match report.sources.find? fun s => s.id = change.1 with
  | none => none
  | some row =>
    if row.isIncluded = change.2 then some report
    else
      let sources := withIncluded report.sources change.1 change.2
      some ⟨sources, (rebaseGlobalNumbers chunkSource sources report.sections).1⟩

/-- As a report is assembled: an entry holds chunks of the source with its number, and every
number of the text has an entry. -/
structure Numbered (src : ι → Option σ) (sources : List (ProjectSource σ)) (row : Section ι) :
    Prop where
  keys : (row.sectionMeta.citationChunks.map Prod.fst).Nodup
  source : ∀ x ∈ row.sectionMeta.citationChunks,
    x.2 ≠ [] ∧ ∀ c ∈ x.2, chunkToGlobal src sources c = some x.1
  known : ∀ n ∈ numbersInOrder row.content, n ∈ row.sectionMeta.citationChunks.map Prod.fst

/-- Each mark is what is left of a mark of the first text, with the same chunks, and its numbers
are the present ones of adopted sources. -/
structure Truth (src : ι → Option σ) (sources : List (ProjectSource σ)) (row₀ row : Section ι) :
    Prop where
  follows : ∃ F, Follows F row₀ row
  current : ∀ n ∈ numbersInOrder row.content, ∃ cids,
    row.sectionMeta.citationChunks.lookup n = some cids ∧ cids ≠ [] ∧
    ∀ c ∈ cids, ∃ s ∈ sources, s.isIncluded ∧ src c = some s.id ∧
      sourceOrder sources s.id = some n

/-- The sections are true to the first ones, and another pass would change none. -/
structure StaysTrue (src : ι → Option σ) (rows₀ : List (Section ι)) (report : Report ι σ) :
    Prop where
  truth : List.Forall₂ (Truth src report.sources) rows₀ report.sections
  settled : rebaseGlobalNumbers src report.sources report.sections = (report.sections, 0)

/-- The marks a change deletes leave no new mark behind. -/
def SeamsSafe (src : ι → Option σ) (report : Report ι σ) (change : σ × Bool) : Prop :=
  ∀ row ∈ report.sections,
    SeamSafe (moved (chunkToGlobal src (withIncluded report.sources change.1 change.2)) row)
      row.content

instance {report : Report ι σ} {change : σ × Bool} : Decidable (SeamsSafe src report change) :=
  inferInstanceAs (Decidable (∀ row ∈ report.sections, _))

theorem sourceOrder_isSome :
    (sourceOrder sources s).isSome ↔ ∃ x ∈ sources, x.isIncluded ∧ x.id = s := by
  rw [sourceOrder, Pairing.lookup_isSome, List.zipIdx_map_fst, List.mem_map]
  simp [List.mem_filter, and_assoc]

theorem included_of_sourceOrder (h : sourceOrder sources s = some n) :
    ∃ x ∈ sources, x.isIncluded ∧ x.id = s := sourceOrder_isSome.1 (by simp [h])

omit [DecidableEq ι] in
theorem Numbered.keyed (h : Numbered src sources row) : Keyed src row := by
  have hsource : ∀ x ∈ row.sectionMeta.citationChunks, ∀ c ∈ x.2, ∃ s, src c = some s ∧
      sourceOrder sources s = some x.1 := fun x hx c hc =>
    Option.bind_eq_some_iff.mp ((h.source x hx).2 c hc)
  refine ⟨h.keys, fun x hx => ?_, fun x hx y hy c hc d hd hcd => ?_, h.known⟩
  · obtain ⟨hne, -⟩ := h.source x hx
    obtain ⟨c, hc⟩ := List.exists_mem_of_ne_nil _ hne
    obtain ⟨s, -, hs⟩ := hsource x hx c hc
    refine ⟨s, hne, fun d hd => ?_⟩
    obtain ⟨s', hd, hs'⟩ := hsource x hx d hd
    rw [hd, sourceOrder_injective hs' hs]
  · obtain ⟨s, hc, hs⟩ := hsource x hx c hc
    obtain ⟨s', hd, hs'⟩ := hsource y hy d hd
    obtain rfl := Option.some.inj (hc.symm.trans (hcd.trans hd))
    exact Option.some.inj (hs.symm.trans hs')

/-- A freshly assembled section needs no pass. -/
theorem Numbered.fixed (h : Numbered src sources row) :
    rebaseSection (chunkToGlobal src sources) row = (row, false) := by
  have hself : oldToNew (chunkToGlobal src sources) row.sectionMeta.citationChunks =
      row.sectionMeta.citationChunks.map fun x => (x.1, x.1) := by
    rw [oldToNew, ← List.filterMap_eq_map]
    refine List.filterMap_congr fun x hx => ?_
    obtain ⟨hne, hall⟩ := h.source x hx
    obtain ⟨c, cs, hcs⟩ := List.exists_cons_of_ne_nil hne
    have hc : chunkToGlobal src sources c = some x.1 := hall c (by simp [hcs])
    simp [newNumber, hcs, hc]
  unfold rebaseSection
  simp only [hself, if_true, ite_self]

omit [DecidableEq ι] in
theorem Numbered.numbersTrue (h : Numbered src sources row) :
    NumbersTrue (chunkToGlobal src sources) row := by
  intro n hn
  obtain ⟨cids, hcids⟩ := Option.isSome_iff_exists.mp (Pairing.lookup_isSome.mpr (h.known n hn))
  exact ⟨cids, hcids, h.source _ ((Pairing.lookup_eq_some h.keys).mp hcids)⟩

/-- What holds of every section along a run. -/
structure Kept (src : ι → Option σ) (sources : List (ProjectSource σ)) (row₀ row : Section ι) :
    Prop where
  follows : ∃ F, Follows F row₀ row
  keyed : Keyed src row
  numbers : NumbersTrue (chunkToGlobal src sources) row
  fixed : rebaseSection (chunkToGlobal src sources) row = (row, false)

theorem Numbered.kept (h : Numbered src sources row) : Kept src sources row row :=
  ⟨⟨some, Keyed.follows_self fun _ _ => rfl⟩, h.keyed, h.numbersTrue, h.fixed⟩

theorem Kept.truth (h : Kept src sources row₀ row) : Truth src sources row₀ row := by
  refine ⟨h.follows, fun n hn => ?_⟩
  obtain ⟨cids, hcids, hne, hall⟩ := h.numbers n hn
  refine ⟨cids, hcids, hne, fun c hc => ?_⟩
  obtain ⟨s, hs, hnumber⟩ := Option.bind_eq_some_iff.mp (hall c hc)
  obtain ⟨x, hx, hincluded, rfl⟩ := included_of_sourceOrder hnumber
  exact ⟨x, hx, hincluded, hs, hnumber⟩

/-- One pass keeps a section, whatever the sources were before. -/
theorem Kept.step {sources' : List (ProjectSource σ)} (h : Kept src sources row₀ row)
    (hsafe : SeamSafe (moved (chunkToGlobal src sources') row) row.content) :
    Kept src sources' row₀ (rebaseSection (chunkToGlobal src sources') row).1 := by
  obtain ⟨F, hF⟩ := h.follows
  obtain ⟨hfollows, hkeyed, hnumbers⟩ := rebaseSection_spec h.keyed hsafe
  exact ⟨⟨_, hF.trans hfollows⟩, hkeyed, hnumbers, rebaseSection_again h.keyed⟩

theorem mem_of_forall₂ {α β : Type} {R : α → β → Prop} {P : β → Prop} {l₁ : List α} {l₂ : List β}
    (h : List.Forall₂ R l₁ l₂) (hP : ∀ a b, R a b → P b) : ∀ b ∈ l₂, P b := by
  induction h with
  | nil => simp
  | cons hab _ ih => exact List.forall_mem_cons.mpr ⟨hP _ _ hab, ih⟩

theorem stays_of_kept {report : Report ι σ}
    (h : List.Forall₂ (Kept src report.sources) rows₀ report.sections) :
    StaysTrue src rows₀ report :=
  ⟨h.imp fun _ _ => Kept.truth, rebaseGlobalNumbers_fixed (mem_of_forall₂ h fun _ _ => Kept.fixed)⟩

/-- What one change keeps. -/
theorem kept_step {report report' : Report ι σ} {change : σ × Bool}
    (hstep : updateProjectSource src report change = some report')
    (hsafe : SeamsSafe src report change)
    (h : List.Forall₂ (Kept src report.sources) rows₀ report.sections) :
    List.Forall₂ (Kept src report'.sources) rows₀ report'.sections := by
  unfold updateProjectSource at hstep
  split at hstep
  · cases hstep
  · split at hstep
    · obtain rfl := Option.some.inj hstep
      exact h
    · obtain rfl := Option.some.inj hstep
      simp only
      rw [rebaseGlobalNumbers_sections (mem_of_forall₂ h fun _ _ => Kept.keyed),
        List.forall₂_map_right_iff]
      rw [List.forall₂_iff_zip] at h ⊢
      refine ⟨h.1, fun {row₀ row} hmem => ?_⟩
      exact (h.2 hmem).step (hsafe row (List.of_mem_zip hmem).2)

/-- In a run whose changes leave safe seams every section stays true to its first text. -/
theorem stays_true_along {report : Report ι σ} {changes : List (σ × Bool)}
    (hstart : ∀ row ∈ report.sections, Numbered src report.sources row)
    (hsafe : Runs.Along (updateProjectSource src) (fun r change _ => SeamsSafe src r change)
      report changes) :
    Runs.Always (updateProjectSource src) (StaysTrue src report.sections) report changes := by
  have hkept : List.Forall₂ (Kept src report.sources) report.sections report.sections :=
    List.forall₂_same.mpr fun row hrow => (hstart row hrow).kept
  have hrun : Runs.Always (updateProjectSource src)
      (fun r => List.Forall₂ (Kept src r.sources) report.sections r.sections) report changes :=
    Runs.always_of_step (fun _ _ _ hstep hok h => kept_step hstep hok h) hkept hsafe
  exact hrun.mono fun _ => stays_of_kept

/-- No two marks of a text touch. -/
def Separate (t : Text) : Prop :=
  (marks t).IsChain fun p q => (p.match?.isSome && q.match?.isSome) = false

instance {t : Text} : Decidable (Separate t) := inferInstanceAs (Decidable (List.IsChain _ _))

/-- A report over three sources, each a chunk of its own. -/
def threeSources (content : Text) (chunks : List (Nat × List Nat)) : Report Nat Nat :=
  ⟨[⟨1, true⟩, ⟨2, true⟩, ⟨3, true⟩],
    [⟨0, 1, 1, content, [], { SectionMeta.empty with citationChunks := chunks }, false, true⟩]⟩

instance {row : Section Nat} {sources : List (ProjectSource Nat)} :
    Decidable (Numbered some sources row) :=
  decidable_of_iff ((row.sectionMeta.citationChunks.map Prod.fst).Nodup ∧
      (∀ x ∈ row.sectionMeta.citationChunks,
        x.2 ≠ [] ∧ ∀ c ∈ x.2, chunkToGlobal some sources c = some x.1) ∧
      ∀ n ∈ numbersInOrder row.content, n ∈ row.sectionMeta.citationChunks.map Prod.fst)
    ⟨fun h => ⟨h.1, h.2.1, h.2.2⟩, fun h => ⟨h.keys, h.source, h.known⟩⟩

/-- The first source goes and comes back. -/
theorem stays_true_there_and_back :
    Runs.Always (updateProjectSource some)
      (StaysTrue some (threeSources "가 (출처 1, 2). 나 (출처 3) 다 [1]".toList
        [(1, [1]), (2, [2]), (3, [3])]).sections)
      (threeSources "가 (출처 1, 2). 나 (출처 3) 다 [1]".toList [(1, [1]), (2, [2]), (3, [3])])
      [(1, false), (1, true), (3, false)] :=
  stays_true_along (by decide) (by decide)

/-- A bracketed number inside a label: without it the label is a mark of its own. -/
theorem not_stays_true_label :
    ¬ ∀ (report : Report Nat Nat) (changes : List (Nat × Bool)),
      (∀ row ∈ report.sections, Numbered some report.sources row) →
      (∀ row ∈ report.sections, Separate row.content) →
      Runs.Always (updateProjectSource some) (StaysTrue some report.sections) report changes := by
  intro h
  have hrun := h (threeSources "(출처 3 [2])".toList [(2, [2])]) [(2, false)] (by decide)
    (by decide)
  have hlast := (hrun.2 _ rfl).truth
  obtain ⟨⟩ | ⟨htruth, -⟩ := hlast
  obtain ⟨cids, hcids, -⟩ := htruth.current 3 (by decide)
  have hsome := Option.isSome_of_eq_some hcids
  revert hsome
  decide

end RownRg.Sections

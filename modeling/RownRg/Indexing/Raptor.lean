import Mathlib.Data.List.Flatten
import Mathlib.Data.List.Induction
import Mathlib.Data.List.Nodup
import Mathlib.Data.List.Perm.Subperm
import Mathlib.Data.List.Sort
import RownRg.Lib.Groups
import RownRg.Lib.Pairing
import RownRg.Lib.Text

/-! The tree of summaries over the chunks of a project. -/

open PyText

namespace RownRg.Raptor

def depthLevels (depthMode : Text) : Nat :=
  if depthMode = "outline_only".toList then 0
  else if depthMode = "standard".toList then 1
  else if depthMode = "full_report".toList then 2
  else if depthMode = "deep_dive".toList then 3
  else 1

def clusterTargetSize : Nat := 6

def maxClustersPerLevel : Nat := 192

def minNodesToCluster : Nat := 4

def maxClusterInputChars : Nat := 12000

/-- A chunk, which has no id here, or a summary that stands for chunks. -/
structure Node (ι ε : Type) where
  id : Option ι
  content : Text
  embedding : ε
  leafChunkIds : List ι

/-- A row of `raptor_nodes`. -/
structure Row (ι ε : Type) where
  id : ι
  projectId : ι
  parentId : Option ι
  level : Nat
  summary : Text
  embedding : ε
  chunkIds : List ι
  nMembers : Nat

/-- What the model, the embedder and the database answer when one cluster is summarised. -/
structure Call (ι ε : Type) where
  complete : Text → Option Text
  embed : Text → Option ε
  newId : ι

/-- The indices of every label, by ascending label. -/
def groupByLabel (labels : List Int) : List (List Nat) :=
  ((FirstSeen.groups Prod.fst labels.zipIdx).insertionSort fun g h => g.1 ≤ h.1).map
    fun g => g.2.map Prod.snd

variable {ι ε : Type} [DecidableEq ι]

/-- `child.parent_id = node_id` for the rows among the children. -/
def adopt (nodeId : ι) (childIds : List ι) (row : Row ι ε) : Row ι ε :=
  if row.id ∈ childIds then { row with parentId := some nodeId } else row

/-- A failing call leaves no row; neither does an id that is taken. -/
def summarizeCluster (call : Call ι ε) (projectId : ι) (level : Nat) (members : List (Node ι ε))
    (rows : List (Row ι ε)) : Option (List (Row ι ε) × Node ι ε) := do
  let joined := joinWith "\n\n---\n\n".toList (members.map (·.content))
  let response ← call.complete (joined.take maxClusterInputChars)
  let summary := strip response
  let embedding ← call.embed summary
  let leafIds := members.flatMap (·.leafChunkIds)
  if call.newId ∈ rows.map (·.id) then none
  else
    let row : Row ι ε :=
      { id := call.newId, projectId, parentId := none, level, summary, embedding
        chunkIds := leafIds, nMembers := members.length }
    let childIds := members.filterMap (·.id)
    some ((rows ++ [row]).map (adopt call.newId childIds), ⟨some call.newId, summary, embedding, leafIds⟩)

/-- The nodes at the indices of a group. -/
def membersOf (current : List (Node ι ε)) (group : List Nat) : List (Node ι ε) :=
  group.filterMap (current[·]?)

/-- One cluster of a level is done; `results` is what `gather` collects. -/
def finishOne (calls : Nat → Call ι ε) (projectId : ι) (level : Nat) (current : List (Node ι ε))
    (groups : List (List Nat)) (s : List (Row ι ε) × (Nat → Option (Node ι ε))) (i : Nat) :
    List (Row ι ε) × (Nat → Option (Node ι ε)) :=
  match summarizeCluster (calls i) projectId level (membersOf current (groups.getD i [])) s.1 with
  | none => s
  | some (rows, node) => (rows, Function.update s.2 i (some node))

/-- The clusters of a level end in any order; the nodes come in the order of the groups. -/
def summarizeLevel (calls : Nat → Call ι ε) (order : List Nat) (projectId : ι) (level : Nat)
    (current : List (Node ι ε)) (groups : List (List Nat)) (rows : List (Row ι ε)) :
    List (Row ι ε) × List (Node ι ε) :=
  let s := order.foldl (finishOne calls projectId level current groups) (rows, fun _ => none)
  (s.1, (List.range groups.length).filterMap s.2)

/-- Everything outside the builder: the labels of the clustering, the calls of each level, and the
order in which a level's clusters end. -/
structure World (ι ε : Type) where
  kmeans : List ε → Nat → List Int
  calls : Nat → Nat → Call ι ε
  order : Nat → Nat → List Nat

/-- The loop over the levels, with how many of them are left. -/
def buildLevels (w : World ι ε) (projectId : ι) :
    Nat → Nat → List (Node ι ε) → List (Row ι ε) → Nat → List (Row ι ε) × Nat
  | 0, _, _, rows, created => (rows, created)
  | left + 1, level, current, rows, created =>
    if current.length < minNodesToCluster then (rows, created)
    else
      let k := min ((current.length + clusterTargetSize - 1) / clusterTargetSize) maxClustersPerLevel
      if k ≤ 1 ∧ 1 < level then (rows, created)
      else
        let groups := groupByLabel (w.kmeans (current.map (·.embedding)) k)
        let (rows, next) := summarizeLevel (w.calls level) (w.order level groups.length) projectId
          level current groups rows
        if next.isEmpty then (rows, created)
        else buildLevels w projectId left (level + 1) next rows (created + next.length)

/-- A chunk as `_load_leaves` reads it. -/
def leafNode (leaf : ι × Text × ε) : Node ι ε := ⟨none, leaf.2.1, leaf.2.2, [leaf.1]⟩

/-- The table after a build, and the number of summaries made. -/
def build (w : World ι ε) (projectId : ι) (depthMode : Text) (leaves : List (ι × Text × ε))
    (rows : List (Row ι ε)) : List (Row ι ε) × Nat :=
  if depthLevels depthMode = 0 then (rows, 0)
  else if leaves.length < minNodesToCluster then (rows, 0)
  else
    buildLevels w projectId (depthLevels depthMode) 1 (leaves.map leafNode)
      (rows.filter fun r => r.projectId ≠ projectId) 0

/-! One level. -/

variable {w : World ι ε} {calls : Nat → Call ι ε} {call : Call ι ε} {order : List Nat}
  {projectId p : ι} {level i l top : Nat} {current members : List (Node ι ε)}
  {groups : List (List Nat)} {rows rows' : List (Row ι ε)} {row r q : Row ι ε} {node : Node ι ε}
  {made : List (Nat × Row ι ε)} {leaves : List ι}

omit [DecidableEq ι] in
theorem groupByLabel_perm (labels : List Int) :
    (groupByLabel labels).flatten.Perm (List.range labels.length) := by
  have hsort := List.perm_insertionSort (fun g h : Int × List (Int × Nat) => g.1 ≤ h.1)
    (FirstSeen.groups Prod.fst labels.zipIdx)
  have hflat := (hsort.flatMap_right Prod.snd).trans
    (FirstSeen.flatMap_groups_perm Prod.fst labels.zipIdx)
  have hindex := hflat.map Prod.snd
  rw [List.map_flatMap, List.zipIdx_map_snd, ← List.range_eq_range'] at hindex
  unfold groupByLabel
  rwa [← List.flatMap_def]

/-- The row of a summary of the members. -/
structure Summary (projectId : ι) (level : Nat) (members : List (Node ι ε)) (row : Row ι ε) :
    Prop where
  project : row.projectId = projectId
  parent : row.parentId = none
  level : row.level = level
  chunks : row.chunkIds = members.flatMap (·.leafChunkIds)

/-- A summary as the next level takes it. -/
def nodeOf (row : Row ι ε) : Node ι ε := ⟨some row.id, row.summary, row.embedding, row.chunkIds⟩

/-- A row put into the table, with the rows it adopts. -/
def addRow (rows : List (Row ι ε)) (row : Row ι ε) (childIds : List ι) : List (Row ι ε) :=
  (rows ++ [row]).map (adopt row.id childIds)

theorem summarizeCluster_spec
    (h : summarizeCluster call projectId level members rows = some (rows', node)) :
    ∃ row, row.id ∉ rows.map (·.id) ∧ Summary projectId level members row ∧ node = nodeOf row ∧
      rows' = addRow rows row (members.filterMap (·.id)) := by
  simp only [summarizeCluster, Option.bind_eq_bind, Option.bind_eq_some_iff] at h
  obtain ⟨response, -, embedding, -, h⟩ := h
  split at h
  · cases h
  · rename_i hid
    obtain ⟨rfl, rfl⟩ := Prod.mk.inj (Option.some.inj h)
    exact ⟨⟨call.newId, projectId, none, level, strip response, embedding, _, members.length⟩, hid,
      ⟨rfl, rfl, rfl, rfl⟩, rfl, rfl⟩

@[simp] theorem adopt_id (nodeId : ι) (childIds : List ι) (row : Row ι ε) :
    (adopt nodeId childIds row).id = row.id := by
  unfold adopt
  split <;> rfl

theorem ids_addRow (childIds : List ι) :
    (addRow rows row childIds).map (·.id) = rows.map (·.id) ++ [row.id] := by
  simp [addRow, Function.comp_def]

/-- The ids of the members of a group. -/
def kids (current : List (Node ι ε)) (groups : List (List Nat)) (i : Nat) : List ι :=
  (membersOf current (groups.getD i [])).filterMap (·.id)

/-- The table with the summaries made so far, each with its group. -/
def tableOf (current : List (Node ι ε)) (groups : List (List Nat)) (rows : List (Row ι ε))
    (made : List (Nat × Row ι ε)) : List (Row ι ε) :=
  made.foldl (fun rows m => addRow rows m.2 (kids current groups m.1)) rows

theorem ids_tableOf (current : List (Node ι ε)) (groups : List (List Nat))
    (made : List (Nat × Row ι ε)) (rows : List (Row ι ε)) : (tableOf current groups rows made).map (·.id) =
    rows.map (·.id) ++ made.map fun m => m.2.id := by
  unfold tableOf
  induction made generalizing rows with
  | nil => simp
  | cons m made ih => rw [List.foldl_cons, ih, ids_addRow, List.map_cons, List.append_assoc]; rfl

/-- What the ends of some clusters leave. -/
structure Finished (projectId : ι) (level : Nat) (current : List (Node ι ε))
    (groups : List (List Nat)) (rows : List (Row ι ε)) (order : List Nat)
    (made : List (Nat × Row ι ε)) (s : List (Row ι ε) × (Nat → Option (Node ι ε))) : Prop where
  some_of : (made.map Prod.fst).Sublist order
  summary : ∀ m ∈ made, Summary projectId level (membersOf current (groups.getD m.1 [])) m.2
  table : s.1 = tableOf current groups rows made
  results : ∀ i, s.2 i = (made.lookup i).map nodeOf
  ids : (rows.map (·.id) ++ made.map fun m => m.2.id).Nodup

theorem finished_foldl (calls : Nat → Call ι ε) (projectId : ι) (level : Nat)
    (current : List (Node ι ε)) (groups : List (List Nat)) (hrows : (rows.map (·.id)).Nodup)
    (horder : order.Nodup) :
    ∃ made, Finished projectId level current groups rows order made
      (order.foldl (finishOne calls projectId level current groups) (rows, fun _ => none)) := by
  induction order using List.reverseRecOn with
  | nil => exact ⟨[], .slnil, by simp, rfl, fun _ => rfl, by simpa using hrows⟩
  | append_singleton order i ih =>
    have hnodup := List.nodup_append.mp horder
    obtain ⟨made, h⟩ := ih hnodup.1
    rw [List.foldl_concat]
    generalize order.foldl (finishOne calls projectId level current groups) (rows, fun _ => none) = s
      at h
    cases hcall : summarizeCluster (calls i) projectId level
        (membersOf current (groups.getD i [])) s.1 with
    | none =>
      have hsame : finishOne calls projectId level current groups s i = s := by
        simp only [finishOne, hcall]
      rw [hsame]
      exact ⟨made, h.some_of.trans (List.sublist_append_left _ _), h.summary, h.table, h.results,
        h.ids⟩
    | some out =>
      obtain ⟨rows', node⟩ := out
      obtain ⟨row, hfresh, hsummary, rfl, hrows'⟩ := summarizeCluster_spec hcall
      have hstep : finishOne calls projectId level current groups s i =
          (rows', Function.update s.2 i (some (nodeOf row))) := by
        simp only [finishOne, hcall]
      have hnew : i ∉ made.map Prod.fst := fun hi =>
        hnodup.2.2 i (h.some_of.subset hi) i (by simp) rfl
      rw [hstep]
      refine ⟨made ++ [(i, row)], ?_, fun m hm => ?_, ?_, fun j => ?_, ?_⟩
      · rw [List.map_append]
        exact h.some_of.append (List.Sublist.refl _)
      · rcases List.mem_append.mp hm with hm | hm
        · exact h.summary m hm
        · rw [List.mem_singleton.mp hm]
          exact hsummary
      · rw [tableOf, List.foldl_concat, hrows', h.table]
        rfl
      · have hlookup : (made ++ [(i, row)]).lookup j =
            if j = i then some row else made.lookup j := by
          rw [List.lookup_append, Pairing.lookup_cons, List.lookup_nil]
          by_cases hj : j = i
          · subst hj
            have hnone : made.lookup j = none := by
              rw [← Option.not_isSome_iff_eq_none, Pairing.lookup_isSome]
              exact hnew
            simp [hnone]
          · simp [hj]
        rw [hlookup]
        by_cases hj : j = i
        · simp [hj]
        · simp [hj, h.results]
      · have hid : row.id ∉ rows.map (·.id) ++ made.map fun m => m.2.id := by
          rw [← ids_tableOf current groups, ← h.table]
          exact hfresh
        rw [List.map_append, ← List.append_assoc]
        refine List.nodup_append.mpr ⟨h.ids, by simp, fun a ha b hb hab => hid ?_⟩
        obtain rfl : b = row.id := by simpa using hb
        rwa [← hab]

/-- The summary that adopts the row. -/
def parentIn (current : List (Node ι ε)) (groups : List (List Nat)) (made : List (Nat × Row ι ε))
    (id : ι) : Option ι :=
  (made.find? fun m => id ∈ kids current groups m.1).map fun m => m.2.id

/-- A row of the level before, with the summary that was made over it. -/
def placed (current : List (Node ι ε)) (groups : List (List Nat)) (made : List (Nat × Row ι ε))
    (row : Row ι ε) : Row ι ε :=
  { row with parentId := (parentIn current groups made row.id).or row.parentId }

/-- No row is a member of two groups, and the members are rows of the table. -/
structure Apart (current : List (Node ι ε)) (groups : List (List Nat)) (rows : List (Row ι ε))
    (made : List (Nat × Row ι ε)) : Prop where
  disjoint : made.Pairwise fun m m' =>
    ∀ id ∈ kids current groups m.1, id ∉ kids current groups m'.1
  known : ∀ m ∈ made, ∀ id ∈ kids current groups m.1, id ∈ rows.map (·.id)

theorem tableOf_eq (h : Apart current groups rows made)
    (hids : (rows.map (·.id) ++ made.map fun m => m.2.id).Nodup) :
    tableOf current groups rows made =
      rows.map (placed current groups made) ++ made.map Prod.snd := by
  induction made using List.reverseRecOn with
  | nil =>
    have hsame : rows.map (placed current groups []) = rows := by
      conv_rhs => rw [← List.map_id rows]
      exact List.map_congr_left fun r _ => rfl
    rw [hsame]
    simp [tableOf]
  | append_singleton made m ih =>
    have hpair := List.pairwise_append.mp h.disjoint
    rw [List.map_append, ← List.append_assoc] at hids
    obtain ⟨hids', -, hfresh⟩ := List.nodup_append.mp hids
    obtain ⟨-, -, hnew⟩ := List.nodup_append.mp hids'
    have hih := ih ⟨hpair.1, fun m' hm' => h.known m' (List.mem_append_left _ hm')⟩ hids'
    have hknown := h.known m (by simp)
    have hstep : tableOf current groups rows (made ++ [m]) =
        addRow (tableOf current groups rows made) m.2 (kids current groups m.1) := by
      simp [tableOf]
    have hold : rows.map (adopt m.2.id (kids current groups m.1) ∘ placed current groups made) =
        rows.map (placed current groups (made ++ [m])) := by
      refine List.map_congr_left fun r _ => ?_
      have hparent : parentIn current groups (made ++ [m]) r.id =
          (parentIn current groups made r.id).or
            (if r.id ∈ kids current groups m.1 then some m.2.id else none) := by
        unfold parentIn
        rw [List.find?_append, Option.map_or, List.find?_singleton]
        split <;> simp_all
      by_cases hr : r.id ∈ kids current groups m.1
      · have hnone : parentIn current groups made r.id = none := by
          simp only [parentIn, Option.map_eq_none_iff, List.find?_eq_none, decide_eq_true_eq]
          exact fun m' hm' hmem => hpair.2.2 m' hm' m (by simp) _ hmem hr
        simp [placed, adopt, hparent, hr, hnone]
      · simp [placed, adopt, hparent, hr]
    have hmade : (made.map Prod.snd).map (adopt m.2.id (kids current groups m.1)) =
        made.map Prod.snd := by
      refine (List.map_congr_left fun r hr => ?_).trans (List.map_id _)
      obtain ⟨m', hm', rfl⟩ := List.mem_map.mp hr
      refine if_neg fun hmem => ?_
      exact hnew _ (hknown _ hmem) _ (List.mem_map.mpr ⟨m', hm', rfl⟩) rfl
    have hself : adopt m.2.id (kids current groups m.1) m.2 = m.2 := by
      refine if_neg fun hmem => ?_
      exact hfresh _ (List.mem_append_left _ (hknown _ hmem)) m.2.id (by simp) rfl
    rw [hstep, addRow, hih, List.map_append, List.map_append, List.map_map, hold, hmade,
      List.map_singleton, hself, List.map_append, List.map_singleton, List.append_assoc]

/-! The groups of a level share its nodes. -/

omit [DecidableEq ι] in
theorem membersOf_range (current : List (Node ι ε)) :
    membersOf current (List.range current.length) = current := by
  induction current with
  | nil => rfl
  | cons n current ih =>
    rw [membersOf, List.length_cons, List.range_succ_eq_map, List.filterMap_cons, List.filterMap_map]
    simpa [Function.comp_def, membersOf] using ih

omit [DecidableEq ι] in
theorem membersOf_flatten (current : List (Node ι ε)) (groups : List (List Nat)) :
    membersOf current groups.flatten = groups.flatMap (membersOf current) := by
  induction groups with
  | nil => rfl
  | cons g groups ih =>
    rw [List.flatten_cons, List.flatMap_cons, ← ih]
    simp [membersOf]

theorem subperm_nodup {α : Type} {xs ys : List α} (h : xs.Subperm ys) (hys : ys.Nodup) :
    xs.Nodup := by
  obtain ⟨zs, hperm, hsub⟩ := h
  exact hperm.nodup_iff.mp (hys.sublist hsub)

omit [DecidableEq ι] in
/-- Whatever the members of some groups have stands once in the whole level. -/
theorem members_subperm {α : Type} {some' : List Nat}
    (hgroups : groups.flatten.Perm (List.range current.length))
    (horder : order.Perm (List.range groups.length)) (hsub : some'.Sublist order)
    (f : Node ι ε → List α) :
    (some'.flatMap fun i => (membersOf current (groups.getD i [])).flatMap f).Subperm
      (current.flatMap f) := by
  have hall : (List.range groups.length).map (groups.getD · []) = groups := by
    refine List.ext_getElem (by simp) fun i hi hi' => ?_
    simp [List.getElem?_eq_getElem hi']
  have hwhole : ((List.range groups.length).flatMap fun i =>
      (membersOf current (groups.getD i [])).flatMap f) =
      (membersOf current groups.flatten).flatMap f := by
    rw [membersOf_flatten, List.flatMap_assoc]
    conv_rhs => rw [← hall, List.flatMap_map]
  have hperm := (hgroups.filterMap (current[·]?)).flatMap_right f
  rw [show (List.range current.length).filterMap (current[·]?) = current from
    membersOf_range current] at hperm
  have hpart := (hsub.flatMap fun i => (membersOf current (groups.getD i [])).flatMap f).subperm
  refine hpart.trans ?_
  exact ((horder.flatMap_right _).trans (hwhole ▸ hperm)).subperm

omit [DecidableEq ι] in
theorem apart_of_distinct (hgroups : groups.flatten.Perm (List.range current.length))
    (horder : order.Perm (List.range groups.length))
    (hsub : (made.map Prod.fst).Sublist order) (hdistinct : (current.filterMap (·.id)).Nodup)
    (hknown : ∀ id ∈ current.filterMap (·.id), id ∈ rows.map (·.id)) :
    Apart current groups rows made := by
  have hlist : ∀ nodes : List (Node ι ε),
      nodes.filterMap (·.id) = nodes.flatMap fun n => n.id.toList := fun nodes => by
    rw [← List.filterMap_eq_flatMap_toList]
  have hsubperm := members_subperm hgroups horder hsub fun n => n.id.toList
  simp only [← hlist] at hsubperm
  refine ⟨?_, fun m hm id hid => hknown id ?_⟩
  · have hnodup := List.nodup_flatMap.mp (subperm_nodup hsubperm hdistinct)
    rw [List.pairwise_map] at hnodup
    exact hnodup.2.imp fun hdisj id hid hid' => hdisj hid hid'
  · exact hsubperm.subset (List.mem_flatMap.mpr ⟨m.1, List.mem_map_of_mem hm, hid⟩)

omit [DecidableEq ι] in
/-- The nodes that `gather` gives, in the order of the groups, are the summaries made. -/
theorem filterMap_lookup_perm {is : List Nat} (hkeys : (made.map Prod.fst).Nodup)
    (his : is.Nodup) (hsub : ∀ m ∈ made, m.1 ∈ is) :
    (is.filterMap fun i => made.lookup i).Perm (made.map Prod.snd) := by
  have hown : made.map Prod.snd = (made.map Prod.fst).filterMap fun i => made.lookup i := by
    rw [List.filterMap_map]
    have hall : ∀ m ∈ made, ((fun i => made.lookup i) ∘ Prod.fst) m = some m.2 := fun m hm =>
      (Pairing.lookup_eq_some hkeys).mpr hm
    rw [List.filterMap_congr hall, List.filterMap_eq_map']
  have hfilter : (is.filterMap fun i => made.lookup i) =
      (is.filter fun i => i ∈ made.map Prod.fst).filterMap fun i => made.lookup i := by
    rw [List.filterMap_filter]
    refine List.filterMap_congr fun i _ => ?_
    split
    · rfl
    · rename_i hi
      rw [← Option.not_isSome_iff_eq_none, Pairing.lookup_isSome]
      simpa using hi
  rw [hown, hfilter]
  refine List.Perm.filterMap _ ((List.perm_ext_iff_of_nodup (his.filter _) hkeys).mpr fun i => ?_)
  rw [List.mem_filter, decide_eq_true_eq, and_iff_right_iff_imp]
  intro hi
  obtain ⟨m, hm, rfl⟩ := List.mem_map.mp hi
  exact hsub m hm

/-! The tree. -/

/-- The project's rows of a level. -/
def rowsAt (projectId : ι) (rows : List (Row ι ε)) (l : Nat) : List (Row ι ε) :=
  rows.filter fun r => r.projectId = projectId ∧ r.level = l

/-- The project's rows are a forest over its chunks: a parent stands one level higher and holds the
chunks of its children one after the other, and on no level a chunk is held twice. -/
structure Tree (projectId : ι) (leaves : List ι) (top : Nat) (rows : List (Row ι ε)) : Prop where
  levels : ∀ r ∈ rows, r.projectId = projectId → 1 ≤ r.level ∧ r.level ≤ top
  above : ∀ r ∈ rows, r.projectId = projectId → ∀ p, r.parentId = some p →
    ∃ q ∈ rows, q.projectId = projectId ∧ q.id = p ∧ q.level = r.level + 1
  gathers : ∀ q ∈ rows, q.projectId = projectId → 1 < q.level → ∃ children : List (Row ι ε),
    q.chunkIds = children.flatMap (·.chunkIds) ∧
      ∀ r, r ∈ children ↔ r ∈ rows ∧ r.projectId = projectId ∧ r.parentId = some q.id
  once : ∀ l, ((rowsAt projectId rows l).flatMap (·.chunkIds)).Subperm leaves

/-- The nodes that the next level starts from, against the table. -/
structure Frontier (projectId : ι) (leaves : List ι) (level : Nat) (current : List (Node ι ε))
    (rows : List (Row ι ε)) : Prop where
  keys : (rows.map (·.id)).Nodup
  tree : Tree projectId leaves (level - 1) rows
  known : ∀ n ∈ current, ∀ id, n.id = some id → ∃ r ∈ rows, r.projectId = projectId ∧ r.id = id ∧
    r.level + 1 = level ∧ r.parentId = none ∧ r.chunkIds = n.leafChunkIds
  named : 1 < level → ∀ n ∈ current, n.id.isSome
  distinct : (current.filterMap (·.id)).Nodup
  chunks : (current.flatMap (·.leafChunkIds)).Subperm leaves

theorem Tree.mono {top' : Nat} (h : Tree projectId leaves top rows) (hle : top ≤ top') :
    Tree projectId leaves top' rows :=
  ⟨fun r hr hp => ⟨(h.levels r hr hp).1, (h.levels r hr hp).2.trans hle⟩, h.above, h.gathers, h.once⟩

/-- A level that was built: the old rows with their new parents, and the summaries. -/
structure Level (projectId : ι) (level : Nat) (current : List (Node ι ε))
    (groups : List (List Nat)) (rows : List (Row ι ε)) (made : List (Nat × Row ι ε))
    (rows' : List (Row ι ε)) (next : List (Node ι ε)) : Prop where
  table : rows' = rows.map (placed current groups made) ++ made.map Prod.snd
  next : next.Perm (made.map fun m => nodeOf m.2)
  ids : (rows.map (·.id) ++ made.map fun m => m.2.id).Nodup
  summary : ∀ m ∈ made, Summary projectId level (membersOf current (groups.getD m.1 [])) m.2
  apart : Apart current groups rows made
  chunks : (made.flatMap fun m => m.2.chunkIds).Subperm (current.flatMap (·.leafChunkIds))

theorem level_of_frontier (h : Frontier projectId leaves level current rows)
    (hgroups : groups.flatten.Perm (List.range current.length))
    (horder : order.Perm (List.range groups.length)) :
    ∃ made, Level projectId level current groups rows made
      (summarizeLevel calls order projectId level current groups rows).1
      (summarizeLevel calls order projectId level current groups rows).2 := by
  have hnodup : order.Nodup := horder.nodup_iff.mpr List.nodup_range
  obtain ⟨made, hfin⟩ := finished_foldl calls projectId level current groups h.keys hnodup
  have hknown : ∀ id ∈ current.filterMap (·.id), id ∈ rows.map (·.id) := by
    intro id hid
    obtain ⟨n, hn, hnid⟩ := List.mem_filterMap.mp hid
    obtain ⟨r, hr, -, rfl, -⟩ := h.known n hn id hnid
    exact List.mem_map_of_mem hr
  have hapart := apart_of_distinct hgroups horder hfin.some_of h.distinct hknown
  have hkeys : (made.map Prod.fst).Nodup := hnodup.sublist hfin.some_of
  refine ⟨made, ?_, ?_, hfin.ids, hfin.summary, hapart, ?_⟩
  · rw [← tableOf_eq hapart hfin.ids, ← hfin.table]
    rfl
  · have hnodes : (summarizeLevel calls order projectId level current groups rows).2 =
        ((List.range groups.length).filterMap fun i => made.lookup i).map nodeOf := by
      rw [List.map_filterMap]
      exact List.filterMap_congr fun i _ => hfin.results i
    rw [hnodes, ← Function.comp_def nodeOf Prod.snd, ← List.map_map]
    refine (filterMap_lookup_perm hkeys List.nodup_range fun m hm => ?_).map nodeOf
    exact horder.subset (hfin.some_of.subset (List.mem_map_of_mem hm))
  · have hmembers : (made.flatMap fun m => m.2.chunkIds) = (made.map Prod.fst).flatMap fun i =>
        (membersOf current (groups.getD i [])).flatMap (·.leafChunkIds) := by
      rw [List.flatMap_map]
      exact List.flatMap_congr fun m hm => (hfin.summary m hm).chunks
    rw [hmembers]
    exact members_subperm hgroups horder hfin.some_of _

@[simp] theorem placed_id : (placed current groups made row).id = row.id := rfl

@[simp] theorem placed_projectId : (placed current groups made row).projectId = row.projectId := rfl

@[simp] theorem placed_level : (placed current groups made row).level = row.level := rfl

@[simp] theorem placed_chunkIds : (placed current groups made row).chunkIds = row.chunkIds := rfl

theorem parentIn_some {x : ι} (h : parentIn current groups made p = some x) :
    ∃ m ∈ made, p ∈ kids current groups m.1 ∧ m.2.id = x := by
  obtain ⟨m, hm, hid⟩ := Option.map_eq_some_iff.mp h
  exact ⟨m, List.mem_of_find?_eq_some hm, by simpa using List.find?_some hm, hid⟩

theorem parentIn_of_mem {m : Nat × Row ι ε} (hapart : Apart current groups rows made) (hm : m ∈ made)
    (hp : p ∈ kids current groups m.1) : parentIn current groups made p = some m.2.id := by
  unfold parentIn
  cases hfind : made.find? fun m => p ∈ kids current groups m.1 with
  | none => exact absurd hp (by simpa using List.find?_eq_none.mp hfind m hm)
  | some m' =>
    have hp' : p ∈ kids current groups m'.1 := by simpa using List.find?_some hfind
    have hm' := List.mem_of_find?_eq_some hfind
    by_cases he : m = m'
    · rw [he]; rfl
    · have hsymm : Std.Symm fun m m' : Nat × Row ι ε =>
          ∀ id ∈ kids current groups m.1, id ∉ kids current groups m'.1 :=
        ⟨fun _ _ h id hid hid' => h id hid' hid⟩
      exact absurd hp' (hapart.disjoint.forall hm hm' he p hp)

omit [DecidableEq ι] in
theorem eq_of_id (hkeys : (rows.map (·.id)).Nodup) (hr : r ∈ rows) (hq : q ∈ rows)
    (hid : r.id = q.id) : r = q := List.inj_on_of_nodup_map hkeys hr hq hid

omit [DecidableEq ι] in
theorem mem_of_mem_membersOf {group : List Nat} (h : node ∈ membersOf current group) :
    node ∈ current := by
  obtain ⟨i, -, hi⟩ := List.mem_filterMap.mp h
  exact List.mem_of_getElem? hi

section Step

variable {next : List (Node ι ε)} (h : Frontier projectId leaves level current rows)
  (hlevel : Level projectId level current groups rows made rows' next)
include h hlevel

omit h in
theorem mem_table : r ∈ rows' ↔
    (∃ r₀ ∈ rows, placed current groups made r₀ = r) ∨ ∃ m ∈ made, m.2 = r := by
  rw [hlevel.table, List.mem_append, List.mem_map, List.mem_map]

omit h in
theorem keys_table : (rows'.map (·.id)).Nodup := by
  have hids : rows'.map (·.id) = rows.map (·.id) ++ made.map fun m => m.2.id := by
    simp [hlevel.table, Function.comp_def]
  rw [hids]
  exact hlevel.ids

omit hlevel in
/-- A member is a row of the level before that has no parent yet. -/
theorem adopted_row {m : Nat × Row ι ε} (hr : r ∈ rows) (hid : r.id ∈ kids current groups m.1) :
    r.projectId = projectId ∧ r.level + 1 = level ∧ r.parentId = none ∧
      ∃ n ∈ membersOf current (groups.getD m.1 []), n.id = some r.id ∧
        r.chunkIds = n.leafChunkIds := by
  obtain ⟨n, hn, hnid⟩ := List.mem_filterMap.mp hid
  obtain ⟨r', hr', hproject, hid', hlow, hparent, hchunks⟩ :=
    h.known n (mem_of_mem_membersOf hn) r.id hnid
  obtain rfl := eq_of_id h.keys hr' hr hid'
  exact ⟨hproject, hlow, hparent, n, hn, hnid, hchunks⟩

omit h in
theorem fresh_id {m : Nat × Row ι ε} (hm : m ∈ made) (hr : r ∈ rows) : m.2.id ≠ r.id := fun he =>
  (List.nodup_append.mp hlevel.ids).2.2 r.id (List.mem_map_of_mem hr) m.2.id
    (List.mem_map.mpr ⟨m, hm, rfl⟩) he.symm

omit hlevel in
/-- A row that has a parent already is left as it is. -/
theorem placed_of_parent (hr : r ∈ rows) (hp : r.parentId = some p) :
    placed current groups made r = r := by
  have hnone : parentIn current groups made r.id = none := by
    rw [Option.eq_none_iff_forall_ne_some]
    intro x hx
    obtain ⟨m, -, hmem, -⟩ := parentIn_some hx
    have hparent := (adopted_row h hr hmem).2.2.1
    rw [hp] at hparent
    cases hparent
  unfold placed
  rw [hnone]
  rfl

/-- Where a row's parent comes from. -/
theorem parent_cases (hr : r ∈ rows') (hp : r.parentId = some p) :
    (∃ r₀ ∈ rows, r₀ = r ∧ r₀.parentId = some p) ∨
      ∃ m ∈ made, ∃ r₀ ∈ rows, placed current groups made r₀ = r ∧ m.2.id = p ∧
        r₀.id ∈ kids current groups m.1 := by
  rcases (mem_table hlevel).mp hr with ⟨r₀, hr₀, rfl⟩ | ⟨m, hm, rfl⟩
  · cases hparent : parentIn current groups made r₀.id with
    | none =>
      have hold : r₀.parentId = some p := by simpa [placed, hparent] using hp
      exact .inl ⟨r₀, hr₀, (placed_of_parent h hr₀ hold).symm, hold⟩
    | some x =>
      obtain rfl : x = p := by simpa [placed, hparent] using hp
      obtain ⟨m, hm, hmem, hid⟩ := parentIn_some hparent
      exact .inr ⟨m, hm, r₀, hr₀, rfl, hid, hmem⟩
  · rw [(hlevel.summary m hm).parent] at hp
    cases hp

theorem above_step (hr : r ∈ rows') (hproject : r.projectId = projectId) (hp : r.parentId = some p) :
    ∃ q ∈ rows', q.projectId = projectId ∧ q.id = p ∧ q.level = r.level + 1 := by
  rcases parent_cases h hlevel hr hp with ⟨r₀, hr₀, rfl, hold⟩ | ⟨m, hm, r₀, hr₀, rfl, rfl, hmem⟩
  · obtain ⟨q, hq, hqproject, hid, hqlevel⟩ := h.tree.above r₀ hr₀ hproject p hold
    exact ⟨placed current groups made q, (mem_table hlevel).mpr (.inl ⟨q, hq, rfl⟩), hqproject, hid,
      hqlevel⟩
  · refine ⟨m.2, (mem_table hlevel).mpr (.inr ⟨m, hm, rfl⟩), (hlevel.summary m hm).project, rfl, ?_⟩
    rw [(hlevel.summary m hm).level, placed_level, (adopted_row h hr₀ hmem).2.1]

/-- A row that was there has the children it had. -/
theorem gathers_old (hq : q ∈ rows) (hproject : q.projectId = projectId) (hlow : 1 < q.level) :
    ∃ children : List (Row ι ε), q.chunkIds = children.flatMap (·.chunkIds) ∧
      ∀ r, r ∈ children ↔ r ∈ rows' ∧ r.projectId = projectId ∧ r.parentId = some q.id := by
  obtain ⟨children, hchunks, hmem⟩ := h.tree.gathers q hq hproject hlow
  refine ⟨children, hchunks, fun r => (hmem r).trans ⟨?_, ?_⟩⟩
  · rintro ⟨hr, hrproject, hp⟩
    exact ⟨(mem_table hlevel).mpr (.inl ⟨r, hr, placed_of_parent h hr hp⟩), hrproject, hp⟩
  · rintro ⟨hr, hrproject, hp⟩
    rcases parent_cases h hlevel hr hp with ⟨r₀, hr₀, rfl, hold⟩ | ⟨m, hm, r₀, hr₀, rfl, hid, -⟩
    · exact ⟨hr₀, hrproject, hold⟩
    · exact absurd hid (fresh_id hlevel hm hq)

/-- A summary has the members of its group as children. -/
theorem gathers_new {m : Nat × Row ι ε} (hm : m ∈ made) (hlow : 1 < level) :
    ∃ children : List (Row ι ε), m.2.chunkIds = children.flatMap (·.chunkIds) ∧
      ∀ r, r ∈ children ↔ r ∈ rows' ∧ r.projectId = projectId ∧ r.parentId = some m.2.id := by
  have hrow : ∀ n ∈ membersOf current (groups.getD m.1 []), ∃ r, (r ∈ rows' ∧
      r.projectId = projectId ∧ r.parentId = some m.2.id ∧ n.id = some r.id) ∧
        r.chunkIds = n.leafChunkIds := by
    intro n hn
    obtain ⟨id, hid⟩ := Option.isSome_iff_exists.mp (h.named hlow n (mem_of_mem_membersOf hn))
    obtain ⟨r, hr, hproject, rfl, -, hparent, hchunks⟩ := h.known n (mem_of_mem_membersOf hn) id hid
    have hkid : r.id ∈ kids current groups m.1 := List.mem_filterMap.mpr ⟨n, hn, hid⟩
    refine ⟨placed current groups made r, ⟨(mem_table hlevel).mpr (.inl ⟨r, hr, rfl⟩), hproject, ?_,
      hid⟩, hchunks⟩
    simp [placed, parentIn_of_mem hlevel.apart hm hkid]
  obtain ⟨children, hchildren⟩ := Pairing.exists_related hrow
  refine ⟨children, ?_, fun r => ⟨fun hr => ?_, fun ⟨hr, hproject, hp⟩ => ?_⟩⟩
  · rw [(hlevel.summary m hm).chunks]
    exact (Pairing.related_flatMap (hchildren.imp fun _ _ h => h.2)).symm
  · obtain ⟨n, -, ⟨hr', hproject, hp, -⟩, -⟩ := Pairing.related_right hchildren hr
    exact ⟨hr', hproject, hp⟩
  · rcases parent_cases h hlevel hr hp with ⟨r₀, hr₀, rfl, hold⟩ | ⟨m', hm', r₀, hr₀, rfl, hid, hkid⟩
    · obtain ⟨q, hq, -, hid, -⟩ := h.tree.above r₀ hr₀ hproject _ hold
      exact absurd hid.symm (fresh_id hlevel hm hq)
    · have hids : (made.map fun m => m.2.id).Nodup := (List.nodup_append.mp hlevel.ids).2.1
      obtain rfl : m' = m := List.inj_on_of_nodup_map hids hm' hm hid
      obtain ⟨-, -, -, n, hn, hnid, -⟩ := adopted_row h hr₀ hkid
      obtain ⟨r', hr', ⟨hrow', -, -, hid'⟩, -⟩ := Pairing.related_left hchildren hn
      have hsame : r'.id = (placed current groups made r₀).id :=
        Option.some.inj (hid'.symm.trans hnid)
      exact eq_of_id (keys_table hlevel) hrow' hr hsame ▸ hr'

omit h in
theorem rowsAt_table (l : Nat) : rowsAt projectId rows' l =
    (rowsAt projectId rows l).map (placed current groups made) ++
      if l = level then made.map Prod.snd else [] := by
  have hmade : rowsAt projectId (made.map Prod.snd) l =
      if l = level then made.map Prod.snd else [] := by
    unfold rowsAt
    split
    · rename_i hl
      refine List.filter_eq_self.mpr fun r hr => ?_
      obtain ⟨m, hm, rfl⟩ := List.mem_map.mp hr
      simp [(hlevel.summary m hm).project, (hlevel.summary m hm).level, hl]
    · rename_i hl
      refine List.filter_eq_nil_iff.mpr fun r hr => ?_
      obtain ⟨m, hm, rfl⟩ := List.mem_map.mp hr
      simp [(hlevel.summary m hm).level, Ne.symm hl]
  rw [← hmade, hlevel.table, rowsAt, List.filter_append, List.filter_map]
  rfl

theorem once_step (l : Nat) : ((rowsAt projectId rows' l).flatMap (·.chunkIds)).Subperm leaves := by
  have hold : ((rowsAt projectId rows l).map (placed current groups made)).flatMap (·.chunkIds) =
      (rowsAt projectId rows l).flatMap (·.chunkIds) := by
    rw [List.flatMap_map]
    rfl
  rw [rowsAt_table hlevel, List.flatMap_append, hold]
  split
  · rename_i hl
    have hnone : rowsAt projectId rows l = [] := by
      refine List.filter_eq_nil_iff.mpr fun r hr hmem => ?_
      obtain ⟨hproject, hrl⟩ := of_decide_eq_true hmem
      have := h.tree.levels r hr hproject
      omega
    rw [hnone, List.flatMap_nil, List.nil_append, List.flatMap_map]
    exact hlevel.chunks.trans h.chunks
  · rw [List.flatMap_nil, List.append_nil]
    exact h.tree.once l

theorem frontier_step (hpos : 1 ≤ level) : Frontier projectId leaves (level + 1) next rows' := by
  have hnode : ∀ n ∈ next, ∃ m ∈ made, nodeOf m.2 = n := fun n hn =>
    List.mem_map.mp (hlevel.next.subset hn)
  refine ⟨keys_table hlevel, ⟨fun r hr hproject => ?_, fun r hr hproject p hp => ?_,
    fun q hq hproject hlow => ?_, once_step h hlevel⟩, fun n hn id hid => ?_, fun _ n hn => ?_, ?_, ?_⟩
  · rcases (mem_table hlevel).mp hr with ⟨r₀, hr₀, rfl⟩ | ⟨m, hm, rfl⟩
    · have := h.tree.levels r₀ hr₀ hproject
      rw [placed_level]
      omega
    · rw [(hlevel.summary m hm).level]
      omega
  · exact above_step h hlevel hr hproject hp
  · rcases (mem_table hlevel).mp hq with ⟨q₀, hq₀, rfl⟩ | ⟨m, hm, rfl⟩
    · exact gathers_old h hlevel (q := q₀) hq₀ hproject hlow
    · rw [(hlevel.summary m hm).level] at hlow
      exact gathers_new h hlevel hm hlow
  · obtain ⟨m, hm, rfl⟩ := hnode n hn
    obtain rfl : m.2.id = id := Option.some.inj hid
    have hsummary := hlevel.summary m hm
    exact ⟨m.2, (mem_table hlevel).mpr (.inr ⟨m, hm, rfl⟩), hsummary.project, rfl,
      by rw [hsummary.level], hsummary.parent, rfl⟩
  · obtain ⟨m, hm, rfl⟩ := hnode n hn
    rfl
  · have hids : (next.filterMap (·.id)).Perm (made.map fun m => m.2.id) := by
      refine (hlevel.next.filterMap _).trans ?_
      rw [List.filterMap_map, ← List.filterMap_eq_map]
      rfl
    exact hids.nodup_iff.mpr (List.nodup_append.mp hlevel.ids).2.1
  · refine List.Subperm.trans ?_ (hlevel.chunks.trans h.chunks)
    refine ((hlevel.next.flatMap_right _).trans ?_).subperm
    rw [List.flatMap_map]
    rfl

/-- A level leaves the rows of other projects, and adds as many rows as it gives nodes. -/
theorem level_counts : rows'.filter (fun r => r.projectId ≠ projectId) =
      rows.filter (fun r => r.projectId ≠ projectId) ∧
    (rows'.filter fun r => r.projectId = projectId).length =
      (rows.filter fun r => r.projectId = projectId).length + next.length := by
  have hothers : ∀ r ∈ rows, r.projectId ≠ projectId → placed current groups made r = r := by
    intro r hr hne
    have hnone : parentIn current groups made r.id = none := by
      rw [Option.eq_none_iff_forall_ne_some]
      intro x hx
      obtain ⟨m, -, hmem, -⟩ := parentIn_some hx
      exact hne (adopted_row h hr hmem).1
    simp [placed, hnone]
  have hmade : ∀ r ∈ made.map Prod.snd, r.projectId = projectId := by
    intro r hr
    obtain ⟨m, hm, rfl⟩ := List.mem_map.mp hr
    exact (hlevel.summary m hm).project
  constructor
  · have hnone : (made.map Prod.snd).filter (fun r => r.projectId ≠ projectId) = [] :=
      List.filter_eq_nil_iff.mpr fun r hr => by simp [hmade r hr]
    rw [hlevel.table, List.filter_append, hnone, List.append_nil, List.filter_map]
    refine (List.map_congr_left fun r hr => ?_).trans (List.map_id _)
    obtain ⟨hmem, hne⟩ := List.mem_filter.mp hr
    exact hothers r hmem fun he => by simp [he] at hne
  · have hall : (made.map Prod.snd).filter (fun r => r.projectId = projectId) = made.map Prod.snd :=
      List.filter_eq_self.mpr fun r hr => by simp [hmade r hr]
    rw [hlevel.table, List.filter_append, hall, List.filter_map, List.length_append, List.length_map,
      List.length_map, hlevel.next.length_eq, List.length_map]
    rfl

end Step

/-! All levels. -/

/-- What the world does as it should: one label for each vector, and every cluster of a level ends
once. -/
structure World.Fair (w : World ι ε) : Prop where
  labelled : ∀ vectors k, (w.kmeans vectors k).length = vectors.length
  ends : ∀ level n, (w.order level n).Perm (List.range n)

theorem buildLevels_spec (hw : w.Fair) {left created : Nat} (hpos : 1 ≤ level)
    (h : Frontier projectId leaves level current rows)
    (hcreated : (rows.filter fun r => r.projectId = projectId).length = created)
    (htop : level + left ≤ top + 1) :
    let out := buildLevels w projectId left level current rows created
    Tree projectId leaves top out.1 ∧ (out.1.filter fun r => r.projectId = projectId).length = out.2 ∧
      out.1.filter (fun r => r.projectId ≠ projectId) =
        rows.filter fun r => r.projectId ≠ projectId := by
  induction left generalizing level current rows created with
  | zero => exact ⟨h.tree.mono (by omega), hcreated, rfl⟩
  | succ left ih =>
    have hstop : Tree projectId leaves top rows ∧
        (rows.filter fun r => r.projectId = projectId).length = created ∧
          rows.filter (fun r => r.projectId ≠ projectId) =
            rows.filter fun r => r.projectId ≠ projectId :=
      ⟨h.tree.mono (by omega), hcreated, rfl⟩
    simp only [buildLevels]
    split
    · exact hstop
    · split
      · exact hstop
      · generalize hk : min ((current.length + clusterTargetSize - 1) / clusterTargetSize)
          maxClustersPerLevel = k
        have hgroups : (groupByLabel (w.kmeans (current.map (·.embedding)) k)).flatten.Perm
            (List.range current.length) := by
          have hperm := groupByLabel_perm (w.kmeans (current.map (·.embedding)) k)
          rwa [hw.labelled, List.length_map] at hperm
        generalize groupByLabel (w.kmeans (current.map (·.embedding)) k) = groups at hgroups
        obtain ⟨made, hlevel⟩ := level_of_frontier h hgroups
          (hw.ends level groups.length)
        have hnext := frontier_step h hlevel hpos
        obtain ⟨hothers, hcount⟩ := level_counts h hlevel
        split
        · rename_i hempty
          rw [List.isEmpty_iff] at hempty
          refine ⟨hnext.tree.mono (by omega), ?_, hothers⟩
          rw [hcount, hempty, hcreated]
          rfl
        · obtain ⟨htree, hrows, hsame⟩ := ih (by omega) hnext (by rw [hcount, hcreated]) (by omega)
          exact ⟨htree, hrows, hsame.trans hothers⟩

theorem frontier_start (leaves : List (ι × Text × ε)) (hkeys : (rows.map (·.id)).Nodup) :
    Frontier projectId (leaves.map Prod.fst) 1 (leaves.map leafNode)
      (rows.filter fun r => r.projectId ≠ projectId) := by
  have hnone : ∀ r ∈ rows.filter (fun r => r.projectId ≠ projectId), r.projectId ≠ projectId :=
    fun r hr => by simpa using (List.mem_filter.mp hr).2
  refine ⟨hkeys.sublist (List.filter_sublist.map _), ⟨fun r hr hp => absurd hp (hnone r hr),
    fun r hr hp => absurd hp (hnone r hr), fun q hq hp => absurd hp (hnone q hq), fun l => ?_⟩,
    fun n hn id hid => ?_, fun hlt => absurd hlt (lt_irrefl 1), ?_, ?_⟩
  · have hrows : rowsAt projectId (rows.filter fun r => r.projectId ≠ projectId) l = [] :=
      List.filter_eq_nil_iff.mpr fun r hr hmem => hnone r hr (of_decide_eq_true hmem).1
    rw [hrows]
    exact List.nil_subperm
  · obtain ⟨leaf, -, rfl⟩ := List.mem_map.mp hn
    cases hid
  · have hids : (leaves.map leafNode).filterMap (·.id) = [] := by
      rw [List.filterMap_map]
      exact List.filterMap_eq_nil_iff.mpr fun leaf _ => rfl
    rw [hids]
    exact .nil
  · have hchunks : (leaves.map leafNode).flatMap (·.leafChunkIds) = leaves.map Prod.fst := by
      rw [List.flatMap_map, ← List.flatMap_singleton' (leaves.map Prod.fst), List.flatMap_map]
      rfl
    rw [hchunks]

/-- Whatever fails and in whichever order the clusters end, a build leaves a forest over the chunks,
counts its rows, and touches no other project; where it builds nothing it leaves the table. -/
theorem build_leaves_forest (hw : w.Fair) {leaves : List (ι × Text × ε)} {depthMode : Text}
    (hkeys : (rows.map (·.id)).Nodup) :
    let out := build w projectId depthMode leaves rows
    if depthLevels depthMode = 0 ∨ leaves.length < minNodesToCluster then out = (rows, 0)
    else
      Tree projectId (leaves.map Prod.fst) (depthLevels depthMode) out.1 ∧
        (out.1.filter fun r => r.projectId = projectId).length = out.2 ∧
        out.1.filter (fun r => r.projectId ≠ projectId) =
          rows.filter fun r => r.projectId ≠ projectId := by
  dsimp only
  unfold build
  split
  · rename_i hstop
    rcases hstop with hdepth | hfew
    · rw [if_pos hdepth]
    · rw [if_pos hfew, ite_self]
  · rename_i hstop
    rw [not_or] at hstop
    rw [if_neg hstop.1, if_neg hstop.2]
    have hnone : ((rows.filter fun r => r.projectId ≠ projectId).filter
        fun r => r.projectId = projectId).length = 0 := by
      simp [List.filter_filter]
    obtain ⟨htree, hcount, hothers⟩ := buildLevels_spec hw le_rfl
      (frontier_start leaves hkeys) hnone (Nat.le_of_eq (Nat.add_comm 1 _))
    refine ⟨htree, hcount, hothers.trans ?_⟩
    simp [List.filter_filter]

/-- A model that answers with its prompt, and one cluster for the chunks of even and one for those of
odd number; the second cluster ends first. -/
def echoWorld : World Nat Nat where
  kmeans vectors _ := vectors.map fun v => v % 2
  calls level i := ⟨some, fun _ => some 0, 100 * level + i⟩
  order _ n := (List.range n).reverse

theorem build_leaves_forest_echo :
    Tree 0 [1, 2, 3, 4, 5] 2 (build echoWorld 0 "full_report".toList
      [(1, [], 1), (2, [], 2), (3, [], 3), (4, [], 4), (5, [], 5)] []).1 := by
  have hw : echoWorld.Fair := ⟨by simp [echoWorld], fun _ n => List.reverse_perm _⟩
  have h := @build_leaves_forest Nat Nat _ echoWorld 0 [] hw
    [(1, [], 1), (2, [], 2), (3, [], 3), (4, [], 4), (5, [], 5)] "full_report".toList .nil
  have hbuilds : ¬ (depthLevels "full_report".toList = 0 ∨ 5 < minNodesToCluster) := by decide
  exact (if_neg hbuilds ▸ h : _ ∧ _).1

end RownRg.Raptor

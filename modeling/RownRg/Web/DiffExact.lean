import RownRg.Lib.Merging
import RownRg.Web.TextDiff

/-! The comparison of two versions loses nothing, and it keeps as much as any could. -/

open PyText Regex Lcs

namespace RownRg.TextDiff

section

variable {α : Type} [DecidableEq α] {x y : α} {xs ys : List α} {below : List Nat} {i j : Nat}

/-! The table and the walk over it. -/

theorem getD_tail (row : List Nat) (j : Nat) : row.tail.getD j 0 = row.getD (j + 1) 0 := by
  cases row <;> simp

theorem headD_eq_getD (row : List Nat) : row.headD 0 = row.getD 0 0 := by
  cases row <;> simp

theorem getD_dpRow (hbelow : ∀ j, below.getD j 0 = lcs xs (ys.drop j)) (j : Nat) :
    (dpRow x ys below).getD j 0 = lcs (x :: xs) (ys.drop j) := by
  induction ys generalizing below j with
  | nil => cases j <;> simp [dpRow]
  | cons y ys ih =>
    have hrest := @ih below.tail fun j => by simpa [getD_tail] using hbelow (j + 1)
    cases j with
    | zero =>
      have h₀ := hbelow 0
      have h₁ := hbelow 1
      have h₂ := hrest 0
      simp only [List.drop_zero, List.drop_succ_cons] at h₀ h₁ h₂
      simp only [dpRow, List.getD_cons_zero, List.drop_zero, headD_eq_getD, getD_tail, lcs_cons,
        h₀, h₁, h₂, Nat.zero_add]
    | succ j => simpa [dpRow] using hrest j

/-- The table holds the length for every pair of ends. -/
theorem dp_eq_lcs (xs ys : List α) (i j : Nat) : dp xs ys i j = lcs (xs.drop i) (ys.drop j) := by
  unfold dp
  induction xs generalizing i j with
  | nil =>
    cases i with
    | zero =>
      by_cases hj : j < ys.length + 1 <;> simp [dpTable, hj]
    | succ i => simp [dpTable]
  | cons x xs ih =>
    cases i with
    | zero =>
      have hhead : (dpTable ys xs).headD [] = (dpTable ys xs).getD 0 [] := by
        cases dpTable ys xs <;> simp
      simp only [dpTable, List.getD_cons_zero, List.drop_zero]
      refine getD_dpRow (fun j => ?_) j
      rw [hhead]
      simpa using ih 0 j
    | succ i => simpa [dpTable] using ih i j

theorem walk_spec {dp : Nat → Nat → Nat}
    (hdp : ∀ i' j', dp (i + i') (j + j') = lcs (xs.drop i') (ys.drop j')) :
    before (walk dp i j xs ys) = xs ∧ after (walk dp i j xs ys) = ys ∧
      (kept (walk dp i j xs ys)).length = lcs xs ys := by
  fun_induction walk dp i j xs ys with
  | case1 i j xs y ys ih =>
    obtain ⟨hbefore, hafter, hkept⟩ := ih fun i' j' => by
      simpa [Nat.add_assoc, Nat.add_comm 1] using hdp (i' + 1) (j' + 1)
    simp [before, after, kept, hbefore, hafter, hkept, lcs_cons]
  | case2 i j x xs y ys hne hge ih =>
    obtain ⟨hbefore, hafter, hkept⟩ := ih fun i' j' => by
      simpa [Nat.add_assoc, Nat.add_comm 1] using hdp (i' + 1) j'
    have hdel := hdp 1 0
    have hadd := hdp 0 1
    simp only [Nat.add_zero, List.drop_zero, List.drop_succ_cons] at hdel hadd
    simp only [before, after, kept, hbefore, hafter, hkept, lcs_cons, if_neg hne, true_and]
    omega
  | case3 i j x xs y ys hne hlt ih =>
    obtain ⟨hbefore, hafter, hkept⟩ := ih fun i' j' => by
      simpa [Nat.add_assoc, Nat.add_comm 1] using hdp i' (j' + 1)
    have hdel := hdp 1 0
    have hadd := hdp 0 1
    simp only [Nat.add_zero, List.drop_zero, List.drop_succ_cons] at hdel hadd
    simp only [before, after, kept, hbefore, hafter, hkept, lcs_cons, if_neg hne, true_and]
    omega
  | case4 i j xs ys hends =>
    have hnone : lcs xs ys = 0 := by
      cases xs with
      | nil => simp
      | cons x xs =>
        cases ys with
        | nil => simp
        | cons y ys => exact absurd rfl (fun h => hends x xs y ys rfl h)
    simp [hnone]

theorem edits_spec (xs ys : List α) : before (edits xs ys) = xs ∧ after (edits xs ys) = ys ∧
    (kept (edits xs ys)).length = lcs xs ys :=
  walk_spec fun i j => by simp [dp_eq_lcs]

end

/-! Tokens: the runs of blanks and the runs between them. -/

variable {a b t u v w : Text} {c : Char} {ts : List Text} {ps : List (Piece Unit)}

def sameClass (c d : Char) : Bool := Script.isSpace c == Script.isSpace d

theorem blind_spaces : spaces.Blind := ⟨trivial, trivial⟩

theorem pieces_spaces_plain (hc : Script.isSpace c = false) :
    spaces.pieces (c :: t) = .plain c :: spaces.pieces t := by
  refine pieces_plain blind_spaces (first_none ?_)
  rw [spaces, plus]
  exact run_seq_none (run_cls_none (by simpa using hc))

theorem pieces_spaces_hit (hw : ∀ c ∈ w, Script.isSpace c) (hne : w ≠ [])
    (hv : ∀ c ∈ v.head?, Script.isSpace c = false) :
    spaces.pieces (w ++ v) = .hit ⟨w, []⟩ :: spaces.pieces v := by
  obtain ⟨l, hrun⟩ := run_plus_stop (x := []) (k := ([] : List (Unit × Text))) hw hne hv
  refine pieces_hit blind_spaces hne ?_
  rw [first, spaces, hrun, List.head?_cons, Option.map_some]
  rw [since_skip (t := ⟨w.reverse ++ [], v, []⟩) rfl]

theorem splitBy_class {p : Bool} (hne : w ≠ []) (hw : ∀ c ∈ w, Script.isSpace c = p) :
    w.splitBy sameClass = [w] := by
  refine List.splitBy_of_isChain hne ?_
  refine List.Pairwise.isChain (List.pairwise_of_forall_mem_list fun c hc d hd => ?_)
  simp [sameClass, hw c hc, hw d hd]

theorem splitCaptured_spaces (hu : ∀ c ∈ u, Script.isSpace c = false) :
    (splitCaptured u (spaces.pieces t)).filter (fun t => t.length > 0) =
      (u ++ t).splitBy sameClass := by
  induction hn : t.length using Nat.strong_induction_on generalizing t u with
  | _ n ih =>
    cases t with
    | nil =>
      by_cases hnil : u = []
      · simp [splitCaptured, hnil]
      · simp [splitCaptured, splitBy_class hnil hu, List.length_pos_of_ne_nil hnil]
    | cons c t =>
      cases hc : Script.isSpace c with
      | false =>
        have hall : ∀ d ∈ u ++ [c], Script.isSpace d = false := by
          intro d hd
          rcases List.mem_append.mp hd with hd | hd
          · exact hu d hd
          · obtain rfl := List.mem_singleton.mp hd
            exact hc
        rw [pieces_spaces_plain hc, splitCaptured, ih t.length (by simp [← hn]) hall rfl]
        simp
      | true =>
        generalize hw : (c :: t).takeWhile Script.isSpace = w
        generalize hv : (c :: t).dropWhile Script.isSpace = v
        have hsplit : c :: t = w ++ v := by rw [← hw, ← hv, List.takeWhile_append_dropWhile]
        have hblank : ∀ d ∈ w, Script.isSpace d = true := by
          intro d hd
          exact List.mem_takeWhile_imp (hw ▸ hd)
        have hne : w ≠ [] := by
          rw [← hw]
          simp [hc]
        have hhead : ∀ d ∈ v.head?, Script.isSpace d = false := hv ▸ head?_dropWhile (c :: t)
        have hlen : v.length < n := by
          have hlen := congrArg List.length hsplit
          have hpos := List.length_pos_of_ne_nil hne
          rw [List.length_append] at hlen
          omega
        have hrest := ih v.length hlen (u := []) (by simp) rfl
        have hjoin : (w ++ v).splitBy sameClass = w :: v.splitBy sameClass := by
          rw [List.splitBy_append, splitBy_class hne hblank]
          · rfl
          · intro x hx y hy
            simp [sameClass, hblank x (List.mem_of_getLast? hx), hhead y hy]
        have hfront : (u ++ (w ++ v)).splitBy sameClass =
            u.splitBy sameClass ++ w :: v.splitBy sameClass := by
          rw [List.splitBy_append, hjoin]
          intro x hx y hy
          rw [List.head?_append_of_ne_nil _ hne] at hy
          simp [sameClass, hu x (List.mem_of_getLast? hx), hblank y (List.mem_of_head? hy)]
        rw [hsplit, pieces_spaces_hit hblank hne hhead, splitCaptured, hfront]
        rw [List.nil_append] at hrest
        by_cases hnil : u = []
        · simp [hnil, hrest, List.length_pos_of_ne_nil hne]
        · simp [splitBy_class hnil hu, hrest, List.length_pos_of_ne_nil hne,
            List.length_pos_of_ne_nil hnil]

/-- The tokens are the longest stretches of blanks and of other characters. -/
theorem tokens_eq (t : Text) : tokens t = t.splitBy sameClass :=
  splitCaptured_spaces (u := []) (by simp)

theorem flatten_tokens (t : Text) : (tokens t).flatten = t := by
  rw [tokens_eq, List.flatten_splitBy]

/-- A stretch of the tokens of a text is read back from its characters. -/
theorem tokens_flatten (h : ts <:+: tokens t) : tokens ts.flatten = ts := by
  rw [tokens_eq] at h ⊢
  obtain ⟨front, back, heq⟩ := h
  obtain ⟨-, hne, hchain, hends⟩ := List.splitBy_eq_iff.mp heq.symm
  refine List.splitBy_flatten ?_ ?_ ?_
  · exact fun hmem => hne (by simp [hmem])
  · exact fun m hm => hchain m (by simp [hm])
  · exact hends.left_of_append.right_of_append

/-! Words. -/

def typeOf : Edit Text → OpType
  | .same _ => .same
  | .del _ => .del
  | .add _ => .add

def textOf : Edit Text → Text
  | .same t | .del t | .add t => t

/-- The edits that were pushed into one piece. -/
structure MadeOf (op : DiffOp) (es : List (Edit Text)) : Prop where
  type : ∀ e ∈ es, typeOf e = op.type
  text : op.text = (es.map textOf).flatten

theorem extends_pushEdit : Merging.Extends MadeOf pushEdit := by
  intro ops e
  have hpush : pushEdit ops e = push ops (typeOf e) (textOf e) := by cases e <;> rfl
  have hself : MadeOf ⟨typeOf e, textOf e⟩ [e] := ⟨by simp, by simp⟩
  rw [hpush, push]
  cases hlast : ops.getLast? with
  | none => exact .inl ⟨_, rfl, hself⟩
  | some last =>
    dsimp only
    split
    · rename_i htype
      refine .inr ⟨ops.dropLast, last, _, (List.dropLast_append_getLast? last hlast).symm, rfl, ?_⟩
      intro es hes
      refine ⟨fun d hd => ?_, by simp [hes.text]⟩
      rcases List.mem_append.mp hd with hd | hd
      · exact hes.type d hd
      · rw [List.mem_singleton.mp hd]
        exact htype.symm
    · exact .inl ⟨_, rfl, hself⟩

/-- The text of the pieces of some types. -/
def piecesText (types : OpType → Bool) (ops : List DiffOp) : Text :=
  ((ops.filter fun op => types op.type).map (·.text)).flatten

theorem piecesText_groups {types : OpType → Bool} {ops : List DiffOp}
    {groups : List (List (Edit Text))} (h : List.Forall₂ MadeOf ops groups) :
    piecesText types ops =
      ((groups.flatten.filter fun e => types (typeOf e)).map textOf).flatten := by
  induction h with
  | nil => rfl
  | @cons op es ops groups hop hrest ih =>
    have hall : es.filter (fun e => types (typeOf e)) = if types op.type then es else [] := by
      split
      · rename_i htype
        exact List.filter_eq_self.mpr fun e he => by rw [hop.type e he, htype]
      · rename_i htype
        exact List.filter_eq_nil_iff.mpr fun e he => by rwa [hop.type e he]
    have hcons : piecesText types (op :: ops) =
        (if types op.type then op.text else []) ++ piecesText types ops := by
      unfold piecesText
      rw [List.filter_cons]
      split <;> simp
    rw [hcons, ih, List.flatten_cons, List.filter_append, hall, List.map_append,
      List.flatten_append]
    split
    · rw [hop.text]
    · rfl

theorem before_eq_map (es : List (Edit Text)) :
    before es = (es.filter fun e => typeOf e = .same || typeOf e = .del).map textOf := by
  induction es with
  | nil => rfl
  | cons e es ih => cases e <;> simp [before, ih, typeOf, textOf]

theorem after_eq_map (es : List (Edit Text)) :
    after es = (es.filter fun e => typeOf e = .same || typeOf e = .add).map textOf := by
  induction es with
  | nil => rfl
  | cons e es ih => cases e <;> simp [after, ih, typeOf, textOf]

/-- The number of tokens in the pieces that both texts share. -/
def sameTokens (ops : List DiffOp) : Nat :=
  ((ops.filter fun op => op.type = .same).map fun op => (tokens op.text).length).sum

theorem before_of_same {es : List (Edit Text)} (h : ∀ e ∈ es, typeOf e = .same) :
    before es = es.map textOf ∧ (kept es).length = es.length := by
  induction es with
  | nil => exact ⟨rfl, rfl⟩
  | cons e es ih =>
    obtain ⟨he, hes⟩ := List.forall_mem_cons.mp h
    obtain ⟨hbefore, hkept⟩ := ih hes
    cases e with
    | same t => simp [before, kept, textOf, hbefore, hkept]
    | del t | add t => cases he

theorem kept_of_changed {es : List (Edit Text)} (h : ∀ e ∈ es, typeOf e ≠ .same) : kept es = [] := by
  induction es with
  | nil => rfl
  | cons e es ih =>
    obtain ⟨he, hes⟩ := List.forall_mem_cons.mp h
    cases e with
    | same t => exact absurd rfl he
    | del t | add t => exact ih hes

/-- Every kept token is a token of the piece that it was pushed into. -/
theorem sameTokens_groups {ops : List DiffOp} {groups : List (List (Edit Text))}
    (h : List.Forall₂ MadeOf ops groups) (front : List (Edit Text))
    (hbefore : before (front ++ groups.flatten) = tokens a) :
    sameTokens ops = (kept groups.flatten).length := by
  induction h generalizing front with
  | nil => rfl
  | @cons op es ops groups hop hrest ih =>
    have hnext := ih (front ++ es) (by simpa [List.append_assoc] using hbefore)
    rw [List.flatten_cons, kept_append, List.length_append, ← hnext]
    by_cases htype : op.type = .same
    · obtain ⟨hes, hkept⟩ := before_of_same fun e he => (hop.type e he).trans htype
      have hinfix : es.map textOf <:+: tokens a := by
        rw [← hbefore, List.flatten_cons, before_append, before_append, hes]
        exact ⟨before front, before groups.flatten, by simp⟩
      have hcount : (tokens op.text).length = es.length := by
        rw [hop.text, tokens_flatten hinfix, List.length_map]
      simp [sameTokens, htype, hcount, hkept]
    · have hkept : kept es = [] := kept_of_changed fun e he => by rwa [hop.type e he]
      simp [sameTokens, htype, hkept]

theorem diffWords_self (a : Text) : diffWords a a = if a.isEmpty then [] else [⟨.same, a⟩] := by
  simp [diffWords]

theorem diffWords_edits (hne : a ≠ b) (ha : (tokens a).length ≤ maxTokens)
    (hb : (tokens b).length ≤ maxTokens) :
    diffWords a b = (edits (tokens a) (tokens b)).foldl pushEdit [] := by
  have hcap : ¬ ((tokens a).length > maxTokens || (tokens b).length > maxTokens) = true := by
    simp only [Bool.or_eq_true, decide_eq_true_eq]
    omega
  simp only [diffWords, if_neg hne, if_neg hcap]

theorem diffWords_whole (hne : a ≠ b)
    (hcap : ¬ ((tokens a).length ≤ maxTokens ∧ (tokens b).length ≤ maxTokens)) :
    diffWords a b = [⟨.del, a⟩, ⟨.add, b⟩] := by
  have hcap' : ((tokens a).length > maxTokens || (tokens b).length > maxTokens) = true := by
    simp only [Bool.or_eq_true, decide_eq_true_eq]
    omega
  simp only [diffWords, if_neg hne, if_pos hcap']

/-- The pieces give back both texts. -/
theorem diffWords_texts (a b : Text) :
    piecesText (fun type => type = .same || type = .del) (diffWords a b) = a ∧
      piecesText (fun type => type = .same || type = .add) (diffWords a b) = b := by
  by_cases hne : a = b
  · subst hne
    rw [diffWords_self]
    cases a <;> simp [piecesText]
  · by_cases hcap : (tokens a).length ≤ maxTokens ∧ (tokens b).length ≤ maxTokens
    · obtain ⟨groups, hflat, hgroups⟩ :=
        Merging.exists_groups extends_pushEdit (edits (tokens a) (tokens b))
      obtain ⟨hbefore, hafter, -⟩ := edits_spec (tokens a) (tokens b)
      rw [diffWords_edits hne hcap.1 hcap.2, piecesText_groups hgroups, piecesText_groups hgroups,
        hflat, ← before_eq_map, ← after_eq_map, hbefore, hafter, flatten_tokens, flatten_tokens]
      exact ⟨rfl, rfl⟩
    · rw [diffWords_whole hne hcap]
      simp [piecesText]

/-- No comparison keeps more tokens. -/
theorem diffWords_greatest (ha : (tokens a).length ≤ maxTokens)
    (hb : (tokens b).length ≤ maxTokens) :
    IsGreatest (commonLengths (tokens a) (tokens b)) (sameTokens (diffWords a b)) := by
  by_cases hne : a = b
  · subst hne
    have hsame : sameTokens (diffWords a a) = (tokens a).length := by
      rw [diffWords_self]
      cases a <;> simp [sameTokens, tokens_eq]
    rw [hsame]
    exact ⟨⟨tokens a, List.Sublist.refl _, List.Sublist.refl _, rfl⟩,
      fun n ⟨zs, hzs, _, hlen⟩ => hlen ▸ hzs.length_le⟩
  · obtain ⟨groups, hflat, hgroups⟩ :=
      Merging.exists_groups extends_pushEdit (edits (tokens a) (tokens b))
    obtain ⟨hbefore, hafter, hkept⟩ := edits_spec (tokens a) (tokens b)
    have hcount := sameTokens_groups (a := a) hgroups [] (by rw [List.nil_append, hflat, hbefore])
    rw [diffWords_edits hne ha hb, hcount, hflat]
    exact isGreatest_kept hbefore hafter hkept

/-! Blocks. -/

def BlockOp.old : BlockOp → List Text
  | .same t | .del t => [t]
  | .add _ => []
  | .change t _ => [t]

def BlockOp.new : BlockOp → List Text
  | .same t | .add t => [t]
  | .del _ => []
  | .change _ t => [t]

def BlockOp.shared : BlockOp → List Text
  | .same t => [t]
  | _ => []

theorem takeDels_eq (raw : List (Edit Text)) :
    raw = (takeDels raw).1.map .del ++ (takeDels raw).2 := by
  induction raw with
  | nil => rfl
  | cons e raw ih =>
    cases e with
    | del t => simpa [takeDels] using ih
    | same t | add t => rfl

theorem takeAdds_eq (raw : List (Edit Text)) :
    raw = (takeAdds raw).1.map .add ++ (takeAdds raw).2 := by
  induction raw with
  | nil => rfl
  | cons e raw ih =>
    cases e with
    | add t => simpa [takeAdds] using ih
    | same t | del t => rfl

theorem pairUp_spec (dels adds : List Text) : (pairUp dels adds).flatMap BlockOp.old = dels ∧
    (pairUp dels adds).flatMap BlockOp.new = adds ∧
    (pairUp dels adds).flatMap BlockOp.shared = [] := by
  have hdels : ∀ dels : List Text, (dels.map BlockOp.del).flatMap BlockOp.old = dels ∧
      (dels.map BlockOp.del).flatMap BlockOp.new = [] ∧
      (dels.map BlockOp.del).flatMap BlockOp.shared = [] := by
    intro dels
    simp [List.flatMap_map, BlockOp.old, BlockOp.new, BlockOp.shared]
  have hadds : ∀ adds : List Text, (adds.map BlockOp.add).flatMap BlockOp.old = [] ∧
      (adds.map BlockOp.add).flatMap BlockOp.new = adds ∧
      (adds.map BlockOp.add).flatMap BlockOp.shared = [] := by
    intro adds
    simp [List.flatMap_map, BlockOp.old, BlockOp.new, BlockOp.shared]
  fun_induction pairUp dels adds with
  | case1 d dels a adds ih =>
    obtain ⟨hold, hnew, hshared⟩ := ih
    simp [hold, hnew, hshared, BlockOp.old, BlockOp.new, BlockOp.shared]
  | case2 dels adds _ =>
    obtain ⟨hold, hnew, hshared⟩ := hdels dels
    obtain ⟨hold', hnew', hshared'⟩ := hadds adds
    simp only [List.flatMap_append, hold, hnew, hshared, hold', hnew', hshared']
    simp

/-- Pairing deletions with additions changes nothing of what is found, left and kept. -/
theorem regroup_spec (raw : List (Edit Text)) : (regroup raw).flatMap BlockOp.old = before raw ∧
    (regroup raw).flatMap BlockOp.new = after raw ∧
    (regroup raw).flatMap BlockOp.shared = kept raw := by
  fun_induction regroup raw with
  | case1 => exact ⟨rfl, rfl, rfl⟩
  | case2 t raw ih | case3 t raw ih =>
    obtain ⟨hold, hnew, hshared⟩ := ih
    simp [hold, hnew, hshared, BlockOp.old, BlockOp.new, BlockOp.shared, before, after, kept]
  | case4 t raw dels adds ih =>
    obtain ⟨hold, hnew, hshared⟩ := ih
    obtain ⟨hold', hnew', hshared'⟩ := pairUp_spec (t :: dels.1) adds.1
    have hraw : raw = dels.1.map .del ++ (adds.1.map .add ++ adds.2) := by
      rw [← takeAdds_eq]
      exact takeDels_eq raw
    simp only [List.flatMap_append, hold, hnew, hshared, hold', hnew', hshared']
    rw [hraw]
    simp [before, after, kept]

/-- The comparison gives back both texts, by words and by blocks, and none keeps more of them. -/
theorem diff_exact (a b old new : Text) :
    (piecesText (fun type => type = .same || type = .del) (diffWords a b) = a ∧
      piecesText (fun type => type = .same || type = .add) (diffWords a b) = b) ∧
    ((tokens a).length ≤ maxTokens → (tokens b).length ≤ maxTokens →
      IsGreatest (commonLengths (tokens a) (tokens b)) (sameTokens (diffWords a b))) ∧
    (diffBlocks old new).flatMap BlockOp.old = splitBlocks old ∧
    (diffBlocks old new).flatMap BlockOp.new = splitBlocks new ∧
    IsGreatest (commonLengths (splitBlocks old) (splitBlocks new))
      ((diffBlocks old new).flatMap BlockOp.shared).length := by
  obtain ⟨hbefore, hafter, hkept⟩ := edits_spec (splitBlocks old) (splitBlocks new)
  obtain ⟨hold, hnew, hshared⟩ := regroup_spec (edits (splitBlocks old) (splitBlocks new))
  refine ⟨diffWords_texts a b, diffWords_greatest, hold.trans hbefore, hnew.trans hafter, ?_⟩
  rw [diffBlocks, hshared]
  exact isGreatest_kept hbefore hafter hkept

theorem diff_exact_price : IsGreatest
    (commonLengths (tokens "값 3%".toList) (tokens "값 5%".toList))
    (sameTokens (diffWords "값 3%".toList "값 5%".toList)) :=
  (diff_exact "값 3%".toList "값 5%".toList [] []).2.1 (by decide) (by decide)

end RownRg.TextDiff

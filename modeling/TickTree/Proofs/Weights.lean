import Mathlib
import TickTree.Proofs.Placement
import TickTree.Proofs.Walks

/-!
# Choosing by weight

A random node draws from a table that holds the first instruction of each child as often as the
child weighs. The words that choose a given entry are a window of `2 ^ leadingZeros n` words in a
row, as many for each of the `n` entries (`Random.card_words_of_place`). So the words by which a
branch goes on at a child are as many for each unit of its weight (`Node.chooses_by_weight`), and
none chooses a child that weighs nothing.
-/

namespace TickTree

/-! ## Words -/

namespace Random

/-- An entry count of at most thirty-two binary digits, moved up to the last of them. -/
theorem mul_leadingZeros_bounds {n : Nat} (hn : 0 < n) (hsmall : n < wordCount) :
    0 < n * 2 ^ leadingZeros n ∧ n * 2 ^ leadingZeros n < wordCount := by
  have hlog : n.log2 < 32 := (Nat.log2_lt (Nat.ne_of_gt hn)).2 hsmall
  refine ⟨Nat.mul_pos hn (Nat.two_pow_pos _), ?_⟩
  calc n * 2 ^ leadingZeros n
      < 2 ^ (n.log2 + 1) * 2 ^ leadingZeros n :=
        Nat.mul_lt_mul_of_pos_right Nat.lt_log2_self (Nat.two_pow_pos _)
    _ = 2 ^ 32 := by rw [← pow_add, leadingZeros, show n.log2 + 1 + (31 - n.log2) = 32 by omega]
    _ = wordCount := rfl

/-- The largest lower half that is accepted comes of moving up the entry count as a word. -/
theorem zone_eq_shiftLeft {n : Nat} (hn : 0 < n) (hsmall : n < wordCount) :
    zone n = (UInt32.ofNat n <<< UInt32.ofNat (leadingZeros n)).toNat - 1 := by
  have hzeros : leadingZeros n < 32 := by
    rw [leadingZeros]
    omega
  have hfits := (mul_leadingZeros_bounds hn hsmall).2
  have hn' : (UInt32.ofNat n).toNat = n := UInt32.toNat_ofNat_of_lt' hsmall
  have hz' : (UInt32.ofNat (leadingZeros n)).toNat = leadingZeros n :=
    UInt32.toNat_ofNat_of_lt' (Nat.lt_trans hzeros (by decide))
  rw [UInt32.toNat_shiftLeft, hn', hz', Nat.mod_eq_of_lt hzeros, Nat.shiftLeft_eq,
    Nat.mod_eq_of_lt (show n * 2 ^ leadingZeros n < 2 ^ 32 from hfits)]
  rfl

/-- A word chooses a place if its product with the entry count lies in the window of that place. -/
theorem placeOf_eq_some_iff {n k : Nat} (hn : 0 < n) (hsmall : n < wordCount) (word : UInt32) :
    placeOf n word = some k ↔
      k * wordCount ≤ word.toNat * n ∧ word.toNat * n < k * wordCount + n * 2 ^ leadingZeros n := by
  obtain ⟨hpos, hfits⟩ := mul_leadingZeros_bounds hn hsmall
  have hzone : zone n + 1 = n * 2 ^ leadingZeros n := Nat.sub_add_cancel hpos
  have hdiv := Nat.div_add_mod (word.toNat * n) wordCount
  have hmod := Nat.mod_lt (word.toNat * n) (show 0 < wordCount by decide)
  rw [placeOf]
  split
  · rename_i haccepted
    rw [Option.some.injEq]
    constructor
    · rintro rfl
      rw [Nat.mul_comm] at hdiv
      omega
    · rintro ⟨hlo, hhi⟩
      exact Nat.div_eq_of_lt_le hlo (by rw [Nat.succ_mul]; omega)
  · rename_i hrejected
    refine iff_of_false (by simp) ?_
    rintro ⟨hlo, hhi⟩
    have hplace : word.toNat * n / wordCount = k :=
      Nat.div_eq_of_lt_le hlo (by rw [Nat.succ_mul]; omega)
    rw [hplace, Nat.mul_comm] at hdiv
    omega

/-- Each place is chosen by equally many of all words. -/
theorem card_words_of_place {n k : Nat} (hsmall : n < wordCount) (hk : k < n) :
    ((Finset.range wordCount).filter fun word => placeOf n (.ofNat word) = some k).card =
      2 ^ leadingZeros n := by
  have hn : 0 < n := Nat.zero_lt_of_lt hk
  obtain ⟨hpos, hfits⟩ := mul_leadingZeros_bounds hn hsmall
  -- The first word whose product is not below the window.
  let first := (k * wordCount + (n - 1)) / n
  have hfirst : ∀ word, first ≤ word ↔ k * wordCount ≤ word * n := by
    intro word
    rw [← Nat.lt_succ_iff, Nat.div_lt_iff_lt_mul hn, Nat.succ_mul]
    omega
  have hlast : ∀ word,
      word < first + 2 ^ leadingZeros n ↔ word * n < k * wordCount + n * 2 ^ leadingZeros n := by
    intro word
    by_cases hword : word < 2 ^ leadingZeros n
    · have hproduct : word * n < n * 2 ^ leadingZeros n := by
        rw [Nat.mul_comm n]
        exact Nat.mul_lt_mul_of_pos_right hword hn
      exact iff_of_true (Nat.lt_add_left first hword) (Nat.lt_add_left _ hproduct)
    · obtain ⟨rest, rfl⟩ := Nat.exists_eq_add_of_le (Nat.not_lt.1 hword)
      have hrest := not_congr (hfirst rest)
      rw [Nat.add_mul, Nat.mul_comm _ n]
      omega
  have hwindow : (Finset.range wordCount).filter (fun word => placeOf n (.ofNat word) = some k) =
      Finset.Ico first (first + 2 ^ leadingZeros n) := by
    ext word
    rw [Finset.mem_filter, Finset.mem_range, Finset.mem_Ico, hfirst, hlast]
    constructor
    · rintro ⟨hword, hplace⟩
      rwa [placeOf_eq_some_iff hn hsmall, UInt32.toNat_ofNat_of_lt' hword] at hplace
    · rintro ⟨hlo, hhi⟩
      have hword : word < wordCount := by
        refine Nat.lt_of_mul_lt_mul_right (a := n) (Nat.lt_of_lt_of_le hhi ?_)
        have hnext := Nat.mul_le_mul_right wordCount (Nat.succ_le_of_lt hk)
        rw [Nat.succ_mul, Nat.mul_comm n] at hnext
        omega
      rw [placeOf_eq_some_iff hn hsmall, UInt32.toNat_ofNat_of_lt' hword]
      exact ⟨hword, hlo, hhi⟩
  rw [hwindow, Nat.card_Ico, Nat.add_sub_cancel_left]

/-- The words by which a draw from a table gives an entry. -/
def wordsTo (table : List Nat) (entry : Nat) : Finset Nat :=
  (Finset.range wordCount).filter fun word =>
    (placeOf table.length (.ofNat word)).bind (table[·]?) = some entry

/-- An entry stands at as many places of a table as it is counted in it. -/
theorem card_places (table : List Nat) (entry : Nat) :
    ((Finset.range table.length).filter fun k => table[k]? = some entry).card =
      table.count entry := by
  induction table using List.reverseRecOn with
  | nil => rfl
  | append_singleton table last ih =>
    have hbefore : ((Finset.range table.length).filter fun k =>
        (table ++ [last])[k]? = some entry) =
          (Finset.range table.length).filter fun k => table[k]? = some entry :=
      Finset.filter_congr fun k hk => by
        rw [List.getElem?_append_left (Finset.mem_range.1 hk)]
    rw [List.length_append, List.length_singleton, Finset.range_add_one, Finset.filter_insert,
      List.getElem?_concat_length, hbefore, List.count_append, List.count_singleton, ← ih]
    by_cases hlast : last = entry
    · simp [hlast]
    · simp [hlast]

/-- A draw gives an entry by so many words for each place it has in the table. -/
theorem card_wordsTo {table : List Nat} (hsmall : table.length < wordCount) (entry : Nat) :
    (wordsTo table entry).card = table.count entry * 2 ^ leadingZeros table.length := by
  have hwords : wordsTo table entry =
      ((Finset.range table.length).filter fun k => table[k]? = some entry).biUnion fun k =>
        (Finset.range wordCount).filter fun word =>
          placeOf table.length (.ofNat word) = some k := by
    ext word
    simp only [wordsTo, Finset.mem_filter, Finset.mem_biUnion, Finset.mem_range,
      Option.bind_eq_some_iff]
    constructor
    · rintro ⟨hword, k, hplace, hentry⟩
      exact ⟨k, ⟨(List.getElem?_eq_some_iff.1 hentry).1, hentry⟩, hword, hplace⟩
    · rintro ⟨k, ⟨-, hentry⟩, hword, hplace⟩
      exact ⟨hword, k, hplace, hentry⟩
  rw [hwords, Finset.card_biUnion, Finset.sum_congr rfl
    fun k hk => card_words_of_place hsmall (Finset.mem_range.1 (Finset.mem_filter.1 hk).1),
    Finset.sum_const, card_places, smul_eq_mul]
  -- A word chooses one place at most.
  intro k _ l _ hkl
  refine Finset.disjoint_left.2 fun word hk hl => hkl ?_
  have hplace := (Finset.mem_filter.1 hk).2
  rw [(Finset.mem_filter.1 hl).2] at hplace
  exact (Option.some.inj hplace).symm

/-- A draw is decided by the first word that is accepted. -/
theorem drawWithin_of_accepted {words : Nat → UInt32} {n k r rejections used : Nat}
    (hr : r ≤ rejections) (hrejected : ∀ q < r, placeOf n (words (used + q)) = none)
    (haccepted : placeOf n (words (used + r)) = some k) :
    drawWithin words n rejections used = (k, used + r + 1) := by
  induction r generalizing rejections used with
  | zero =>
    cases rejections with
    | zero =>
      rw [placeOf] at haccepted
      split at haccepted
      · cases haccepted
        rfl
      · cases haccepted
    | succ rejections =>
      rw [Nat.add_zero] at haccepted
      simp only [drawWithin, haccepted, Nat.add_zero]
  | succ r ih =>
    obtain ⟨rejections, rfl⟩ : ∃ m, rejections = m + 1 := ⟨rejections - 1, by omega⟩
    have hfirst : placeOf n (words used) = none := hrejected 0 (Nat.zero_lt_succ r)
    simp only [drawWithin, hfirst]
    have hnext : ∀ q, used + (q + 1) = used + 1 + q := fun q => by omega
    rw [hnext r] at haccepted ⊢
    refine ih (Nat.le_of_succ_le_succ hr) (fun q hq => ?_) haccepted
    rw [← hnext]
    exact hrejected (q + 1) (Nat.succ_lt_succ hq)

end Random

/-! ## Tables -/

variable {K A : Type}

/-- Below a node everything stands behind its first instruction as it does in the node. -/
theorem Node.offset_append {root node : Node K A} {path : Path} (hat : root.at? path = some node)
    (below : Path) : root.offset (path ++ below) = root.offset path + node.offset below := by
  induction path generalizing root with
  | nil =>
    cases hat
    simp [Node.offset]
  | cons k path ih =>
    obtain ⟨child, hchild, hbelow⟩ := Option.bind_eq_some_iff.1 hat
    simp only [List.cons_append, Node.offset, hchild, Option.elim_some, ih hbelow, Nat.add_assoc]

section

variable {p : Program K A} {children : List (Node K A)} {start : Nat} {exit : Verdict → Nat}
  {table : List Nat}

/-- The table of a random node, child by child. -/
theorem BranchesPlaced.table_eq (h : BranchesPlaced p children start exit table) :
    table = children.zipIdx.flatMap fun entry =>
      List.replicate entry.1.weight.toNat (start + sizes (children.take entry.2)) := by
  induction children generalizing start table with
  | nil => exact h.nil
  | cons first rest ih =>
    obtain ⟨targets, rfl, -, hothers⟩ := h.cons
    rw [List.zipIdx_cons', List.flatMap_cons, List.flatMap_map, ih hothers]
    simp [sizes, Nat.add_assoc]

theorem BranchesPlaced.length_table (h : BranchesPlaced p children start exit table) :
    table.length = totalWeight children := by
  obtain ⟨path, place, code, hcode, -⟩ := h
  exact TickTree.length_table hcode

/-- Nodes in a row begin one behind the other. -/
theorem BranchesPlaced.firsts_inj (h : BranchesPlaced p children start exit table) {j k : Nat}
    (hj : j < children.length) (hk : k < children.length)
    (heq : start + sizes (children.take j) = start + sizes (children.take k)) : j = k := by
  induction children generalizing start table j k with
  | nil => cases hj
  | cons first rest ih =>
    obtain ⟨targets, -, hfirst, hothers⟩ := h.cons
    have hpos := hfirst.size_pos
    cases j with
    | zero =>
      cases k with
      | zero => rfl
      | succ k =>
        simp only [List.take_zero, List.take_succ_cons, sizes] at heq
        omega
    | succ j =>
      cases k with
      | zero =>
        simp only [List.take_zero, List.take_succ_cons, sizes] at heq
        omega
      | succ k =>
        simp only [List.take_succ_cons, sizes, ← Nat.add_assoc] at heq
        rw [ih hothers (Nat.lt_of_succ_lt_succ hj) (Nat.lt_of_succ_lt_succ hk) heq]

/-- Every child stands in the table as often as it weighs. -/
theorem BranchesPlaced.count_table (h : BranchesPlaced p children start exit table) {k : Nat}
    {child : Node K A} (hchild : children[k]? = some child) :
    table.count (start + sizes (children.take k)) = child.weight.toNat := by
  induction children generalizing start table k with
  | nil => cases hchild
  | cons first rest ih =>
    obtain ⟨targets, rfl, hfirst, hothers⟩ := h.cons
    have hpos := hfirst.size_pos
    rw [List.count_append, List.count_replicate]
    cases k with
    | zero =>
      cases hchild
      have hbehind : start ∉ targets := fun hmem => by
        have hbound := (hothers.targets _ hmem).1
        omega
      simp [sizes, List.count_eq_zero_of_not_mem hbehind]
    | succ k =>
      have hrest := ih hothers hchild
      rw [List.take_succ_cons, sizes, ← Nat.add_assoc, hrest, if_neg (by simp; omega),
        Nat.zero_add]

/-- Whatever stands in the table is the first instruction of a child that weighs something. -/
theorem BranchesPlaced.exists_child (h : BranchesPlaced p children start exit table)
    {target : Nat} (hmem : target ∈ table) : ∃ (k : Nat) (child : Node K A),
      children[k]? = some child ∧ 0 < child.weight ∧ target = start + sizes (children.take k) := by
  rw [h.table_eq] at hmem
  obtain ⟨⟨child, k⟩, hentry, htarget⟩ := List.mem_flatMap.1 hmem
  obtain ⟨hweight, rfl⟩ := List.mem_replicate.1 htarget
  refine ⟨k, child, List.mk_mem_zipIdx_iff_getElem?.1 hentry, ?_, rfl⟩
  exact UInt32.lt_iff_toNat_lt.2 (Nat.pos_of_ne_zero hweight)

end

/-! ## Draws -/

section

variable [DecidableEq K] (tick : Tick K A) (handler : Handler K A) {table : List Nat}

/-- A random branch goes on at an entry of its table. -/
theorem Tick.dispatch_draws (hne : table ≠ []) (index : Nat) (resumed : Bool) {yes no : Nat}
    (s : AgentState) (w : World K A) : ∃ target ∈ table, ∃ w',
      tick.dispatch handler index resumed ⟨.randomBranch table, yes, no⟩ s w =
        .done (.goto target, s) w' := by
  obtain ⟨first, rest, rfl⟩ := List.exists_cons_of_ne_nil hne
  obtain ⟨⟨place, drawn⟩, hdraw⟩ : ∃ p,
      Random.draw tick.tree.words (rest.length + 1) (w.tree tick.id).drawn = p := ⟨_, rfl⟩
  exact ⟨_, getD_mem_table first rest place, _,
    dispatch_randomBranch tick handler rfl _ _ _ _ hdraw⟩

/-- A random branch goes on at the entry that the first accepted word gives. -/
theorem Tick.dispatch_drawn (index : Nat) (resumed : Bool) {yes no : Nat} (s : AgentState)
    (w : World K A) {r target : Nat} (hr : r ≤ Random.patience)
    (hrejected : ∀ q < r,
      Random.placeOf table.length (tick.tree.words ((w.tree tick.id).drawn + q)) = none)
    (haccepted : (tick.tree.words ((w.tree tick.id).drawn + r)).toNat ∈
      Random.wordsTo table target) : ∃ w',
      tick.dispatch handler index resumed ⟨.randomBranch table, yes, no⟩ s w =
        .done (.goto target, s) w' ∧
      (w'.tree tick.id).drawn = (w.tree tick.id).drawn + r + 1 := by
  obtain ⟨place, hplace, htarget⟩ :=
    Option.bind_eq_some_iff.1 (Finset.mem_filter.1 haccepted).2
  rw [UInt32.ofNat_toNat] at hplace
  obtain ⟨first, rest, rfl⟩ := List.exists_cons_of_ne_nil
    (List.ne_nil_of_mem (List.mem_of_getElem? htarget))
  have hdispatch := dispatch_randomBranch tick handler
    (i := ⟨.randomBranch (first :: rest), yes, no⟩) rfl index resumed s w
    (Random.drawWithin_of_accepted hr hrejected hplace)
  rw [htarget, Option.getD_some] at hdispatch
  exact ⟨_, hdispatch, by simp⟩

end

/-! ## Random nodes -/

/-- A random node of a definition draws from a table in which the first instruction of each child
stands as often as the child weighs. Of all words as many are accepted and choose a child for each
unit of its weight. The branch goes on at the child that the first accepted word chooses, and never
at one that weighs nothing. -/
theorem Node.chooses_by_weight [DecidableEq K] {root : Node K A} {p : Program K A} {path : Path}
    {children : List (Node K A)} {weight : UInt32} (hroot : compile root = .ok p)
    (hat : root.at? path = some (.mk .random children weight))
    (hsmall : totalWeight children < Random.wordCount) :
    let first : Nat → Nat := fun k => root.offset (path ++ [k])
    ∃ table yes no,
      p.get? (root.offset path) = some ⟨.randomBranch table, yes, no⟩ ∧
      0 < totalWeight children ∧ table.length = totalWeight children ∧
      Random.zone table.length =
        (UInt32.ofNat table.length <<< UInt32.ofNat (Random.leadingZeros table.length)).toNat - 1 ∧
      (table = children.zipIdx.flatMap fun entry =>
        List.replicate entry.1.weight.toNat (first entry.2)) ∧
      (∀ j k, j < children.length → k < children.length → first j = first k → j = k) ∧
      (∀ k child, children[k]? = some child →
        (∃ exit, child.Enclosed p (first k) exit) ∧
        (Random.wordsTo table (first k)).card =
          child.weight.toNat * 2 ^ Random.leadingZeros (totalWeight children)) ∧
      ∀ (tick : Tick K A) (handler : Handler K A) (resumed : Bool) (s : AgentState)
        (w : World K A),
        (∃ k child w', children[k]? = some child ∧ 0 < child.weight ∧
          tick.dispatch handler (root.offset path) resumed ⟨.randomBranch table, yes, no⟩ s w =
            .done (.goto (first k), s) w') ∧
        ∀ k r, r ≤ Random.patience →
          (∀ q < r, Random.placeOf (totalWeight children)
            (tick.tree.words ((w.tree tick.id).drawn + q)) = none) →
          (tick.tree.words ((w.tree tick.id).drawn + r)).toNat ∈
            Random.wordsTo table (first k) →
          ∃ w', tick.dispatch handler (root.offset path) resumed
              ⟨.randomBranch table, yes, no⟩ s w = .done (.goto (first k), s) w' ∧
            (w'.tree tick.id).drawn = (w.tree tick.id).drawn + r + 1 := by
  intro first
  obtain ⟨exit, hnode⟩ := (enclosed_of_compile hroot).below hat
  rw [Nat.zero_add] at hnode
  obtain ⟨table, hne, hget, hbranches⟩ := hnode.placed.random
  have hfirst : ∀ {k child}, children[k]? = some child →
      first k = root.offset path + 1 + sizes (children.take k) := by
    intro k child hchild
    have hoffset := offset_append hat [k]
    simp only [Node.offset, Node.children, Node.lead, hchild, Option.elim_some, Nat.add_zero,
      ← Nat.add_assoc] at hoffset
    exact hoffset
  have hlength := hbranches.length_table
  have hpos : 0 < table.length := List.length_pos_iff.2 hne
  refine ⟨table, exit .success, exit .failure, hget, by rwa [← hlength], hlength,
    Random.zone_eq_shiftLeft hpos (by rwa [hlength]), ?_, ?_, ?_, ?_⟩
  · refine hbranches.table_eq.trans (List.flatMap_congr fun entry hentry => ?_)
    rw [hfirst (List.mk_mem_zipIdx_iff_getElem?.1 hentry)]
  · intro j k hj hk heq
    rw [hfirst (List.getElem?_eq_getElem hj), hfirst (List.getElem?_eq_getElem hk)] at heq
    exact hbranches.firsts_inj hj hk heq
  · intro k child hchild
    rw [hfirst hchild]
    refine ⟨hnode.child hchild, ?_⟩
    rw [Random.card_wordsTo (by rwa [hlength]), hbranches.count_table hchild, hlength]
  · intro tick handler resumed s w
    constructor
    · obtain ⟨target, hmem, w', hdispatch⟩ :=
        tick.dispatch_draws handler hne (root.offset path) resumed s w
      obtain ⟨k, child, hchild, hweight, rfl⟩ := hbranches.exists_child hmem
      exact ⟨k, child, w', hchild, hweight, by rw [hfirst hchild]; exact hdispatch⟩
    · intro k r hr hrejected haccepted
      exact tick.dispatch_drawn handler (root.offset path) resumed s w hr
        (by rwa [hlength]) haccepted

/-- Three children of weights two, nothing and one, under a selector. -/
theorem Node.chooses_by_weight_nested : ∃ p : Program Bool Unit,
    compile (.selector [.random [(Node.fail none).withWeight 2, (Node.succeed none).withWeight 0,
      .succeed none]]) = .ok p ∧
    ∃ table yes no, p.get? 0 = some ⟨.randomBranch table, yes, no⟩ ∧
      (Random.wordsTo table 1).card = 2 * 2 ^ 30 ∧ (Random.wordsTo table 2).card = 0 ∧
      (Random.wordsTo table 3).card = 2 ^ 30 := by
  obtain ⟨p, hp⟩ : ∃ p : Program Bool Unit, compile (.selector [.random
      [(Node.fail none).withWeight 2, (Node.succeed none).withWeight 0, .succeed none]]) = .ok p :=
    ⟨_, rfl⟩
  obtain ⟨table, yes, no, hget, -, -, -, -, -, hwords, -⟩ :=
    @Node.chooses_by_weight _ _ _ _ _ [0] _ _ hp rfl (by decide)
  exact ⟨p, hp, table, yes, no, hget, (hwords 0 _ rfl).2, (hwords 1 _ rfl).2, (hwords 2 _ rfl).2⟩

end TickTree

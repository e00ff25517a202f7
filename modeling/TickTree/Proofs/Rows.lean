import TickTree.Proofs.Layout

/-!
# Nodes in a row

Of whatever kind a node is, its code has two parts: instructions of its own (`Node.lead`), and
behind them the code of its children in a row. A child in a row goes on at the first
instruction of the next, or out of the row (`RowPlaced`); out of it the row goes on where
the node does, or at the next round of a loop. `Node.Placed.laid` says this for all kinds at
once. What is to hold of the code of every node is then proved of rows and of the few
instructions in front of them.

So the code of a node goes on in itself or at the indices of its verdicts
(`Node.Placed.goesOn`), and is entered from outside at its first instruction only
(`Node.Enclosed`).
-/

namespace TickTree

variable {K A : Type}

/-- The indices an instruction may go on at. -/
def Instruction.nexts (i : Instruction Nat K A) : List Nat :=
  i.onSuccess :: i.onFail :: i.op.targets

/-! ## Where code goes on -/

/-- The indices of verdicts. -/
def Among (exit : Verdict → Nat) (x : Nat) : Prop := ∃ v, x = exit v

theorem among_toward {v : Verdict} {index : Nat} {exit : Verdict → Nat} (u : Verdict) :
    toward v index exit u = index ∨ Among exit (toward v index exit u) := by
  by_cases huv : u = v
  · subst huv
    exact .inl (toward_self u index exit)
  · exact .inr ⟨u, toward_of_ne huv index exit⟩

/-- The code in a range goes on in the range, or at some other indices. -/
def Program.GoesOn (p : Program K A) (lo hi : Nat) (outside : Nat → Prop) : Prop :=
  ∀ j i, lo ≤ j → j < hi → p.get? j = some i →
    ∀ next ∈ i.nexts, (lo ≤ next ∧ next < hi) ∨ outside next

section

variable {p : Program K A} {lo mid hi : Nat} {outside first second : Nat → Prop}

theorem Program.GoesOn.mono (h : p.GoesOn lo hi first)
    (himp : ∀ x, first x → (lo ≤ x ∧ x < hi) ∨ outside x) : p.GoesOn lo hi outside := by
  intro j i hlo hhi hget next hnext
  rcases h j i hlo hhi hget next hnext with hin | hfirst
  · exact .inl hin
  · exact himp next hfirst

theorem Program.GoesOn.join (h : p.GoesOn lo mid first) (h' : p.GoesOn mid hi second)
    (hlo : lo ≤ mid) (hhi : mid ≤ hi) (hfirst : ∀ x, first x → (lo ≤ x ∧ x < hi) ∨ outside x)
    (hsecond : ∀ x, second x → (lo ≤ x ∧ x < hi) ∨ outside x) : p.GoesOn lo hi outside := by
  intro j i hj hj' hget next hnext
  by_cases hmid : j < mid
  · rcases h j i hj hmid hget next hnext with hin | hout
    · exact .inl (by omega)
    · exact hfirst next hout
  · rcases h' j i (by omega) hj' hget next hnext with hin | hout
    · exact .inl (by omega)
    · exact hsecond next hout

theorem Program.goesOn_empty : p.GoesOn lo lo outside := by
  intro j i hlo hhi
  omega

theorem Program.goesOn_single {i : Instruction Nat K A} (hget : p.get? lo = some i)
    (hnexts : ∀ next ∈ i.nexts, outside next) : p.GoesOn lo (lo + 1) outside := by
  intro j i' hlo hhi hget' next hnext
  obtain rfl : j = lo := by omega
  rw [hget] at hget'
  cases hget'
  exact .inr (hnexts next hnext)

end

/-! ## Rows -/

/-- The first instructions of nodes in a row. -/
def firsts : Nat → List (Node K A) → List Nat
  | _, [] => []
  | start, node :: rest => start :: firsts (start + node.size) rest

/-- The program holds the code of nodes in a row: each goes on at the first instruction of
the next, or out of the row. -/
inductive RowPlaced (p : Program K A) (out : Nat → Prop) : List (Node K A) → Nat → Prop where
  | nil (start : Nat) : RowPlaced p out [] start
  | cons {node : Node K A} {rest : List (Node K A)} {start : Nat} {exit : Verdict → Nat} :
      node.Placed p start exit →
      (∀ v, rest ≠ [] ∧ exit v = start + node.size ∨ out (exit v)) →
      RowPlaced p out rest (start + node.size) → RowPlaced p out (node :: rest) start

section

variable {p : Program K A} {out : Nat → Prop} {children : List (Node K A)} {start : Nat}
  {exit : Verdict → Nat}

theorem RowPlaced.single {node : Node K A} (h : node.Placed p start exit)
    (hout : ∀ v, out (exit v)) : RowPlaced p out [node] start :=
  .cons h (fun v => .inr (hout v)) (.nil _)

theorem RowPlaced.imp {out' : Nat → Prop} (h : RowPlaced p out children start)
    (himp : ∀ x, out x → out' x) : RowPlaced p out' children start := by
  induction h with
  | nil start => exact .nil start
  | cons hnode hexit _ ih => exact .cons hnode (fun v => (hexit v).imp_right (himp _)) ih

theorem ChainPlaced.row {carry : Verdict} (hne : children ≠ [])
    (h : ChainPlaced p carry children start exit) : RowPlaced p (Among exit) children start := by
  induction children generalizing start with
  | nil => exact absurd rfl hne
  | cons first rest ih =>
    by_cases hrest : rest = []
    · subst hrest
      exact .single h.last fun v => ⟨v, rfl⟩
    · obtain ⟨hfirst, hothers⟩ := h.cons hrest
      exact .cons hfirst (fun v => (among_toward v).imp_left fun hnext => ⟨hrest, hnext⟩)
        (ih hrest hothers)

theorem BranchesPlaced.row {table : List Nat} (h : BranchesPlaced p children start exit table) :
    RowPlaced p (Among exit) children start ∧ ∀ target ∈ table, target ∈ firsts start children := by
  induction children generalizing start table with
  | nil =>
    obtain rfl := h.nil
    exact ⟨.nil _, by simp⟩
  | cons first rest ih =>
    obtain ⟨targets, rfl, hfirst, hothers⟩ := h.cons
    obtain ⟨hrow, htargets⟩ := ih hothers
    refine ⟨.cons hfirst (fun v => .inr ⟨v, rfl⟩) hrow, fun target hmem => ?_⟩
    rcases List.mem_append.1 hmem with hmem | hmem
    · obtain rfl := (List.mem_replicate.1 hmem).2
      exact .head _
    · exact .tail _ (htargets target hmem)

end

/-! ## The parts of a node -/

/-- The count of a node that is a loop, if it has one. -/
def NodeKind.loop? : NodeKind K A → Option (Option UInt32)
  | .whileLoop count => some count
  | .repeatLoop count _ => some count
  | _ => none

/-- How many instructions of a node stand in front of those of its children. -/
def Node.lead : Node K A → Nat
  | .mk (.whileLoop count) _ _ => headSize count
  | .mk (.repeatLoop count _) _ _ => headSize count
  | .mk .random _ _ => 1
  | .mk _ [] _ => 1
  | .mk _ (_ :: _) _ => 0

/-- A node that is no loop has one instruction of its own at most. -/
theorem Node.lead_le_one {kind : NodeKind K A} (hkind : kind.loop? = none)
    (children : List (Node K A)) (weight : UInt32) : (Node.mk kind children weight).lead ≤ 1 := by
  cases kind with
  | whileLoop | repeatLoop => cases hkind
  | random => exact Nat.le_refl 1
  | _ => cases children <;> simp [Node.lead]

theorem Node.lead_of_loop {kind : NodeKind K A} {count : Option UInt32}
    (hkind : kind.loop? = some count) (children : List (Node K A)) (weight : UInt32) :
    (Node.mk kind children weight).lead = headSize count := by
  cases kind with
  | whileLoop | repeatLoop =>
    cases hkind
    rfl
  | _ => cases hkind

/-- An operation that has to do with a counter. -/
def Op.IsLoop : Op K A → Prop
  | .repeatStart _ => True
  | .repeatCounter .. => True
  | _ => False

/-- Where the children of a node go on besides among themselves: where the node does, and, in
a loop, at the next round. -/
def NodeKind.Out (kind : NodeKind K A) (start : Nat) (exit : Verdict → Nat) (x : Nat) : Prop :=
  (∃ count, kind.loop? = some count ∧ x = loopAgain start count) ∨ Among exit x

/-- A placed node, whatever its kind: instructions of its own, and its children in a row. -/
structure Node.Laid (p : Program K A) (kind : NodeKind K A) (children : List (Node K A))
    (weight : UInt32) (start : Nat) (exit : Verdict → Nat) : Prop where
  /-- There is nothing else. -/
  size : (Node.mk kind children weight).size =
    (Node.mk kind children weight).lead + sizes children
  /-- A node without children is one instruction, and no loop. -/
  leaf : children = [] → (Node.mk kind children weight).lead = 1 ∧ kind.loop? = none
  /-- The children stand behind the instructions of its own. -/
  row : RowPlaced p (kind.Out start exit) children
    (start + (Node.mk kind children weight).lead)
  /-- In front of a loop they are those that count its rounds. -/
  loop : ∀ count, kind.loop? = some count → HeadPlaced p count start exit
  /-- Others count nothing, and go on at a child or for the node. -/
  own : kind.loop? = none → ∀ j i, start ≤ j →
    j < start + (Node.mk kind children weight).lead → p.get? j = some i → ¬ i.op.IsLoop ∧
      ∀ next ∈ i.nexts,
        next ∈ firsts (start + (Node.mk kind children weight).lead) children ∨ Among exit next

section

variable {p : Program K A} {kind : NodeKind K A} {children : List (Node K A)} {weight : UInt32}
  {start : Nat} {exit : Verdict → Nat}

/-- A single instruction in front of the children leaves both verdicts to the node, or goes on at
a child. -/
theorem own_single {op : Op K A} {lead : Nat} (hlead : lead = 1)
    (hget : p.get? start = some ⟨op, exit .success, exit .failure⟩) (hop : ¬ op.IsLoop)
    (htargets : ∀ target ∈ op.targets, target ∈ firsts (start + lead) children) :
    ∀ j i, start ≤ j → j < start + lead → p.get? j = some i → ¬ i.op.IsLoop ∧
      ∀ next ∈ i.nexts, next ∈ firsts (start + lead) children ∨ Among exit next := by
  intro j i hlo hhi hgetj
  obtain rfl : j = start := by omega
  rw [hget] at hgetj
  cases hgetj
  refine ⟨hop, fun next hnext => ?_⟩
  simp only [Instruction.nexts, List.mem_cons] at hnext
  rcases hnext with rfl | rfl | hmem
  · exact .inr ⟨.success, rfl⟩
  · exact .inr ⟨.failure, rfl⟩
  · exact .inl (htargets next hmem)

theorem Node.Laid.of_leaf {op : Op K A}
    (hsize : (Node.mk kind [] weight).size = 1) (hlead : (Node.mk kind [] weight).lead = 1)
    (hkind : kind.loop? = none) (htargets : op.targets = []) (hop : ¬ op.IsLoop)
    (hget : p.get? start = some ⟨op, exit .success, exit .failure⟩) :
    Laid p kind [] weight start exit where
  size := by rw [hsize, hlead, sizes]
  leaf := fun _ => ⟨hlead, hkind⟩
  row := .nil _
  loop := by simp [hkind]
  own := fun _ => own_single hlead hget hop (by simp [htargets])

/-- A node that is its children in a row and nothing else. -/
theorem Node.Laid.of_row
    (hsize : (Node.mk kind children weight).size = sizes children)
    (hlead : (Node.mk kind children weight).lead = 0) (hkind : kind.loop? = none)
    (hne : children ≠ []) (hrow : RowPlaced p (Among exit) children start) :
    Laid p kind children weight start exit where
  size := by rw [hsize, hlead, Nat.zero_add]
  leaf := fun hnil => absurd hnil hne
  row := by
    rw [hlead]
    exact hrow.imp fun x hx => .inr hx
  loop := by simp [hkind]
  own := by
    intro _ j i hlo hhi
    omega

/-- A loop: what counts its rounds, if anything does, and its children in a row. -/
theorem Node.Laid.of_loop {count : Option UInt32}
    (hsize : (Node.mk kind children weight).size = headSize count + sizes children)
    (hkind : kind.loop? = some count) (hhead : HeadPlaced p count start exit)
    (hne : children ≠ [])
    (hrow : RowPlaced p (fun x => x = loopAgain start count ∨ Among exit x) children
      (start + headSize count)) : Laid p kind children weight start exit where
  size := by rw [hsize, lead_of_loop hkind]
  leaf := fun hnil => absurd hnil hne
  row := by
    rw [lead_of_loop hkind]
    exact hrow.imp fun x hx => hx.imp_left fun hx => ⟨count, hkind, hx⟩
  loop := by
    intro count' hkind'
    rw [hkind, Option.some.injEq] at hkind'
    exact hkind' ▸ hhead
  own := by simp [hkind]

/-- A placed node is instructions of its own and its children in a row. -/
theorem Node.Placed.laid (h : (Node.mk kind children weight).Placed p start exit) :
    Laid p kind children weight start exit := by
  cases kind with
  | task t =>
    obtain ⟨run, -, hget⟩ := h.task
    obtain rfl : children = [] := by
      obtain ⟨path, code, hcode, -⟩ := h
      obtain ⟨-, -, hnil, -⟩ := assemble_task hcode
      exact hnil
    exact .of_leaf rfl rfl rfl rfl id hget
  | query q =>
    obtain rfl : children = [] := by
      obtain ⟨path, code, hcode, -⟩ := h
      exact (assemble_query hcode).1
    exact .of_leaf rfl rfl rfl rfl id h.query
  | subTree link =>
    obtain ⟨l, -, hget⟩ := h.subTree
    obtain rfl : children = [] := by
      obtain ⟨path, code, hcode, -⟩ := h
      obtain ⟨-, -, hnil, -⟩ := assemble_subTree hcode
      exact hnil
    exact .of_leaf rfl rfl rfl rfl id hget
  | sequence =>
    obtain ⟨hne, hchain⟩ := h.sequence
    obtain ⟨first, rest, rfl⟩ := List.exists_cons_of_ne_nil hne
    exact .of_row rfl rfl rfl hne (hchain.row hne)
  | selector =>
    obtain ⟨hne, hchain⟩ := h.selector
    obtain ⟨first, rest, rfl⟩ := List.exists_cons_of_ne_nil hne
    exact .of_row rfl rfl rfl hne (hchain.row hne)
  | random =>
    obtain ⟨table, -, hget, hbranches⟩ := h.random
    obtain ⟨hrow, htable⟩ := hbranches.row
    exact ⟨rfl, fun _ => ⟨rfl, rfl⟩, hrow.imp fun x hx => .inr hx, nofun,
      fun _ => own_single rfl hget id htable⟩
  | whileLoop count =>
    obtain ⟨condition, action, rfl, hhead, hcond, hact⟩ := h.whileLoop
    refine .of_loop rfl rfl hhead (List.cons_ne_nil _ _)
      (.cons hcond (fun v => ?_) (.single hact among_toward))
    exact (among_toward v).imp (fun hnext => ⟨List.cons_ne_nil _ _, hnext⟩) .inr
  | succeed =>
    rcases h.succeed with ⟨rfl, hget⟩ | ⟨child, rfl, hchild⟩
    · exact .of_leaf rfl rfl rfl rfl id hget
    · exact .of_row rfl rfl rfl (List.cons_ne_nil _ _) (.single hchild fun v => ⟨.success, rfl⟩)
  | fail =>
    rcases h.fail with ⟨rfl, hget⟩ | ⟨child, rfl, hchild⟩
    · exact .of_leaf rfl rfl rfl rfl id hget
    · exact .of_row rfl rfl rfl (List.cons_ne_nil _ _) (.single hchild fun v => ⟨.failure, rfl⟩)
  | invert =>
    obtain ⟨child, rfl, hchild⟩ := h.invert
    exact .of_row rfl rfl rfl (List.cons_ne_nil _ _) (.single hchild fun v => ⟨v.flip, rfl⟩)
  | repeatLoop count breakOnFail =>
    obtain ⟨child, rfl, hhead, hbody⟩ := h.repeatLoop
    refine .of_loop rfl rfl hhead (List.cons_ne_nil _ _) (.single hbody fun v => ?_)
    cases breakOnFail with
    | true => exact among_toward v
    | false => exact .inl rfl

/-- The two instructions in front of a loop go on with each other, at the body, or
outside the loop. -/
theorem HeadPlaced.goesOn {count : Option UInt32} (h : HeadPlaced p count start exit) :
    p.GoesOn start (start + headSize count)
      fun x => x = start + headSize count ∨ Among exit x := by
  rw [headSize]
  cases hcount : bound? count with
  | none => exact Program.goesOn_empty
  | some goal =>
    obtain ⟨hstart, hcounter⟩ := h goal hcount
    have hfirst : p.GoesOn start (start + 1) fun x => x = start + 1 :=
      Program.goesOn_single hstart fun next hnext => by
        simpa [Instruction.nexts, Op.targets] using hnext
    have hsecond : p.GoesOn (start + 1) (start + 1 + 1) fun x => x = start + 2 ∨ Among exit x := by
      refine Program.goesOn_single hcounter fun next hnext => ?_
      simp only [Instruction.nexts, Op.targets, List.mem_cons, List.not_mem_nil, or_false] at hnext
      rcases hnext with rfl | rfl | rfl
      · exact .inr ⟨.success, rfl⟩
      · exact .inr ⟨.failure, rfl⟩
      · exact .inl rfl
    refine hfirst.join hsecond (by omega) (by simp) ?_ fun x hx => .inr hx
    rintro x rfl
    exact .inl (by simp)

/-- The instructions of a node's own go on at its children, or for the node. -/
theorem Node.Laid.head (h : Laid p kind children weight start exit) :
    p.GoesOn start (start + (Node.mk kind children weight).lead) fun x =>
      x ∈ firsts (start + (Node.mk kind children weight).lead) children ∨ Among exit x := by
  cases hkind : kind.loop? with
  | none =>
    exact fun j i hlo hhi hget next hnext => .inr ((h.own hkind j i hlo hhi hget).2 next hnext)
  | some count =>
    obtain ⟨first, rest, rfl⟩ : ∃ first rest, children = first :: rest :=
      List.exists_cons_of_ne_nil fun hnil => by simp [(h.leaf hnil).2] at hkind
    rw [lead_of_loop hkind]
    refine (h.loop count hkind).goesOn.mono fun x hx => .inr (hx.imp_left ?_)
    rintro rfl
    exact .head _

end

/-! ## Sizes -/

/-- Where the next round of a loop begins: not behind the instructions in front of it. -/
theorem loopAgain_bounds (count : Option UInt32) (start : Nat) :
    start ≤ loopAgain start count ∧ loopAgain start count ≤ start + headSize count := by
  rw [loopAgain, headSize]
  cases bound? count with
  | none => simp
  | some goal => simp

section

variable {p : Program K A} {out : Nat → Prop} {node : Node K A} {children : List (Node K A)}
  {start : Nat} {exit : Verdict → Nat}

/-- The code of a placed node is not empty. -/
theorem Node.Placed.size_pos (h : node.Placed p start exit) : 0 < node.size := by
  induction node using Node.induction generalizing start exit with
  | mk kind children weight ih =>
    obtain ⟨hsize, hleaf, hrow, -, -⟩ := h.laid
    rw [hsize]
    cases hrow with
    | nil =>
      have hlead := (hleaf rfl).1
      omega
    | cons hfirst _ _ =>
      have hpos := ih _ (.head _) hfirst
      simp only [sizes]
      omega

theorem RowPlaced.sizes_pos (h : RowPlaced p out children start) (hne : children ≠ []) :
    0 < sizes children := by
  cases h with
  | nil => exact absurd rfl hne
  | cons hfirst _ _ =>
    have hpos := hfirst.size_pos
    simp only [sizes]
    omega

theorem RowPlaced.goesOn (h : RowPlaced p out children start)
    (ih : ∀ child ∈ children, ∀ {start exit}, child.Placed p start exit →
      p.GoesOn start (start + child.size) (Among exit)) :
    p.GoesOn start (start + sizes children) out := by
  induction h with
  | nil start => exact Program.goesOn_empty
  | @cons first rest start exit hfirst hexit hrest ihrest =>
    simp only [sizes, ← Nat.add_assoc]
    refine (ih first (.head _) hfirst).join (ihrest fun child hmem => ih child (.tail _ hmem))
      (by omega) (by omega) ?_ fun x hx => .inr hx
    rintro x ⟨v, rfl⟩
    rcases hexit v with ⟨hne, hnext⟩ | hout
    · have hpos := hrest.sizes_pos hne
      exact .inl (by omega)
    · exact .inr hout

theorem mem_firsts {first : Nat} (hmem : first ∈ firsts start children) : start ≤ first := by
  induction children generalizing start with
  | nil => cases hmem
  | cons node rest ih =>
    rcases List.mem_cons.1 hmem with rfl | hmem
    · exact Nat.le_refl _
    · have hbound := ih hmem
      omega

theorem RowPlaced.firsts_lt (h : RowPlaced p out children start) {first : Nat}
    (hmem : first ∈ firsts start children) : first < start + sizes children := by
  induction h with
  | nil => cases hmem
  | cons hnode _ _ ih =>
    simp only [sizes]
    rcases List.mem_cons.1 hmem with rfl | hmem
    · have hpos := hnode.size_pos
      omega
    · have hbound := ih hmem
      omega

/-- Out of the row of its children a node goes on in front of it, or for good. -/
theorem Node.Laid.out_bounds {kind : NodeKind K A} {weight : UInt32}
    (h : Laid p kind children weight start exit) {x : Nat} (hx : kind.Out start exit x) :
    (start ≤ x ∧ x ≤ start + (Node.mk kind children weight).lead ∧ 0 < sizes children) ∨
      Among exit x := by
  rcases hx with ⟨count, hkind, rfl⟩ | hx
  · refine .inl ?_
    have hne : children ≠ [] := fun hnil => by simp [(h.leaf hnil).2] at hkind
    have hpos := h.row.sizes_pos hne
    rw [Node.lead_of_loop hkind]
    exact ⟨(loopAgain_bounds count start).1, (loopAgain_bounds count start).2, hpos⟩
  · exact .inr hx

/-- The code of a placed node goes on in itself, or at the indices of its verdicts. -/
theorem Node.Placed.goesOn (h : node.Placed p start exit) :
    p.GoesOn start (start + node.size) (Among exit) := by
  induction node using Node.induction generalizing start exit with
  | mk kind children weight ih =>
    have hlaid := h.laid
    rw [hlaid.size, ← Nat.add_assoc]
    refine hlaid.head.join (hlaid.row.goesOn fun child hmem => ih child hmem) (by omega) (by omega)
      (fun x hx => ?_) fun x hx => ?_
    · refine hx.imp_left fun hfirst => ?_
      have hlo := mem_firsts hfirst
      have hhi := hlaid.row.firsts_lt hfirst
      omega
    · refine (hlaid.out_bounds hx).imp_left fun hbounds => ?_
      omega

/-- An index in a row is in one of its nodes. -/
theorem exists_child_of_lt_sizes {index : Nat} (hlo : start ≤ index)
    (hhi : index < start + sizes children) : ∃ k child, children[k]? = some child ∧
      start + sizes (children.take k) ≤ index ∧
      index < start + sizes (children.take k) + child.size ∧
      start + sizes (children.take k) + child.size ≤ start + sizes children := by
  induction children generalizing start with
  | nil =>
    simp only [sizes] at hhi
    omega
  | cons first rest ih =>
    simp only [sizes] at hhi ⊢
    by_cases hfirst : index < start + first.size
    · exact ⟨0, first, rfl, by simpa [sizes] using hlo, by simpa [sizes] using hfirst,
        by simp only [List.take_zero, sizes]; omega⟩
    · obtain ⟨k, child, hchild, hk, hk', hbound⟩ :=
        ih (show start + first.size ≤ index by omega) (by omega)
      refine ⟨k + 1, child, hchild, ?_⟩
      simp only [List.take_succ_cons, sizes]
      omega

end

/-! ## Where code is entered -/

/-- The code in a range is entered from outside at its first instruction only. -/
def Program.EnteredFirst (p : Program K A) (lo hi : Nat) : Prop :=
  ∀ j i, ¬ (lo ≤ j ∧ j < hi) → p.get? j = some i → ∀ next ∈ i.nexts, ¬ (lo < next ∧ next < hi)

/-- A placed node is closed to its surroundings: nothing enters its code behind its first
instruction, not even the node itself where it goes on outside. -/
structure Node.Enclosed (p : Program K A) (node : Node K A) (start : Nat) (exit : Verdict → Nat) :
    Prop where
  placed : node.Placed p start exit
  entered : p.EnteredFirst start (start + node.size)
  exits : ∀ x, Among exit x → ¬ (start < x ∧ x < start + node.size)

section

variable {p : Program K A} {out : Nat → Prop} {children : List (Node K A)} {start : Nat}
  {exit : Verdict → Nat}

/-- If a row is entered from outside at first instructions only, and does not go on in itself
where it goes on out of it, then each node in it is closed to its surroundings. -/
theorem RowPlaced.enclosed (h : RowPlaced p out children start)
    (hentered : ∀ j i, ¬ (start ≤ j ∧ j < start + sizes children) → p.get? j = some i →
      ∀ next ∈ i.nexts, next ∈ firsts start children ∨
        ¬ (start ≤ next ∧ next < start + sizes children))
    (hout : ∀ x, out x → ¬ (start < x ∧ x < start + sizes children)) {k : Nat} {child : Node K A}
    (hchild : children[k]? = some child) :
    ∃ exit, child.Enclosed p (start + sizes (children.take k)) exit := by
  induction h generalizing k with
  | nil => cases hchild
  | @cons first rest start exit hfirst hexit hrest ih =>
    simp only [sizes, firsts, ← Nat.add_assoc] at hentered hout
    have hpos := hfirst.size_pos
    cases k with
    | zero =>
      -- The first node is entered from outside the row, or from the nodes behind it.
      cases hchild
      simp only [List.take_zero, sizes, Nat.add_zero]
      have hrestgoes := hrest.goesOn fun child _ => Node.Placed.goesOn
      refine ⟨exit, hfirst, fun j i hj hget next hnext => ?_, ?_⟩
      · by_cases hin : start + child.size ≤ j ∧ j < start + child.size + sizes rest
        · rcases hrestgoes j i hin.1 hin.2 hget next hnext with hnext | hnext
          · omega
          · have hnot := hout next hnext
            omega
        · rcases hentered j i (by omega) hget next hnext with hnext | hnot
          · rcases List.mem_cons.1 hnext with rfl | hnext
            · omega
            · have hbehind := mem_firsts hnext
              omega
          · omega
      · rintro x ⟨v, rfl⟩ hin
        rcases hexit v with ⟨-, hnext⟩ | hnext
        · omega
        · exact hout _ hnext (by omega)
    | succ k =>
      -- The nodes behind it are entered from outside the row, or from the first node.
      simp only [List.take_succ_cons, sizes, ← Nat.add_assoc]
      refine ih (fun j i hj hget next hnext => ?_) (fun x hx hin => hout x hx (by omega)) hchild
      by_cases hin : start ≤ j ∧ j < start + first.size
      · rcases hfirst.goesOn j i hin.1 hin.2 hget next hnext with hnext | ⟨v, rfl⟩
        · exact .inr (by omega)
        · rcases hexit v with ⟨hne, hnext⟩ | hnext
          · obtain ⟨second, others, rfl⟩ := List.exists_cons_of_ne_nil hne
            rw [hnext]
            exact .inl (.head _)
          · have hnot := hout _ hnext
            exact .inr (by omega)
      · rcases hentered j i (by omega) hget next hnext with hnext | hnot
        · rcases List.mem_cons.1 hnext with rfl | hnext
          · exact .inr (by omega)
          · exact .inl hnext
        · exact .inr (by omega)

/-- The children of a node that is closed to its surroundings are closed to theirs. -/
theorem Node.Enclosed.child {kind : NodeKind K A} {weight : UInt32}
    (h : (Node.mk kind children weight).Enclosed p start exit) {k : Nat} {child : Node K A}
    (hchild : children[k]? = some child) :
    ∃ exit, child.Enclosed p
      (start + (Node.mk kind children weight).lead + sizes (children.take k)) exit := by
  have hlaid := h.placed.laid
  have hentered := h.entered
  have hexits := h.exits
  rw [hlaid.size, ← Nat.add_assoc] at hentered hexits
  -- What enters the node at its first instruction enters the row there, if it does.
  have hfirst : ∀ next,
      ¬ (start < next ∧ next < start + (Node.mk kind children weight).lead + sizes children) →
      next ∈ firsts (start + (Node.mk kind children weight).lead) children ∨
        ¬ (start + (Node.mk kind children weight).lead ≤ next ∧
          next < start + (Node.mk kind children weight).lead + sizes children) := by
    intro next hnot
    obtain ⟨first, rest, rfl⟩ : ∃ first rest, children = first :: rest :=
      List.exists_cons_of_ne_nil (by rintro rfl; cases hchild)
    by_cases hnext : next = start + (Node.mk kind (first :: rest) weight).lead
    · rw [hnext]
      exact .inl (.head _)
    · exact .inr (by omega)
  refine hlaid.row.enclosed (fun j i hj hget next hnext => ?_) (fun x hx hin => ?_) hchild
  · by_cases hin : start ≤ j ∧ j < start + (Node.mk kind children weight).lead
    · rcases hlaid.head j i hin.1 hin.2 hget next hnext with hnext | hnext | hnext
      · exact .inr (by omega)
      · exact .inl hnext
      · exact hfirst next (hexits next hnext)
    · exact hfirst next (hentered j i (by omega) hget next hnext)
  · rcases hlaid.out_bounds hx with hbounds | hx
    · omega
    · exact hexits x hx (by omega)

end

/-! ## Whole programs -/

namespace Node

variable {root : Node K A} {p : Program K A}

theorem length_of_compile (h : compile root = .ok p) : p.length = root.size := by
  obtain ⟨code, hcode, hseal⟩ := bind_eq_ok_iff.1 h
  rw [Code.seal_eq_ok hseal, ← length_assemble hcode, Code.length_resolved]

/-- A compiled program goes on at instructions and at its two ends only. -/
theorem goesOn_of_compile (h : compile root = .ok p) : p.GoesOn 0 p.length (Among p.ends) := by
  have hcode := (placed_of_compile h).goesOn
  rwa [Nat.zero_add, ← length_of_compile h] at hcode

/-- A compiled program is closed to its surroundings: there are none. -/
theorem enclosed_of_compile (h : compile root = .ok p) : root.Enclosed p 0 p.ends := by
  have hlength := length_of_compile h
  refine ⟨placed_of_compile h, fun j i hj hget => ?_, ?_⟩
  · have hlt := Program.lt_length_of_get? hget
    omega
  · rintro x ⟨v, rfl⟩ hin
    cases v <;> simp only [Program.ends, Program.successIndex, Program.failIndex] at hin <;> omega

end Node

end TickTree

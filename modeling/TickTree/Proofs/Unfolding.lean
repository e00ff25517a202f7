import TickTree.Proofs.Inlining
import TickTree.Proofs.Liveness

/-!
# Programs with their links unfolded

The program of an inlined definition holds the programs of all linked trees, each where
the link was. An index of a tree corresponds to one of the unfolded program
(`Program.moved`): instructions before it have moved it by what they have grown by, and
the two ends have become exits. `Forest.Unfolds` says that a program holds a tree
unfolded, instruction by instruction, and `Forest.unfolds_of_placed` that compiling an
inlined definition yields such a program.
-/

namespace TickTree

variable {K A : Type}

/-! ## Moved indices -/

/-- The status of a verdict. -/
def Verdict.status : Verdict → Status
  | .success => .success
  | .failure => .failure

theorem Instruction.exit_status (op : Op K A) (exit : Verdict → Nat) (v : Verdict) :
    (⟨op, exit .success, exit .failure⟩ : Instruction Nat K A).exit v.status = exit v := by
  cases v <;> rfl

/-- How many instructions take the place of an instruction, given how many take the place
of each tree. -/
def Op.width (extent : TreeId → Nat) : Op K A → Nat
  | .subTree l => extent l.tree
  | _ => 1

namespace Program

variable (p : Program K A) (extent : TreeId → Nat)

/-- How many instructions take the place of those before an index. -/
def offset (j : Nat) : Nat := (p.instructions.take j).foldl (fun n i => n + i.op.width extent) 0

/-- Where an index of a program is found when the program is unfolded from an instruction
on, with its ends gone to exits. -/
def moved (base : Nat) (exit : Verdict → Nat) (j : Nat) : Nat :=
  if j < p.length then base + p.offset extent j
  else if j = p.successIndex then exit .success
  else exit .failure

variable {p extent} {base j k : Nat} {exit : Verdict → Nat} {i : Instruction Nat K A}

@[simp]
theorem offset_zero : p.offset extent 0 = 0 := rfl

theorem offset_succ (h : p.get? j = some i) :
    p.offset extent (j + 1) = p.offset extent j + i.op.width extent := by
  rw [get?] at h
  simp [offset, List.take_add_one, h]

theorem offset_le (h : j ≤ k) : p.offset extent j ≤ p.offset extent k := by
  induction k with
  | zero =>
    obtain rfl : j = 0 := by omega
    exact Nat.le_refl _
  | succ k ih =>
    by_cases hjk : j = k + 1
    · exact Nat.le_of_eq (by rw [hjk])
    · have hstep : p.offset extent k ≤ p.offset extent (k + 1) := by
        cases hget : p.get? k with
        | some i =>
          rw [offset_succ hget]
          omega
        | none =>
          rw [get?] at hget
          simp [offset, List.take_add_one, hget]
      exact Nat.le_trans (ih (by omega)) hstep

theorem moved_of_lt (h : j < p.length) : p.moved extent base exit j = base + p.offset extent j :=
  if_pos h

theorem moved_zero (h : 0 < p.length) : p.moved extent base exit 0 = base := by
  rw [moved_of_lt h, offset_zero, Nat.add_zero]

@[simp]
theorem moved_ends (v : Verdict) : p.moved extent base exit (p.ends v) = exit v := by
  cases v with
  | success => simp [moved, ends, successIndex]
  | failure => simp [moved, ends, successIndex, failIndex, show ¬ p.length + 1 < p.length by omega]

/-- What takes the place of an instruction begins behind what takes the place of those
before it. -/
theorem moved_add_width_le (h : p.get? j = some i) (hjk : j < k) (hk : k < p.length) :
    p.moved extent base exit j + i.op.width extent ≤ p.moved extent base exit k := by
  have hj := lt_length_of_get? h
  rw [moved_of_lt hj, moved_of_lt hk, Nat.add_assoc, ← offset_succ h]
  exact Nat.add_le_add_left (offset_le hjk) base

end Program

/-! ## Unfolded trees -/

/-- A program holds a tree without random branches from an instruction on, with the ends of
the tree gone to exits and each link replaced by the tree it leads to. -/
inductive Forest.Unfolds (F : Forest K A) (extent : TreeId → Nat) (P : Program K A) :
    TreeId → Nat → (Verdict → Nat) → Prop where
  | mk {t : TreeId} {base : Nat} {exit : Verdict → Nat} :
      (∀ j i, (F.tree t).program.get? j = some i → ∀ table, i.op ≠ .randomBranch table) →
      (∀ j i, (F.tree t).program.get? j = some i → (∀ l, i.op ≠ .subTree l) →
        P.get? ((F.tree t).program.moved extent base exit j) =
          some ⟨i.op.moved ((F.tree t).program.moved extent base exit),
            (F.tree t).program.moved extent base exit i.onSuccess,
            (F.tree t).program.moved extent base exit i.onFail⟩) →
      (∀ j i l, (F.tree t).program.get? j = some i → i.op = .subTree l → l.tree < t) →
      (∀ j i l, (F.tree t).program.get? j = some i → i.op = .subTree l →
        Unfolds F extent P l.tree ((F.tree t).program.moved extent base exit j)
          fun v => (F.tree t).program.moved extent base exit (i.exit v.status)) →
      Unfolds F extent P t base exit

section

variable {F : Forest K A} {extent : TreeId → Nat} {P : Program K A} {t : TreeId} {base j : Nat}
  {exit : Verdict → Nat} {i : Instruction Nat K A}

theorem Forest.Unfolds.get? (h : F.Unfolds extent P t base exit)
    (hget : (F.tree t).program.get? j = some i) (hop : ∀ l, i.op ≠ .subTree l) :
    P.get? ((F.tree t).program.moved extent base exit j) =
      some ⟨i.op.moved ((F.tree t).program.moved extent base exit),
        (F.tree t).program.moved extent base exit i.onSuccess,
        (F.tree t).program.moved extent base exit i.onFail⟩ := by
  cases h with
  | mk _ hother _ _ => exact hother j i hget hop

theorem Forest.Unfolds.fixed (h : F.Unfolds extent P t base exit)
    (hget : (F.tree t).program.get? j = some i) (table : List Nat) :
    i.op ≠ .randomBranch table := by
  cases h with
  | mk hfixed _ _ _ => exact hfixed j i hget table

theorem Forest.Unfolds.link {l : Link} (h : F.Unfolds extent P t base exit)
    (hget : (F.tree t).program.get? j = some i) (hop : i.op = .subTree l) :
    l.tree < t ∧ F.Unfolds extent P l.tree ((F.tree t).program.moved extent base exit j)
      fun v => (F.tree t).program.moved extent base exit (i.exit v.status) := by
  cases h with
  | mk _ _ hbelow hlink => exact ⟨hbelow j i l hget hop, hlink j i l hget hop⟩

end

/-! ## Forests of definitions -/

/-- The trees of a forest are compiled from definitions, each after those it links to. -/
structure Forest.Built (F : Forest K A) (roots : List (Node K A)) : Prop where
  compiled : ∀ {t : TreeId} {root : Node K A}, roots[t]? = some root →
    compile root = .ok (F.tree t).program
  below : ∀ {t : TreeId} {root : Node K A}, roots[t]? = some root →
    root.Every (NodeKind.LinksBelow t)

/-- How many instructions take the place of each tree when it is inlined. -/
def extentOf (roots : List (Node K A)) (t : TreeId) : Nat :=
  ((inlineAll roots)[t]?.map (·.size)).getD 0

/-! ### Sizes -/

section

variable {p : Program K A} {roots : List (Node K A)} {t : TreeId} {start : Nat}
  {exit : Verdict → Nat}

theorem offset_leaf {op : Op K A} {yes no : Nat} (hget : p.get? start = some ⟨op, yes, no⟩)
    (hop : op.width (extentOf roots) = 1) :
    p.offset (extentOf roots) (start + 1) = p.offset (extentOf roots) start + 1 := by
  rw [Program.offset_succ hget, hop]

theorem HeadPlaced.offset {count : Option UInt32} (h : HeadPlaced p count start exit) :
    p.offset (extentOf roots) (start + headSize count) =
      p.offset (extentOf roots) start + headSize count := by
  rw [headSize]
  cases hcount : bound? count with
  | none => rfl
  | some goal =>
    obtain ⟨hstart, hcounter⟩ := h goal hcount
    simp only
    rw [show start + 2 = start + 1 + 1 from rfl, offset_leaf hcounter rfl, offset_leaf hstart rfl]

theorem ChainPlaced.offset {carry : Verdict} {children : List (Node K A)} (hne : children ≠ [])
    (ih : ∀ child ∈ children, ∀ {start exit}, child.Placed p start exit →
      p.offset (extentOf roots) (start + child.size) =
        p.offset (extentOf roots) start + (child.inlined (inlineAll roots)).size)
    (h : ChainPlaced p carry children start exit) :
    p.offset (extentOf roots) (start + sizes children) =
      p.offset (extentOf roots) start + sizes (inlinedEach (inlineAll roots) children) := by
  induction children generalizing start with
  | nil => exact absurd rfl hne
  | cons first rest ihrest =>
    by_cases hrest : rest = []
    · subst hrest
      simpa [sizes, inlinedEach] using ih first (.head _) h.last
    · obtain ⟨hfirst, hothers⟩ := h.cons hrest
      rw [sizes, inlinedEach, sizes, ← Nat.add_assoc,
        ihrest hrest (fun child hmem => ih child (.tail _ hmem)) hothers,
        ih first (.head _) hfirst, Nat.add_assoc]

/-- What takes the place of a placed node is as large as the inlined node. -/
theorem Node.Placed.offset {node : Node K A} (h : node.Placed p start exit)
    (hbelow : node.Every (NodeKind.LinksBelow roots.length))
    (hfixed : node.Every (· ≠ .random)) :
    p.offset (extentOf roots) (start + node.size) =
      p.offset (extentOf roots) start + (node.inlined (inlineAll roots)).size := by
  induction node using Node.induction generalizing start exit with
  | mk kind children weight ih =>
    have ih : ∀ child ∈ children, ∀ {start exit}, child.Placed p start exit →
        p.offset (extentOf roots) (start + child.size) =
          p.offset (extentOf roots) start + (child.inlined (inlineAll roots)).size :=
      fun child hmem _ _ hchild => ih child hmem hchild (hbelow.child hmem) (hfixed.child hmem)
    cases kind with
    | task t =>
      obtain ⟨run, -, hget⟩ := h.task
      rw [Node.inlined_of_not_link rfl, Node.size, Node.size, offset_leaf hget rfl]
    | query q => rw [Node.inlined_of_not_link rfl, Node.size, Node.size, offset_leaf h.query rfl]
    | subTree link =>
      obtain ⟨l, rfl, hget⟩ := h.subTree
      have hlt : l.tree < (inlineAll roots).length := by simpa using hbelow.kind l rfl
      have hroot := List.getElem?_eq_getElem hlt
      rw [Node.inlined_link hroot, Node.size, Program.offset_succ hget, Op.width, extentOf, hroot]
      rfl
    | sequence =>
      rw [Node.inlined_of_not_link rfl, Node.size, Node.size]
      exact h.sequence.2.offset h.sequence.1 ih
    | selector =>
      rw [Node.inlined_of_not_link rfl, Node.size, Node.size]
      exact h.selector.2.offset h.selector.1 ih
    | random => exact absurd rfl hfixed.kind
    | whileLoop count =>
      obtain ⟨condition, action, rfl, hhead, hcond, hact⟩ := h.whileLoop
      rw [Node.inlined_of_not_link rfl]
      simp only [Node.size, sizes, inlinedEach, Nat.add_zero, ← Nat.add_assoc]
      rw [ih action (.tail _ (.head _)) hact, ih condition (.head _) hcond, hhead.offset]
    | succeed =>
      rw [Node.inlined_of_not_link rfl]
      rcases h.succeed with ⟨rfl, hget⟩ | ⟨child, rfl, hchild⟩
      · exact offset_leaf hget rfl
      · simpa [Node.size, sizes, inlinedEach] using ih child (.head _) hchild
    | fail =>
      rw [Node.inlined_of_not_link rfl]
      rcases h.fail with ⟨rfl, hget⟩ | ⟨child, rfl, hchild⟩
      · exact offset_leaf hget rfl
      · simpa [Node.size, sizes, inlinedEach] using ih child (.head _) hchild
    | invert =>
      obtain ⟨child, rfl, hchild⟩ := h.invert
      rw [Node.inlined_of_not_link rfl]
      simpa [Node.size, sizes, inlinedEach] using ih child (.head _) hchild
    | repeatLoop count breakOnFail =>
      obtain ⟨child, rfl, hhead, hbody⟩ := h.repeatLoop
      rw [Node.inlined_of_not_link rfl]
      simp only [Node.size, sizes, inlinedEach, Nat.add_zero, ← Nat.add_assoc]
      rw [ih child (.head _) hbody, hhead.offset]

end

/-! ### Instructions -/

theorem comp_toward (f : Nat → Nat) (v : Verdict) (index : Nat) (exit : Verdict → Nat) :
    (fun u => f (toward v index exit u)) = toward v (f index) fun u => f (exit u) := by
  funext u
  by_cases h : u = v <;> simp [toward, h]

/-- A program holds the instructions in a range of a tree unfolded. -/
def Forest.UnfoldsIn (F : Forest K A) (extent : TreeId → Nat) (P : Program K A) (t : TreeId)
    (base : Nat) (exit : Verdict → Nat) (lo hi : Nat) : Prop :=
  ∀ j i, lo ≤ j → j < hi → (F.tree t).program.get? j = some i →
    (∀ table, i.op ≠ .randomBranch table) ∧
    (∀ l, i.op = .subTree l → l.tree < t ∧
      F.Unfolds extent P l.tree ((F.tree t).program.moved extent base exit j)
        fun v => (F.tree t).program.moved extent base exit (i.exit v.status)) ∧
    ((∀ l, i.op ≠ .subTree l) →
      P.get? ((F.tree t).program.moved extent base exit j) =
        some ⟨i.op.moved ((F.tree t).program.moved extent base exit),
          (F.tree t).program.moved extent base exit i.onSuccess,
          (F.tree t).program.moved extent base exit i.onFail⟩)

section

variable {F : Forest K A} {roots : List (Node K A)} {P : Program K A} {t : TreeId} {base : Nat}
  {exit : Verdict → Nat} {start lo mid hi : Nat} {e : Verdict → Nat}

theorem Forest.UnfoldsIn.join {extent : TreeId → Nat} (h : F.UnfoldsIn extent P t base exit lo mid)
    (h' : F.UnfoldsIn extent P t base exit mid hi) : F.UnfoldsIn extent P t base exit lo hi := by
  intro j i hlo hhi hget
  by_cases hmid : j < mid
  · exact h j i hlo hmid hget
  · exact h' j i (by omega) hhi hget

theorem Forest.unfoldsIn_single {extent : TreeId → Nat} {i : Instruction Nat K A}
    (hget : (F.tree t).program.get? start = some i) (hop : ∀ l, i.op ≠ .subTree l)
    (hfixed : ∀ table, i.op ≠ .randomBranch table)
    (hP : P.get? ((F.tree t).program.moved extent base exit start) =
      some ⟨i.op.moved ((F.tree t).program.moved extent base exit),
        (F.tree t).program.moved extent base exit i.onSuccess,
        (F.tree t).program.moved extent base exit i.onFail⟩) :
    F.UnfoldsIn extent P t base exit start (start + 1) := by
  intro j i' hlo hhi hget'
  obtain rfl : j = start := by omega
  rw [hget] at hget'
  cases hget'
  exact ⟨hfixed, fun l hl => absurd hl (hop l), fun _ => hP⟩

theorem Node.Placed.moved_add_size {node : Node K A}
    (h : node.Placed (F.tree t).program start e)
    (hbelow : node.Every (NodeKind.LinksBelow roots.length)) (hfixed : node.Every (· ≠ .random))
    (hnext : start + node.size < (F.tree t).program.length) :
    (F.tree t).program.moved (extentOf roots) base exit (start + node.size) =
      (F.tree t).program.moved (extentOf roots) base exit start +
        (node.inlined (inlineAll roots)).size := by
  rw [Program.moved_of_lt hnext, Program.moved_of_lt h.lt_length, h.offset hbelow hfixed,
    Nat.add_assoc]

theorem HeadPlaced.moved_add {count : Option UInt32}
    (h : HeadPlaced (F.tree t).program count start e)
    (hbody : start + headSize count < (F.tree t).program.length) :
    (F.tree t).program.moved (extentOf roots) base exit (start + headSize count) =
      (F.tree t).program.moved (extentOf roots) base exit start + headSize count := by
  rw [Program.moved_of_lt hbody, Program.moved_of_lt (h.lt_length hbody), h.offset, Nat.add_assoc]

theorem HeadPlaced.moved_again {count : Option UInt32}
    (h : HeadPlaced (F.tree t).program count start e) :
    (F.tree t).program.moved (extentOf roots) base exit (loopAgain start count) =
      loopAgain ((F.tree t).program.moved (extentOf roots) base exit start) count := by
  rw [loopAgain, loopAgain]
  cases hcount : bound? count with
  | none => rfl
  | some goal =>
    obtain ⟨hstart, hcounter⟩ := h goal hcount
    simp only
    rw [Program.moved_of_lt (Program.lt_length_of_get? hcounter),
      Program.moved_of_lt (Program.lt_length_of_get? hstart), offset_leaf hstart rfl, Nat.add_assoc]

theorem HeadPlaced.unfoldsIn {count : Option UInt32}
    (h : HeadPlaced (F.tree t).program count start e)
    (hbody : start + headSize count < (F.tree t).program.length)
    (hP : HeadPlaced P count ((F.tree t).program.moved (extentOf roots) base exit start)
      fun v => (F.tree t).program.moved (extentOf roots) base exit (e v)) :
    F.UnfoldsIn (extentOf roots) P t base exit start (start + headSize count) := by
  have hmoved : (F.tree t).program.moved (extentOf roots) base exit (start + headSize count) =
      (F.tree t).program.moved (extentOf roots) base exit start + headSize count :=
    h.moved_add hbody
  have hagain : (F.tree t).program.moved (extentOf roots) base exit (loopAgain start count) =
      loopAgain ((F.tree t).program.moved (extentOf roots) base exit start) count :=
    h.moved_again
  rw [headSize] at hbody hmoved ⊢
  rw [loopAgain, loopAgain] at hagain
  cases hcount : bound? count with
  | none => exact fun j i hlo hhi => by simp only at hhi; omega
  | some goal =>
    simp only [hcount] at hbody hmoved hagain ⊢
    obtain ⟨hstart, hcounter⟩ := h goal hcount
    obtain ⟨hstart', hcounter'⟩ := hP goal hcount
    refine (Forest.unfoldsIn_single hstart (by simp) (by simp) ?_).join
      (Forest.unfoldsIn_single hcounter (by simp) (by simp) ?_)
    · rw [hstart', ← hagain]
      rfl
    · rw [hagain, hcounter', ← hmoved]
      rfl

theorem ChainPlaced.unfoldsIn {carry : Verdict} {children : List (Node K A)} (hne : children ≠ [])
    (ih : ∀ child ∈ children, ∀ {start e}, child.Placed (F.tree t).program start e →
      (child.inlined (inlineAll roots)).Placed P
        ((F.tree t).program.moved (extentOf roots) base exit start)
        (fun v => (F.tree t).program.moved (extentOf roots) base exit (e v)) →
      F.UnfoldsIn (extentOf roots) P t base exit start (start + child.size))
    (hbelow : ∀ child ∈ children, child.Every (NodeKind.LinksBelow roots.length))
    (hfixed : ∀ child ∈ children, child.Every (· ≠ .random))
    (h : ChainPlaced (F.tree t).program carry children start e)
    (hP : ChainPlaced P carry (inlinedEach (inlineAll roots) children)
      ((F.tree t).program.moved (extentOf roots) base exit start)
      fun v => (F.tree t).program.moved (extentOf roots) base exit (e v)) :
    F.UnfoldsIn (extentOf roots) P t base exit start (start + sizes children) := by
  induction children generalizing start with
  | nil => exact absurd rfl hne
  | cons first rest ihrest =>
    by_cases hrest : rest = []
    · subst hrest
      simpa [sizes] using ih first (.head _) h.last hP.last
    · obtain ⟨hfirst, hothers⟩ := h.cons hrest
      have hrest' : inlinedEach (inlineAll roots) rest ≠ [] := by
        cases rest with
        | nil => exact absurd rfl hrest
        | cons second more => exact List.cons_ne_nil _ _
      obtain ⟨hfirst', hothers'⟩ := hP.cons hrest'
      have hnext : start + first.size < (F.tree t).program.length :=
        hothers.lt_length hrest fun child _ => Node.Placed.lt_length
      have hmoved : (F.tree t).program.moved (extentOf roots) base exit (start + first.size) =
          (F.tree t).program.moved (extentOf roots) base exit start +
            (first.inlined (inlineAll roots)).size :=
        hfirst.moved_add_size (hbelow first (.head _)) (hfixed first (.head _)) hnext
      rw [← hmoved] at hfirst' hothers'
      rw [← comp_toward] at hfirst'
      rw [sizes, ← Nat.add_assoc]
      exact (ih first (.head _) hfirst hfirst').join
        (ihrest hrest (fun child hmem => ih child (.tail _ hmem))
          (fun child hmem => hbelow child (.tail _ hmem))
          (fun child hmem => hfixed child (.tail _ hmem)) hothers hothers')

/-- A program that holds an inlined node holds the instructions of the node unfolded, if
inlined trees are unfolded. -/
theorem Node.Placed.unfoldsIn {node : Node K A}
    (htrees : ∀ {u root start e}, u < t → (inlineAll roots)[u]? = some root →
      root.Placed P start e → F.Unfolds (extentOf roots) P u start e)
    (hlength : t ≤ roots.length) (hbelow : node.Every (NodeKind.LinksBelow t))
    (hfixed : node.Every (· ≠ .random)) (h : node.Placed (F.tree t).program start e)
    (hP : (node.inlined (inlineAll roots)).Placed P
      ((F.tree t).program.moved (extentOf roots) base exit start)
      fun v => (F.tree t).program.moved (extentOf roots) base exit (e v)) :
    F.UnfoldsIn (extentOf roots) P t base exit start (start + node.size) := by
  induction node using Node.induction generalizing start e with
  | mk kind children weight ih =>
    have ih : ∀ child ∈ children, ∀ {start e}, child.Placed (F.tree t).program start e →
        (child.inlined (inlineAll roots)).Placed P
          ((F.tree t).program.moved (extentOf roots) base exit start)
          (fun v => (F.tree t).program.moved (extentOf roots) base exit (e v)) →
        F.UnfoldsIn (extentOf roots) P t base exit start (start + child.size) :=
      fun child hmem _ _ hchild => ih child hmem (hbelow.child hmem) (hfixed.child hmem) hchild
    have hlower : ∀ child ∈ children, child.Every (NodeKind.LinksBelow roots.length) :=
      fun child hmem => (hbelow.child hmem).imp fun kind hkind l hl =>
        Nat.lt_of_lt_of_le (hkind l hl) hlength
    cases kind with
    | task task =>
      rw [Node.inlined_of_not_link rfl] at hP
      obtain ⟨run, hrun, hget⟩ := h.task
      obtain ⟨run', hrun', hget'⟩ := hP.task
      rw [hrun] at hrun'
      cases hrun'
      exact Forest.unfoldsIn_single hget (by simp) (by simp) hget'
    | query q =>
      rw [Node.inlined_of_not_link rfl] at hP
      exact Forest.unfoldsIn_single h.query (by simp) (by simp) hP.query
    | subTree link =>
      obtain ⟨l, rfl, hget⟩ := h.subTree
      have hlt : l.tree < t := hbelow.kind l rfl
      have hindex : l.tree < (inlineAll roots).length := by
        rw [length_inlineAll]
        exact Nat.lt_of_lt_of_le hlt hlength
      have hroot := List.getElem?_eq_getElem hindex
      rw [Node.inlined_link hroot] at hP
      intro j i hlo hhi hget'
      obtain rfl : j = start := by simp only [Node.size] at hhi; omega
      rw [hget] at hget'
      cases hget'
      refine ⟨by simp, fun l' hl' => ?_, fun hop => absurd rfl (hop l)⟩
      cases hl'
      simp only [Instruction.exit_status]
      exact ⟨hlt, htrees hlt hroot hP⟩
    | sequence =>
      rw [Node.inlined_of_not_link rfl] at hP
      exact h.sequence.2.unfoldsIn h.sequence.1 ih hlower (fun _ hmem => hfixed.child hmem)
        hP.sequence.2
    | selector =>
      rw [Node.inlined_of_not_link rfl] at hP
      exact h.selector.2.unfoldsIn h.selector.1 ih hlower (fun _ hmem => hfixed.child hmem)
        hP.selector.2
    | random => exact absurd rfl hfixed.kind
    | whileLoop count =>
      rw [Node.inlined_of_not_link rfl] at hP
      obtain ⟨condition, action, rfl, hhead, hcond, hact⟩ := h.whileLoop
      obtain ⟨condition', action', heq, hhead', hcond', hact'⟩ := hP.whileLoop
      cases heq
      have hbody := hcond.lt_length
      have hhead_moved : (F.tree t).program.moved (extentOf roots) base exit
          (start + headSize count) = _ := hhead.moved_add hbody
      have hcond_moved : (F.tree t).program.moved (extentOf roots) base exit
          (start + headSize count + condition.size) = _ :=
        hcond.moved_add_size (hlower condition (.head _)) (hfixed.child (.head _)) hact.lt_length
      have hagain : (F.tree t).program.moved (extentOf roots) base exit
          (loopAgain start count) = _ := hhead.moved_again
      rw [← hhead_moved] at hcond' hact'
      rw [← hcond_moved, ← comp_toward] at hcond'
      rw [← hcond_moved, ← hagain, ← comp_toward] at hact'
      simp only [Node.size, sizes, Nat.add_zero, ← Nat.add_assoc]
      exact ((hhead.unfoldsIn hbody hhead').join (ih condition (.head _) hcond hcond')).join
        (ih action (.tail _ (.head _)) hact hact')
    | succeed =>
      rw [Node.inlined_of_not_link rfl] at hP
      rcases h.succeed with ⟨rfl, hget⟩ | ⟨child, rfl, hchild⟩
      · rcases hP.succeed with ⟨-, hget'⟩ | ⟨child', heq, -⟩
        · exact Forest.unfoldsIn_single hget (by simp) (by simp) hget'
        · cases heq
      · rcases hP.succeed with ⟨heq, -⟩ | ⟨child', heq, hchild'⟩
        · cases heq
        · cases heq
          simpa [Node.size, sizes] using ih child (.head _) hchild hchild'
    | fail =>
      rw [Node.inlined_of_not_link rfl] at hP
      rcases h.fail with ⟨rfl, hget⟩ | ⟨child, rfl, hchild⟩
      · rcases hP.fail with ⟨-, hget'⟩ | ⟨child', heq, -⟩
        · exact Forest.unfoldsIn_single hget (by simp) (by simp) hget'
        · cases heq
      · rcases hP.fail with ⟨heq, -⟩ | ⟨child', heq, hchild'⟩
        · cases heq
        · cases heq
          simpa [Node.size, sizes] using ih child (.head _) hchild hchild'
    | invert =>
      rw [Node.inlined_of_not_link rfl] at hP
      obtain ⟨child, rfl, hchild⟩ := h.invert
      obtain ⟨child', heq, hchild'⟩ := hP.invert
      cases heq
      simpa [Node.size, sizes] using ih child (.head _) hchild hchild'
    | repeatLoop count breakOnFail =>
      rw [Node.inlined_of_not_link rfl] at hP
      obtain ⟨child, rfl, hhead, hbody⟩ := h.repeatLoop
      obtain ⟨child', heq, hhead', hbody'⟩ := hP.repeatLoop
      cases heq
      have hhead_moved : (F.tree t).program.moved (extentOf roots) base exit
          (start + headSize count) = _ := hhead.moved_add hbody.lt_length
      have hagain : (F.tree t).program.moved (extentOf roots) base exit
          (loopAgain start count) = _ := hhead.moved_again
      simp only [Node.size, sizes, Nat.add_zero, ← Nat.add_assoc]
      refine (hhead.unfoldsIn hbody.lt_length hhead').join (ih child (.head _) hbody ?_)
      rw [← hhead_moved, ← hagain] at hbody'
      cases breakOnFail with
      | true =>
        simp only [if_true] at hbody' ⊢
        rwa [comp_toward]
      | false => exact hbody'

end

/-! ### Trees -/

namespace Forest

variable {F : Forest K A} {roots : List (Node K A)}

/-- A program that holds an inlined definition holds its tree unfolded. -/
theorem unfolds_of_placed (hbuilt : F.Built roots)
    (hfixed : ∀ root ∈ roots, root.Every (· ≠ .random)) {P : Program K A} {t : TreeId}
    {root : Node K A} {base : Nat} {exit : Verdict → Nat}
    (hroot : (inlineAll roots)[t]? = some root)
    (hP : root.Placed P base exit) : F.Unfolds (extentOf roots) P t base exit := by
  -- Links lead to trees built before, wherever in the program these are held.
  induction t using Nat.strongRecOn generalizing root base exit with
  | ind t ih =>
    have ht : t < roots.length := by
      have hlt := (List.getElem?_eq_some_iff.1 hroot).1
      rwa [length_inlineAll] at hlt
    have hget := List.getElem?_eq_getElem ht
    have hbelow := hbuilt.below hget
    have hcompiled := hbuilt.compiled hget
    have hplaced := Node.placed_of_compile hcompiled
    have hpos := hplaced.lt_length
    rw [getElem?_inlineAll hget hbelow] at hroot
    cases hroot
    have hin : F.UnfoldsIn (extentOf roots) P t base exit 0 (0 + roots[t].size) := by
      refine hplaced.unfoldsIn (fun hu hroot hplaced => ih _ hu hroot hplaced) (Nat.le_of_lt ht)
        hbelow (hfixed _ (List.getElem_mem ht)) ?_
      simp only [Program.moved_zero hpos, Program.moved_ends]
      exact hP
    rw [Nat.zero_add, ← Node.length_of_compile hcompiled] at hin
    have hall : ∀ j i, (F.tree t).program.get? j = some i → _ := fun j i hj =>
      hin j i (Nat.zero_le j) (Program.lt_length_of_get? hj) hj
    exact .mk (fun j i hj => (hall j i hj).1) (fun j i hj => (hall j i hj).2.2)
      (fun j i l hj hop => ((hall j i hj).2.1 l hop).1)
      fun j i l hj hop => ((hall j i hj).2.1 l hop).2

/-- The whole of a tree takes as many instructions as its inlined definition. -/
theorem Built.offset_length (hbuilt : F.Built roots)
    (hfixed : ∀ root ∈ roots, root.Every (· ≠ .random)) {t : TreeId} (ht : t < roots.length) :
    (F.tree t).program.offset (extentOf roots) (F.tree t).program.length = extentOf roots t := by
  have hget := List.getElem?_eq_getElem ht
  have hbelow := hbuilt.below hget
  have hcompiled := hbuilt.compiled hget
  have hoffset := (Node.placed_of_compile hcompiled).offset
    (hbelow.imp fun kind hkind l hl => Nat.lt_trans (hkind l hl) ht)
    (hfixed _ (List.getElem_mem ht))
  rw [Nat.zero_add, Program.offset_zero, Nat.zero_add,
    ← Node.length_of_compile hcompiled] at hoffset
  rw [hoffset, extentOf, getElem?_inlineAll hget hbelow]
  rfl

end Forest

end TickTree

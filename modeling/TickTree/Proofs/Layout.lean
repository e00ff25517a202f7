import TickTree.Compile

/-!
# Where nodes stand in a program

The code of a node is a contiguous range of the program, and its open verdicts
have become indices there. `Node.Placed p node start exit` says that `p` holds
the code of `node` from `start` on, with each verdict `v` of the node gone to
`exit v`. One lemma for each kind takes a placed node apart into its placed
children, so nothing after this module opens the code itself.
-/

namespace TickTree

variable {K A : Type}

/-- Induction over definitions: a property of all children is one of the node. -/
@[elab_as_elim]
theorem Node.induction {motive : Node K A → Prop}
    (mk : ∀ kind children weight, (∀ child ∈ children, motive child) →
      motive (.mk kind children weight)) (node : Node K A) : motive node := by
  obtain ⟨kind, children, weight⟩ := node
  refine mk kind children weight fun child hmem => ?_
  exact Node.induction mk child
termination_by node
decreasing_by
  have hlt := List.sizeOf_lt_of_mem hmem
  simp only [Node.mk.sizeOf_spec]
  omega

/-! ## Sizes -/

/-- How many instructions stand in front of a loop. -/
def headSize (count : Option UInt32) : Nat :=
  match bound? count with
  | none => 0
  | some _ => 2

mutual

/-- How many instructions the code of a node has. -/
def Node.size : Node K A → Nat
  | .mk (.task _) _ _ => 1
  | .mk (.query _) _ _ => 1
  | .mk (.subTree _) _ _ => 1
  | .mk .sequence children _ => sizes children
  | .mk .selector children _ => sizes children
  | .mk .random children _ => 1 + sizes children
  | .mk (.whileLoop count) children _ => headSize count + sizes children
  | .mk .succeed [] _ => 1
  | .mk .succeed children _ => sizes children
  | .mk .fail [] _ => 1
  | .mk .fail children _ => sizes children
  | .mk .invert children _ => sizes children
  | .mk (.repeatLoop count _) children _ => headSize count + sizes children

/-- How many instructions the code of nodes in a row has. -/
def sizes : List (Node K A) → Nat
  | [] => 0
  | node :: rest => node.size + sizes rest

end

theorem length_loopHead (start : Nat) (count : Option UInt32) :
    (Code.loopHead (K := K) (A := A) start count).length = headSize count := by
  rw [Code.loopHead, headSize]
  cases bound? count <;> rfl

theorem bind_eq_ok_iff {ε α β : Type} {x : Except ε α} {f : α → Except ε β} {b : β} :
    x >>= f = .ok b ↔ ∃ a, x = .ok a ∧ f a = .ok b := by
  cases x with
  | error e => exact ⟨fun h => (by cases h), fun ⟨_, h, _⟩ => by cases h⟩
  | ok a => exact ⟨fun h => ⟨a, rfl, h⟩, fun ⟨_, h, h'⟩ => by cases h; exact h'⟩

/-! ## Accepted nodes

What the code of an accepted node is made of, kind by kind. -/

section

variable {path : Path} {start : Nat} {children : List (Node K A)} {weight : UInt32}
  {code : Code K A}

attribute [local simp] Node.assemble

theorem assemble_task {t : Task K A}
    (h : Node.assemble path start (.mk (.task t) children weight) = .ok code) :
    ∃ run, t.run = some run ∧ children = [] ∧
      code = .single (.task ⟨t.name, t.start, run, t.finish⟩) := by
  cases children with
  | cons child rest => simp at h
  | nil =>
    rw [Node.assemble] at h
    cases hrun : t.run with
    | none => simp [hrun] at h
    | some run =>
      simp only [hrun, Except.ok.injEq] at h
      exact ⟨run, rfl, rfl, h.symm⟩

theorem assemble_query {q : Query}
    (h : Node.assemble path start (.mk (.query q) children weight) = .ok code) :
    children = [] ∧ code = .single (.query q) := by
  cases children with
  | cons child rest => simp at h
  | nil =>
    simp only [Node.assemble, Except.ok.injEq] at h
    exact ⟨rfl, h.symm⟩

theorem assemble_subTree {link : Option Link}
    (h : Node.assemble path start (.mk (.subTree link) children weight) = .ok code) :
    ∃ l, link = some l ∧ children = [] ∧ code = .single (.subTree l) := by
  cases children with
  | cons child rest => simp at h
  | nil =>
    cases link with
    | none => simp at h
    | some l =>
      simp only [Node.assemble, Except.ok.injEq] at h
      exact ⟨l, rfl, rfl, h.symm⟩

theorem assemble_sequence
    (h : Node.assemble path start (.mk .sequence children weight) = .ok code) :
    children ≠ [] ∧ assembleChain .success path 0 start children = .ok code := by
  cases children with
  | nil => simp at h
  | cons child rest =>
    rw [Node.assemble] at h
    · exact ⟨List.cons_ne_nil _ _, h⟩
    · simp

theorem assemble_selector
    (h : Node.assemble path start (.mk .selector children weight) = .ok code) :
    children ≠ [] ∧ assembleChain .failure path 0 start children = .ok code := by
  cases children with
  | nil => simp at h
  | cons child rest =>
    rw [Node.assemble] at h
    · exact ⟨List.cons_ne_nil _ _, h⟩
    · simp

theorem assemble_random
    (h : Node.assemble path start (.mk .random children weight) = .ok code) :
    ∃ table rest, assembleBranches path 0 (start + 1) children = .ok (rest, table) ∧
      table ≠ [] ∧ code = .single (.randomBranch table) ++ rest := by
  cases children with
  | nil => simp at h
  | cons child others =>
    rw [Node.assemble] at h
    · obtain ⟨⟨rest, table⟩, hbranches, hcode⟩ := bind_eq_ok_iff.1 h
      cases table with
      | nil => simp at hcode
      | cons target targets =>
        simp only [List.isEmpty_cons, Bool.false_eq_true, if_false] at hcode
        cases hcode
        exact ⟨target :: targets, rest, hbranches, List.cons_ne_nil _ _, rfl⟩
    · simp

theorem assemble_whileLoop {count : Option UInt32}
    (h : Node.assemble path start (.mk (.whileLoop count) children weight) = .ok code) :
    ∃ condition action first second, children = [condition, action] ∧
      condition.assemble (path ++ [0]) (start + headSize count) = .ok first ∧
      action.assemble (path ++ [1]) (start + headSize count + first.length) = .ok second ∧
      code = Code.loopHead start count ++
        first.route (.sending .success (start + headSize count + first.length)) ++
        second.route (.sending .failure (loopAgain start count)) := by
  match children, h with
  | [], h => simp at h
  | [_], h => simp at h
  | _ :: _ :: _ :: _, h => simp at h
  | [condition, action], h =>
    rw [Node.assemble] at h
    simp only [length_loopHead] at h
    obtain ⟨first, hfirst, h⟩ := bind_eq_ok_iff.1 h
    obtain ⟨second, hsecond, h⟩ := bind_eq_ok_iff.1 h
    cases h
    exact ⟨condition, action, first, second, rfl, hfirst, hsecond, rfl⟩

theorem assemble_succeed
    (h : Node.assemble path start (.mk .succeed children weight) = .ok code) :
    (children = [] ∧ code = .single .hangingSucceed) ∨
      ∃ child inner, children = [child] ∧ child.assemble (path ++ [0]) start = .ok inner ∧
        code = inner.route (.forcing .success) := by
  match children, h with
  | [], h =>
    simp only [Node.assemble, Except.ok.injEq] at h
    exact .inl ⟨rfl, h.symm⟩
  | _ :: _ :: _, h => simp at h
  | [child], h =>
    rw [Node.assemble] at h
    obtain ⟨inner, hinner, h⟩ := bind_eq_ok_iff.1 h
    cases h
    exact .inr ⟨child, inner, rfl, hinner, rfl⟩

theorem assemble_fail
    (h : Node.assemble path start (.mk .fail children weight) = .ok code) :
    (children = [] ∧ code = .single .hangingFail) ∨
      ∃ child inner, children = [child] ∧ child.assemble (path ++ [0]) start = .ok inner ∧
        code = inner.route (.forcing .failure) := by
  match children, h with
  | [], h =>
    simp only [Node.assemble, Except.ok.injEq] at h
    exact .inl ⟨rfl, h.symm⟩
  | _ :: _ :: _, h => simp at h
  | [child], h =>
    rw [Node.assemble] at h
    obtain ⟨inner, hinner, h⟩ := bind_eq_ok_iff.1 h
    cases h
    exact .inr ⟨child, inner, rfl, hinner, rfl⟩

theorem assemble_invert
    (h : Node.assemble path start (.mk .invert children weight) = .ok code) :
    ∃ child inner, children = [child] ∧ child.assemble (path ++ [0]) start = .ok inner ∧
      code = inner.route .swapping := by
  match children, h with
  | [], h => simp at h
  | _ :: _ :: _, h => simp at h
  | [child], h =>
    rw [Node.assemble] at h
    obtain ⟨inner, hinner, h⟩ := bind_eq_ok_iff.1 h
    cases h
    exact ⟨child, inner, rfl, hinner, rfl⟩

theorem assemble_repeatLoop {count : Option UInt32} {breakOnFail : Bool}
    (h : Node.assemble path start (.mk (.repeatLoop count breakOnFail) children weight) =
      .ok code) :
    ∃ child body, children = [child] ∧
      child.assemble (path ++ [0]) (start + headSize count) = .ok body ∧
      code = Code.loopHead start count ++
        body.route (if breakOnFail then .sending .success (loopAgain start count)
          else .looping (loopAgain start count)) := by
  match children, h with
  | [], h => simp at h
  | _ :: _ :: _, h => simp at h
  | [child], h =>
    rw [Node.assemble] at h
    simp only [length_loopHead] at h
    obtain ⟨body, hbody, h⟩ := bind_eq_ok_iff.1 h
    cases h
    exact ⟨child, body, rfl, hbody, rfl⟩

theorem assembleChain_cons {carry : Verdict} {place : Nat} {child : Node K A}
    {rest : List (Node K A)} (hrest : rest ≠ [])
    (h : assembleChain carry path place start (child :: rest) = .ok code) :
    ∃ first others, child.assemble (path ++ [place]) start = .ok first ∧
      assembleChain carry path (place + 1) (start + first.length) rest = .ok others ∧
      code = first.route (.sending carry (start + first.length)) ++ others := by
  rw [assembleChain] at h
  · obtain ⟨first, hfirst, h⟩ := bind_eq_ok_iff.1 h
    obtain ⟨others, hothers, h⟩ := bind_eq_ok_iff.1 h
    cases h
    exact ⟨first, others, hfirst, hothers, rfl⟩
  · exact hrest

theorem assembleBranches_cons {place : Nat} {child : Node K A} {rest : List (Node K A)}
    {table : List Nat}
    (h : assembleBranches path place start (child :: rest) = .ok (code, table)) :
    ∃ first others targets, child.assemble (path ++ [place]) start = .ok first ∧
      assembleBranches path (place + 1) (start + first.length) rest = .ok (others, targets) ∧
      code = first ++ others ∧ table = List.replicate child.weight.toNat start ++ targets := by
  rw [assembleBranches] at h
  obtain ⟨first, hfirst, h⟩ := bind_eq_ok_iff.1 h
  obtain ⟨⟨others, targets⟩, hothers, h⟩ := bind_eq_ok_iff.1 h
  cases h
  exact ⟨first, others, targets, hfirst, hothers, rfl, rfl⟩

end

/-! ## The size of accepted nodes -/

theorem length_assembleChain {children : List (Node K A)}
    (ih : ∀ child ∈ children, ∀ {path start code},
      child.assemble path start = .ok code → code.length = child.size)
    {carry : Verdict} {path : Path} {place start : Nat} {code : Code K A}
    (h : assembleChain carry path place start children = .ok code) :
    code.length = sizes children := by
  induction children generalizing place start code with
  | nil => cases h; rfl
  | cons child rest ihrest =>
    by_cases hrest : rest = []
    · subst hrest
      rw [assembleChain] at h
      simp [sizes, ih child (.head _) h]
    · obtain ⟨first, others, hfirst, hothers, rfl⟩ := assembleChain_cons hrest h
      simp [sizes, ih child (.head _) hfirst,
        ihrest (fun c hc => ih c (.tail _ hc)) hothers]

theorem length_assembleBranches {children : List (Node K A)}
    (ih : ∀ child ∈ children, ∀ {path start code},
      child.assemble path start = .ok code → code.length = child.size)
    {path : Path} {place start : Nat} {code : Code K A} {table : List Nat}
    (h : assembleBranches path place start children = .ok (code, table)) :
    code.length = sizes children := by
  induction children generalizing place start code table with
  | nil => cases h; rfl
  | cons child rest ihrest =>
    obtain ⟨first, others, targets, hfirst, hothers, rfl, rfl⟩ := assembleBranches_cons h
    simp [sizes, ih child (.head _) hfirst, ihrest (fun c hc => ih c (.tail _ hc)) hothers]

/-- The code of an accepted node is as long as the node is large. -/
theorem length_assemble {node : Node K A} {path : Path} {start : Nat} {code : Code K A}
    (h : node.assemble path start = .ok code) : code.length = node.size := by
  induction node using Node.induction generalizing path start code with
  | mk kind children weight ih =>
    cases kind with
    | task t =>
      obtain ⟨run, hrun, rfl, rfl⟩ := assemble_task h
      rfl
    | query q =>
      obtain ⟨rfl, rfl⟩ := assemble_query h
      rfl
    | subTree link =>
      obtain ⟨l, rfl, rfl, rfl⟩ := assemble_subTree h
      rfl
    | sequence => exact length_assembleChain (fun c hc => ih c hc) (assemble_sequence h).2
    | selector => exact length_assembleChain (fun c hc => ih c hc) (assemble_selector h).2
    | random =>
      obtain ⟨table, rest, hrest, htable, rfl⟩ := assemble_random h
      simp [Node.size, Code.single, length_assembleBranches (fun c hc => ih c hc) hrest,
        Nat.add_comm]
    | whileLoop count =>
      obtain ⟨condition, action, first, second, rfl, hfirst, hsecond, rfl⟩ := assemble_whileLoop h
      simp [Node.size, sizes, length_loopHead, ih condition (.head _) hfirst,
        ih action (.tail _ (.head _)) hsecond]
    | succeed =>
      rcases assemble_succeed h with ⟨rfl, rfl⟩ | ⟨child, inner, rfl, hinner, rfl⟩
      · rfl
      · simp [Node.size, sizes, ih child (.head _) hinner]
    | fail =>
      rcases assemble_fail h with ⟨rfl, rfl⟩ | ⟨child, inner, rfl, hinner, rfl⟩
      · rfl
      · simp [Node.size, sizes, ih child (.head _) hinner]
    | invert =>
      obtain ⟨child, inner, rfl, hinner, rfl⟩ := assemble_invert h
      simp [Node.size, sizes, ih child (.head _) hinner]
    | repeatLoop count breakOnFail =>
      obtain ⟨child, body, rfl, hbody, rfl⟩ := assemble_repeatLoop h
      simp [Node.size, sizes, length_loopHead, ih child (.head _) hbody]

/-! ## Code in a program -/

/-- The index an exit goes to where each verdict has an index. -/
def Exit.index (exit : Verdict → Nat) : Exit → Nat
  | .verdict v => exit v
  | .goto index => index

/-- The indices of verdicts where one of them goes elsewhere. -/
def toward (v : Verdict) (index : Nat) (exit : Verdict → Nat) : Verdict → Nat :=
  fun u => if u = v then index else exit u

@[simp]
theorem toward_self (v : Verdict) (index : Nat) (exit : Verdict → Nat) :
    toward v index exit v = index := by simp [toward]

theorem toward_of_ne {u v : Verdict} (h : u ≠ v) (index : Nat) (exit : Verdict → Nat) :
    toward v index exit u = exit u := by simp [toward, h]

theorem Exit.index_route (r : Routing) (exit : Verdict → Nat) (e : Exit) :
    (e.route r).index exit = e.index fun v => (r v).index exit := by
  cases e <;> rfl

theorem index_sending (v : Verdict) (index : Nat) (exit : Verdict → Nat) :
    (fun u => (Routing.sending v index u).index exit) = toward v index exit := by
  funext u
  by_cases h : u = v <;> simp [Routing.sending, toward, Exit.index, h]

/-- What an instruction does after its indices are moved. -/
def Op.moved (f : Nat → Nat) : Op K A → Op K A
  | .randomBranch table => .randomBranch (table.map f)
  | .repeatStart counter => .repeatStart (f counter)
  | .repeatCounter goal body => .repeatCounter goal (f body)
  | op => op

/-- The program holds code from an instruction on, with its verdicts gone to indices. -/
def Program.Holds (p : Program K A) (start : Nat) (code : Code K A) (exit : Verdict → Nat) :
    Prop :=
  ∀ i x, code[i]? = some x → p.get? (start + i) = some (x.mapExits (·.index exit))

namespace Program.Holds

variable {p : Program K A} {start : Nat} {c d : Code K A} {exit : Verdict → Nat}

theorem left (h : p.Holds start (c ++ d) exit) : p.Holds start c exit := by
  intro i x hx
  refine h i x ?_
  have hi : i < c.length := (List.getElem?_eq_some_iff.1 hx).1
  rw [List.getElem?_append_left hi, hx]

theorem right (h : p.Holds start (c ++ d) exit) : p.Holds (start + c.length) d exit := by
  intro i x hx
  rw [Nat.add_assoc]
  refine h (c.length + i) x ?_
  rw [List.getElem?_append_right (by omega), Nat.add_sub_cancel_left, hx]

theorem of_route {r : Routing} (h : p.Holds start (c.route r) exit) :
    p.Holds start c fun v => (r v).index exit := by
  intro i x hx
  have hrouted : (c.route r)[i]? = some (x.mapExits (·.route r)) := by
    simp [Code.route, hx]
  rw [h i _ hrouted]
  simp [Instruction.mapExits, Exit.index_route]

theorem single {op : Op K A} (h : p.Holds start (.single op) exit) :
    p.get? start = some ⟨op, exit .success, exit .failure⟩ := h 0 _ rfl

end Program.Holds

/-- The program holds the code of a node from an instruction on, with each verdict of
the node gone to an index. -/
def Node.Placed (p : Program K A) (node : Node K A) (start : Nat) (exit : Verdict → Nat) : Prop :=
  ∃ path code, node.assemble path start = .ok code ∧ p.Holds start code exit

/-- The program holds the code of the children of a sequence or selector. -/
def ChainPlaced (p : Program K A) (carry : Verdict) (children : List (Node K A)) (start : Nat)
    (exit : Verdict → Nat) : Prop :=
  ∃ path place code, assembleChain carry path place start children = .ok code ∧
    p.Holds start code exit

/-- The program holds the code of the children of a random node with this table. -/
def BranchesPlaced (p : Program K A) (children : List (Node K A)) (start : Nat)
    (exit : Verdict → Nat) (table : List Nat) : Prop :=
  ∃ path place code, assembleBranches path place start children = .ok (code, table) ∧
    p.Holds start code exit

/-- The program holds the two instructions in front of a counted loop; nothing stands
in front of another loop. -/
def HeadPlaced (p : Program K A) (count : Option UInt32) (start : Nat) (exit : Verdict → Nat) :
    Prop :=
  ∀ goal, bound? count = some goal →
    p.get? start = some ⟨.repeatStart (start + 1), start + 1, start + 1⟩ ∧
      p.get? (start + 1) = some ⟨.repeatCounter goal (start + 2), exit .success, exit .failure⟩

theorem HeadPlaced.of_holds {p : Program K A} {count : Option UInt32} {start : Nat}
    {exit : Verdict → Nat} (h : p.Holds start (Code.loopHead start count) exit) :
    HeadPlaced p count start exit := by
  intro goal hgoal
  rw [Code.loopHead, hgoal] at h
  exact ⟨h 0 _ rfl, h 1 _ rfl⟩

/-! ## Taking placed nodes apart -/

namespace Node.Placed

variable {p : Program K A} {children : List (Node K A)} {weight : UInt32} {start : Nat}
  {exit : Verdict → Nat}

theorem task {t : Task K A} (h : Placed p (.mk (.task t) children weight) start exit) :
    ∃ run, t.run = some run ∧
      p.get? start =
        some ⟨.task ⟨t.name, t.start, run, t.finish⟩, exit .success, exit .failure⟩ := by
  obtain ⟨path, code, hcode, hp⟩ := h
  obtain ⟨run, hrun, -, rfl⟩ := assemble_task hcode
  exact ⟨run, hrun, hp.single⟩

theorem query {q : Query} (h : Placed p (.mk (.query q) children weight) start exit) :
    p.get? start = some ⟨.query q, exit .success, exit .failure⟩ := by
  obtain ⟨path, code, hcode, hp⟩ := h
  obtain ⟨-, rfl⟩ := assemble_query hcode
  exact hp.single

theorem subTree {link : Option Link}
    (h : Placed p (.mk (.subTree link) children weight) start exit) :
    ∃ l, link = some l ∧ p.get? start = some ⟨.subTree l, exit .success, exit .failure⟩ := by
  obtain ⟨path, code, hcode, hp⟩ := h
  obtain ⟨l, hl, -, rfl⟩ := assemble_subTree hcode
  exact ⟨l, hl, hp.single⟩

theorem sequence (h : Placed p (.mk .sequence children weight) start exit) :
    children ≠ [] ∧ ChainPlaced p .success children start exit := by
  obtain ⟨path, code, hcode, hp⟩ := h
  obtain ⟨hne, hchain⟩ := assemble_sequence hcode
  exact ⟨hne, path, 0, code, hchain, hp⟩

theorem selector (h : Placed p (.mk .selector children weight) start exit) :
    children ≠ [] ∧ ChainPlaced p .failure children start exit := by
  obtain ⟨path, code, hcode, hp⟩ := h
  obtain ⟨hne, hchain⟩ := assemble_selector hcode
  exact ⟨hne, path, 0, code, hchain, hp⟩

theorem random (h : Placed p (.mk .random children weight) start exit) :
    ∃ table, table ≠ [] ∧
      p.get? start = some ⟨.randomBranch table, exit .success, exit .failure⟩ ∧
      BranchesPlaced p children (start + 1) exit table := by
  obtain ⟨path, code, hcode, hp⟩ := h
  obtain ⟨table, rest, hrest, htable, rfl⟩ := assemble_random hcode
  exact ⟨table, htable, hp.left.single, path, 0, rest, hrest, hp.right⟩

theorem whileLoop {count : Option UInt32}
    (h : Placed p (.mk (.whileLoop count) children weight) start exit) :
    ∃ condition action, children = [condition, action] ∧ HeadPlaced p count start exit ∧
      Placed p condition (start + headSize count)
        (toward .success (start + headSize count + condition.size) exit) ∧
      Placed p action (start + headSize count + condition.size)
        (toward .failure (loopAgain start count) exit) := by
  obtain ⟨path, code, hcode, hp⟩ := h
  obtain ⟨condition, action, first, second, rfl, hfirst, hsecond, rfl⟩ := assemble_whileLoop hcode
  have hlength := length_assemble hfirst
  refine ⟨condition, action, rfl, .of_holds hp.left.left, ⟨_, first, hfirst, ?_⟩,
    ⟨_, second, hlength ▸ hsecond, ?_⟩⟩
  · have hcond := hp.left.right.of_route
    rwa [index_sending, length_loopHead, hlength] at hcond
  · have hact := hp.right.of_route
    rwa [index_sending, List.length_append, length_loopHead, Code.length_route, hlength,
      ← Nat.add_assoc] at hact

theorem succeed (h : Placed p (.mk .succeed children weight) start exit) :
    (children = [] ∧ p.get? start = some ⟨.hangingSucceed, exit .success, exit .failure⟩) ∨
      ∃ child, children = [child] ∧ Placed p child start fun _ => exit .success := by
  obtain ⟨path, code, hcode, hp⟩ := h
  rcases assemble_succeed hcode with ⟨rfl, rfl⟩ | ⟨child, inner, rfl, hinner, rfl⟩
  · exact .inl ⟨rfl, hp.single⟩
  · exact .inr ⟨child, rfl, _, inner, hinner, hp.of_route⟩

theorem fail (h : Placed p (.mk .fail children weight) start exit) :
    (children = [] ∧ p.get? start = some ⟨.hangingFail, exit .success, exit .failure⟩) ∨
      ∃ child, children = [child] ∧ Placed p child start fun _ => exit .failure := by
  obtain ⟨path, code, hcode, hp⟩ := h
  rcases assemble_fail hcode with ⟨rfl, rfl⟩ | ⟨child, inner, rfl, hinner, rfl⟩
  · exact .inl ⟨rfl, hp.single⟩
  · exact .inr ⟨child, rfl, _, inner, hinner, hp.of_route⟩

theorem invert (h : Placed p (.mk .invert children weight) start exit) :
    ∃ child, children = [child] ∧ Placed p child start fun v => exit v.flip := by
  obtain ⟨path, code, hcode, hp⟩ := h
  obtain ⟨child, inner, rfl, hinner, rfl⟩ := assemble_invert hcode
  exact ⟨child, rfl, _, inner, hinner, hp.of_route⟩

theorem repeatLoop {count : Option UInt32} {breakOnFail : Bool}
    (h : Placed p (.mk (.repeatLoop count breakOnFail) children weight) start exit) :
    ∃ child, children = [child] ∧ HeadPlaced p count start exit ∧
      Placed p child (start + headSize count)
        (if breakOnFail then toward .success (loopAgain start count) exit
          else fun _ => loopAgain start count) := by
  obtain ⟨path, code, hcode, hp⟩ := h
  obtain ⟨child, body, rfl, hbody, rfl⟩ := assemble_repeatLoop hcode
  refine ⟨child, rfl, .of_holds hp.left, _, body, hbody, ?_⟩
  have hinner := hp.right.of_route
  rw [length_loopHead] at hinner
  cases breakOnFail with
  | true =>
    simp only [if_true] at hinner ⊢
    rwa [index_sending] at hinner
  | false => exact hinner

end Node.Placed

theorem ChainPlaced.last {p : Program K A} {carry : Verdict} {child : Node K A} {start : Nat}
    {exit : Verdict → Nat} (h : ChainPlaced p carry [child] start exit) :
    child.Placed p start exit := by
  obtain ⟨path, place, code, hcode, hp⟩ := h
  rw [assembleChain] at hcode
  exact ⟨_, code, hcode, hp⟩

theorem ChainPlaced.cons {p : Program K A} {carry : Verdict} {child : Node K A}
    {rest : List (Node K A)} {start : Nat} {exit : Verdict → Nat} (hrest : rest ≠ [])
    (h : ChainPlaced p carry (child :: rest) start exit) :
    child.Placed p start (toward carry (start + child.size) exit) ∧
      ChainPlaced p carry rest (start + child.size) exit := by
  obtain ⟨path, place, code, hcode, hp⟩ := h
  obtain ⟨first, others, hfirst, hothers, rfl⟩ := assembleChain_cons hrest hcode
  have hlength := length_assemble hfirst
  refine ⟨⟨_, first, hfirst, ?_⟩, path, place + 1, others, hlength ▸ hothers, ?_⟩
  · have hchild := hp.left.of_route
    rwa [index_sending, hlength] at hchild
  · have hothers := hp.right
    rwa [Code.length_route, hlength] at hothers

theorem BranchesPlaced.cons {p : Program K A} {child : Node K A} {rest : List (Node K A)}
    {start : Nat} {exit : Verdict → Nat} {table : List Nat}
    (h : BranchesPlaced p (child :: rest) start exit table) :
    ∃ targets, table = List.replicate child.weight.toNat start ++ targets ∧
      child.Placed p start exit ∧ BranchesPlaced p rest (start + child.size) exit targets := by
  obtain ⟨path, place, code, hcode, hp⟩ := h
  obtain ⟨first, others, targets, hfirst, hothers, rfl, rfl⟩ := assembleBranches_cons hcode
  have hlength := length_assemble hfirst
  refine ⟨targets, rfl, ⟨_, first, hfirst, hp.left⟩, path, place + 1, others, hlength ▸ hothers, ?_⟩
  have hothers := hp.right
  rwa [hlength] at hothers

theorem BranchesPlaced.nil {p : Program K A} {start : Nat} {exit : Verdict → Nat}
    {table : List Nat} (h : BranchesPlaced p [] start exit table) : table = [] := by
  obtain ⟨path, place, code, hcode, -⟩ := h
  cases hcode
  rfl

/-! ## The first instruction -/

theorem Program.lt_length_of_get? {p : Program K A} {index : Nat} {i : Instruction Nat K A}
    (h : p.get? index = some i) : index < p.length :=
  (List.getElem?_eq_some_iff.1 h).1

theorem HeadPlaced.lt_length {p : Program K A} {count : Option UInt32} {start : Nat}
    {exit : Verdict → Nat} (h : HeadPlaced p count start exit)
    (hbody : start + headSize count < p.length) : start < p.length := by
  rw [headSize] at hbody
  cases hcount : bound? count with
  | none => simpa [hcount] using hbody
  | some goal => exact Program.lt_length_of_get? (h goal hcount).1

theorem ChainPlaced.lt_length {p : Program K A} {carry : Verdict} {children : List (Node K A)}
    (hne : children ≠ []) (ih : ∀ child ∈ children, ∀ {start exit},
      child.Placed p start exit → start < p.length)
    {start : Nat} {exit : Verdict → Nat} (h : ChainPlaced p carry children start exit) :
    start < p.length := by
  match children, hne, h with
  | [child], _, h => exact ih child (.head _) h.last
  | child :: other :: rest, _, h => exact ih child (.head _) (h.cons (List.cons_ne_nil _ _)).1

/-- A placed node begins at an instruction. -/
theorem Node.Placed.lt_length {p : Program K A} {node : Node K A} {start : Nat}
    {exit : Verdict → Nat} (h : node.Placed p start exit) : start < p.length := by
  induction node using Node.induction generalizing start exit with
  | mk kind children weight ih =>
    cases kind with
    | task t =>
      obtain ⟨run, -, hget⟩ := h.task
      exact Program.lt_length_of_get? hget
    | query q => exact Program.lt_length_of_get? h.query
    | subTree link =>
      obtain ⟨l, -, hget⟩ := h.subTree
      exact Program.lt_length_of_get? hget
    | sequence => exact h.sequence.2.lt_length h.sequence.1 fun c hc => ih c hc
    | selector => exact h.selector.2.lt_length h.selector.1 fun c hc => ih c hc
    | random =>
      obtain ⟨table, -, hget, -⟩ := h.random
      exact Program.lt_length_of_get? hget
    | whileLoop count =>
      obtain ⟨condition, action, rfl, hhead, hcond, -⟩ := h.whileLoop
      exact hhead.lt_length (ih condition (.head _) hcond)
    | succeed =>
      rcases h.succeed with ⟨-, hget⟩ | ⟨child, rfl, hchild⟩
      · exact Program.lt_length_of_get? hget
      · exact ih child (.head _) hchild
    | fail =>
      rcases h.fail with ⟨-, hget⟩ | ⟨child, rfl, hchild⟩
      · exact Program.lt_length_of_get? hget
      · exact ih child (.head _) hchild
    | invert =>
      obtain ⟨child, rfl, hchild⟩ := h.invert
      exact ih child (.head _) hchild
    | repeatLoop count breakOnFail =>
      obtain ⟨child, rfl, hhead, hbody⟩ := h.repeatLoop
      exact hhead.lt_length (ih child (.head _) hbody)

/-! ## Whole programs -/

/-- The two ends of a program, as the indices of the verdicts of its root. -/
def Program.ends (p : Program K A) : Verdict → Nat
  | .success => p.successIndex
  | .failure => p.failIndex

/-- Finished code with its exits resolved, wherever they lead. -/
def Code.resolved (code : Code K A) : Program K A :=
  ⟨code.map (·.mapExits (·.resolve code.length))⟩

theorem Code.length_resolved (code : Code K A) : code.resolved.length = code.length := by
  simp [Code.resolved, Program.length]

theorem Code.seal_eq_ok {code : Code K A} {p : Program K A} (h : code.seal = .ok p) :
    p = code.resolved := by
  simp only [Code.seal] at h
  split at h
  · cases h
    rfl
  · cases h

/-- A finished definition stands in its program from the first instruction on. -/
theorem Node.placed_of_assemble {root : Node K A} {code : Code K A}
    (h : root.assemble [] 0 = .ok code) : root.Placed code.resolved 0 code.resolved.ends := by
  refine ⟨[], code, h, fun i x hx => ?_⟩
  have hexit : (fun e : Exit => e.resolve code.length) = fun e => e.index code.resolved.ends := by
    funext e
    rcases e with v | index
    · cases v <;> simp [Exit.resolve, Exit.index, Program.ends, Program.successIndex,
        Program.failIndex, Code.length_resolved]
    · rfl
  rw [← hexit]
  simp [Code.resolved, Program.get?, hx]

/-- A compiled definition stands in its program from the first instruction on. -/
theorem Node.placed_of_compile {root : Node K A} {p : Program K A} (h : compile root = .ok p) :
    root.Placed p 0 p.ends := by
  obtain ⟨code, hcode, hseal⟩ := bind_eq_ok_iff.1 h
  rw [Code.seal_eq_ok hseal]
  exact Node.placed_of_assemble hcode

end TickTree

import TickTree.Proofs.Faults

/-!
# Code that can stand anywhere

A node is put together to the same code wherever it stands, but for the indices in it: they
move along with it (`Node.AssemblesTo`). So a node in a definition contributes exactly what it
compiles to on its own. In the program of the definition that stands as one range, from the place
the sizes of the nodes in front of it say (`Node.offset`), with its two ends gone to two exits,
and it is entered from outside at its first instruction only (`Node.compile_relocated`).
-/

namespace TickTree

variable {K A : Type}

/-! ## Moved code -/

/-- An exit of code that is moved on by so many instructions. -/
def Exit.shift (d : Nat) : Exit → Exit
  | .verdict v => .verdict v
  | .goto index => .goto (d + index)

/-- Code that is moved on by so many instructions. -/
def Code.shift (d : Nat) (code : Code K A) : Code K A :=
  code.map fun i => ⟨i.op.moved (d + ·), i.onSuccess.shift d, i.onFail.shift d⟩

namespace Code

variable {c : Code K A}

@[simp]
theorem length_shift (d : Nat) (c : Code K A) : (c.shift d).length = c.length := List.length_map _

@[simp]
theorem shift_append (d : Nat) (b c : Code K A) : (b ++ c).shift d = b.shift d ++ c.shift d :=
  List.map_append

theorem shift_single (d : Nat) (op : Op K A) :
    (single op).shift d = single (op.moved (d + ·)) := rfl

theorem shift_shift (d d' : Nat) (c : Code K A) : (c.shift d').shift d = c.shift (d + d') := by
  simp only [shift, List.map_map]
  refine List.map_congr_left fun i _ => ?_
  obtain ⟨op, yes, no⟩ := i
  simp only [Function.comp_apply, Instruction.mk.injEq]
  refine ⟨?_, ?_, ?_⟩
  · cases op <;> simp [Op.moved, Nat.add_assoc]
  · cases yes <;> simp [Exit.shift, Nat.add_assoc]
  · cases no <;> simp [Exit.shift, Nat.add_assoc]

@[simp]
theorem shift_zero (c : Code K A) : c.shift 0 = c := by
  refine (List.map_congr_left fun i _ => ?_).trans (List.map_id c)
  obtain ⟨op, yes, no⟩ := i
  simp only [id_eq, Instruction.mk.injEq]
  refine ⟨?_, ?_, ?_⟩
  · cases op <;> simp [Op.moved]
  · cases yes <;> simp [Exit.shift]
  · cases no <;> simp [Exit.shift]

theorem shift_route (d : Nat) (r : Routing) (c : Code K A) :
    (c.route r).shift d = (c.shift d).route fun v => (r v).shift d := by
  have hexit : ∀ e : Exit, (e.route r).shift d = (e.shift d).route fun v => (r v).shift d := by
    intro e
    cases e <;> rfl
  simp [shift, route, Instruction.mapExits, hexit]

theorem shift_loopHead (d start : Nat) (count : Option UInt32) :
    (loopHead (K := K) (A := A) start count).shift d = loopHead (d + start) count := by
  rw [loopHead, loopHead]
  cases bound? count <;> rfl

end Code

theorem shift_sending (d : Nat) (v : Verdict) (index : Nat) :
    (fun u => (Routing.sending v index u).shift d) = Routing.sending v (d + index) := by
  funext u
  by_cases h : u = v <;> simp [Routing.sending, Exit.shift, h]

theorem shift_looping (d index : Nat) :
    (fun u => (Routing.looping index u).shift d) = Routing.looping (d + index) := rfl

theorem loopAgain_shift (d start : Nat) (count : Option UInt32) :
    d + loopAgain start count = loopAgain (d + start) count := by
  rw [loopAgain, loopAgain]
  cases bound? count <;> rfl

/-! ## Nodes that can stand anywhere -/

/-- Wherever it stands, the node is put together to this code, moved there. -/
def Node.AssemblesTo (node : Node K A) (code : Code K A) : Prop :=
  ∀ path start, node.assemble path start = .ok (code.shift start)

section

variable {children : List (Node K A)} {weight : UInt32} {code : Code K A}

theorem assembleChain_shift
    (ih : ∀ child ∈ children, ∀ {path start code}, child.assemble path start = .ok code →
      ∃ base, child.AssemblesTo base)
    {carry : Verdict} {path : Path} {place start : Nat}
    (h : assembleChain carry path place start children = .ok code) :
    ∃ base : Code K A, ∀ path place start,
      assembleChain carry path place start children = .ok (base.shift start) := by
  induction children generalizing place start code with
  | nil => exact ⟨[], fun _ _ _ => rfl⟩
  | cons child rest ihrest =>
    by_cases hrest : rest = []
    · subst hrest
      rw [assembleChain] at h
      obtain ⟨base, hbase⟩ := ih child (.head _) h
      exact ⟨base, fun path place start => by rw [assembleChain, hbase]⟩
    · obtain ⟨first, others, hfirst, hothers, -⟩ := assembleChain_cons hrest h
      obtain ⟨base, hbase⟩ := ih child (.head _) hfirst
      obtain ⟨behind, hbehind⟩ := ihrest (fun c hc => ih c (.tail _ hc)) hothers
      refine ⟨base.route (.sending carry base.length) ++ behind.shift base.length, ?_⟩
      intro path place start
      rw [assembleChain]
      · refine bind_eq_ok_iff.2 ⟨_, hbase _ _, bind_eq_ok_iff.2 ⟨_, hbehind _ _ _, ?_⟩⟩
        rw [Code.length_shift, Code.shift_append, Code.shift_route, shift_sending,
          Code.shift_shift]
        rfl
      · exact hrest

theorem assembleBranches_shift
    (ih : ∀ child ∈ children, ∀ {path start code}, child.assemble path start = .ok code →
      ∃ base, child.AssemblesTo base)
    {path : Path} {place start : Nat} {table : List Nat}
    (h : assembleBranches path place start children = .ok (code, table)) :
    ∃ (base : Code K A) (targets : List Nat), ∀ path place start,
      assembleBranches path place start children =
        .ok (base.shift start, targets.map (start + ·)) := by
  induction children generalizing place start code table with
  | nil => exact ⟨[], [], fun _ _ _ => rfl⟩
  | cons child rest ihrest =>
    obtain ⟨first, others, targets, hfirst, hothers, -, -⟩ := assembleBranches_cons h
    obtain ⟨base, hbase⟩ := ih child (.head _) hfirst
    obtain ⟨behind, targets, hbehind⟩ := ihrest (fun c hc => ih c (.tail _ hc)) hothers
    refine ⟨base ++ behind.shift base.length,
      List.replicate child.weight.toNat 0 ++ targets.map (base.length + ·), ?_⟩
    intro path place start
    rw [assembleBranches]
    refine bind_eq_ok_iff.2 ⟨_, hbase _ _, bind_eq_ok_iff.2 ⟨_, hbehind _ _ _, ?_⟩⟩
    simp [Code.shift_shift, Function.comp_def, Nat.add_assoc, pure, Except.pure]

end

/-- An accepted node is put together to the same code everywhere. -/
theorem Node.assemblesTo_of_assemble {node : Node K A} {path : Path} {start : Nat}
    {code : Code K A} (h : node.assemble path start = .ok code) :
    ∃ base, node.AssemblesTo base := by
  induction node using Node.induction generalizing path start code with
  | mk kind children weight ih =>
    cases kind with
    | task t =>
      obtain ⟨run, hrun, rfl, -⟩ := assemble_task h
      refine ⟨.single (.task ⟨t.name, t.start, run, t.finish⟩), fun path start => ?_⟩
      rw [assemble, hrun]
      rfl
    | query q =>
      obtain ⟨rfl, -⟩ := assemble_query h
      exact ⟨.single (.query q), fun path start => by rw [assemble]; rfl⟩
    | subTree link =>
      obtain ⟨l, rfl, rfl, -⟩ := assemble_subTree h
      exact ⟨.single (.subTree l), fun path start => by rw [assemble]; rfl⟩
    | sequence =>
      obtain ⟨hne, hchain⟩ := assemble_sequence h
      obtain ⟨base, hbase⟩ := assembleChain_shift (fun c hc => ih c hc) hchain
      refine ⟨base, fun path start => ?_⟩
      rw [assemble]
      · exact hbase path 0 start
      · exact hne
    | selector =>
      obtain ⟨hne, hchain⟩ := assemble_selector h
      obtain ⟨base, hbase⟩ := assembleChain_shift (fun c hc => ih c hc) hchain
      refine ⟨base, fun path start => ?_⟩
      rw [assemble]
      · exact hbase path 0 start
      · exact hne
    | random =>
      obtain ⟨table, rest, hrest, htable, -⟩ := assemble_random h
      obtain ⟨base, targets, hbase⟩ := assembleBranches_shift (fun c hc => ih c hc) hrest
      have hne : children ≠ [] := by
        rintro rfl
        cases hrest
        exact htable rfl
      have htargets : targets ≠ [] := by
        rintro rfl
        rw [hbase] at hrest
        cases hrest
        exact htable rfl
      refine ⟨.single (.randomBranch (targets.map (1 + ·))) ++ base.shift 1, fun path start => ?_⟩
      rw [assemble, hbase]
      · refine bind_eq_ok_iff.2 ⟨_, rfl, ?_⟩
        simp [htargets, Code.shift_single, Code.shift_shift, Op.moved, Function.comp_def,
          Nat.add_assoc, pure, Except.pure]
      · exact hne
    | whileLoop count =>
      obtain ⟨condition, action, first, second, rfl, hfirst, hsecond, -⟩ := assemble_whileLoop h
      obtain ⟨test, htest⟩ := ih condition (.head _) hfirst
      obtain ⟨body, hbody⟩ := ih action (.tail _ (.head _)) hsecond
      refine ⟨Code.loopHead 0 count ++
        (test.shift (headSize count)).route (.sending .success (headSize count + test.length)) ++
        (body.shift (headSize count + test.length)).route
          (.sending .failure (loopAgain 0 count)), fun path start => ?_⟩
      rw [assemble]
      simp only [length_loopHead]
      refine bind_eq_ok_iff.2 ⟨_, htest _ _, bind_eq_ok_iff.2 ⟨_, hbody _ _, ?_⟩⟩
      simp only [Code.shift_append, Code.shift_route, shift_sending, Code.shift_shift,
        Code.shift_loopHead, loopAgain_shift, Code.length_shift, Nat.add_zero, ← Nat.add_assoc]
      rfl
    | succeed =>
      rcases assemble_succeed h with ⟨rfl, -⟩ | ⟨child, inner, rfl, hinner, -⟩
      · exact ⟨.single .hangingSucceed, fun path start => by rw [assemble]; rfl⟩
      · obtain ⟨base, hbase⟩ := ih child (.head _) hinner
        refine ⟨base.route (.forcing .success), fun path start => ?_⟩
        rw [assemble, Code.shift_route]
        exact bind_eq_ok_iff.2 ⟨_, hbase _ _, rfl⟩
    | fail =>
      rcases assemble_fail h with ⟨rfl, -⟩ | ⟨child, inner, rfl, hinner, -⟩
      · exact ⟨.single .hangingFail, fun path start => by rw [assemble]; rfl⟩
      · obtain ⟨base, hbase⟩ := ih child (.head _) hinner
        refine ⟨base.route (.forcing .failure), fun path start => ?_⟩
        rw [assemble, Code.shift_route]
        exact bind_eq_ok_iff.2 ⟨_, hbase _ _, rfl⟩
    | invert =>
      obtain ⟨child, inner, rfl, hinner, -⟩ := assemble_invert h
      obtain ⟨base, hbase⟩ := ih child (.head _) hinner
      refine ⟨base.route .swapping, fun path start => ?_⟩
      rw [assemble, Code.shift_route]
      exact bind_eq_ok_iff.2 ⟨_, hbase _ _, rfl⟩
    | repeatLoop count breakOnFail =>
      obtain ⟨child, inner, rfl, hinner, -⟩ := assemble_repeatLoop h
      obtain ⟨base, hbase⟩ := ih child (.head _) hinner
      refine ⟨Code.loopHead 0 count ++ (base.shift (headSize count)).route
        (if breakOnFail then .sending .success (loopAgain 0 count)
          else .looping (loopAgain 0 count)), fun path start => ?_⟩
      rw [assemble]
      simp only [length_loopHead]
      refine bind_eq_ok_iff.2 ⟨_, hbase _ _, ?_⟩
      rw [Code.shift_append, Code.shift_route, Code.shift_shift, Code.shift_loopHead, Nat.add_zero]
      have hagain : start + loopAgain 0 count = loopAgain start count :=
        loopAgain_shift start 0 count
      cases breakOnFail with
      | true =>
        simp only [if_true]
        rw [shift_sending, hagain]
        rfl
      | false =>
        simp only [Bool.false_eq_true, if_false]
        rw [shift_looping, hagain]
        rfl

/-! ## Programs in programs -/

/-- Where an index of a program is found when the program stands in another one from `start`
on, with its two ends gone to exits. -/
def Program.relocate (q : Program K A) (start : Nat) (exit : Verdict → Nat) (index : Nat) : Nat :=
  if index < q.length then start + index
  else if index = q.successIndex then exit .success
  else exit .failure

/-- The instructions of a program as they stand in another one from `start` on, with its two ends
gone to exits. Whatever an instruction names besides its exits is an instruction. -/
def Program.relocated (q : Program K A) (start : Nat) (exit : Verdict → Nat) :
    List (Instruction Nat K A) :=
  q.instructions.map fun i =>
    ⟨i.op.moved (start + ·), q.relocate start exit i.onSuccess, q.relocate start exit i.onFail⟩

section

variable {node : Node K A} {code : Code K A}

/-- An exit of finished code that is an instruction is one of its own. -/
theorem Node.AssemblesTo.goto_lt (h : node.AssemblesTo code) {i : Instruction Exit K A}
    (hi : i ∈ code) {index : Nat} (hindex : .goto index ∈ [i.onSuccess, i.onFail]) :
    index < code.length := by
  obtain ⟨j, hj⟩ := List.getElem?_of_mem hi
  -- Whatever one index the verdicts go to, an exit that is an instruction does not go there.
  have hgoes : ∀ other, index < code.length ∨ index = other := by
    intro other
    have hplaced : node.Placed ⟨code.map (·.mapExits (·.index fun _ => other))⟩ 0
        fun _ => other := by
      refine ⟨[], code, by simpa using h [] 0, fun k x hx => ?_⟩
      simp [Program.get?, hx]
    have hj' : j < 0 + node.size := by
      rw [Nat.zero_add, ← length_assemble (h [] 0), Code.length_shift]
      exact (List.getElem?_eq_some_iff.1 hj).1
    have hnext : index ∈ (i.mapExits (·.index fun _ => other)).nexts :=
      List.mem_append_left i.op.targets (List.mem_map_of_mem (f := (·.index fun _ => other)) hindex)
    rcases hplaced.goesOn j _ (Nat.zero_le j) hj' (by simp [Program.get?, hj]) index hnext with
      ⟨-, hlt⟩ | ⟨_, heq⟩
    · rw [Nat.zero_add, ← length_assemble (h [] 0), Code.length_shift] at hlt
      exact .inl hlt
    · exact .inr heq
  rcases hgoes code.length with hlt | heq
  · exact hlt
  · have hnot := hgoes (code.length + 1)
    omega

/-- An exit resolved and moved with its program is moved first and then given its index. -/
theorem Node.AssemblesTo.relocate_resolve (h : node.AssemblesTo code) {i : Instruction Exit K A}
    (hi : i ∈ code) {e : Exit} (he : e ∈ [i.onSuccess, i.onFail]) (start : Nat)
    (exit : Verdict → Nat) :
    code.resolved.relocate start exit (e.resolve code.length) = (e.shift start).index exit := by
  rw [Program.relocate, Program.successIndex, Code.length_resolved]
  cases e with
  | goto index => exact if_pos (h.goto_lt hi he)
  | verdict v => cases v <;> simp [Exit.resolve, Exit.shift, Exit.index]

/-- A program that holds the code of a node holds what the node compiles to on its own. -/
theorem Node.AssemblesTo.relocated (h : node.AssemblesTo code) {p : Program K A} {start : Nat}
    {exit : Verdict → Nat} (hp : p.Holds start (code.shift start) exit) :
    (p.instructions.drop start).take code.resolved.length = code.resolved.relocated start exit := by
  rw [Code.length_resolved]
  refine List.ext_getElem? fun j => ?_
  have hresolved : code.resolved.instructions[j]? =
      code[j]?.map (·.mapExits (·.resolve code.length)) := List.getElem?_map ..
  rw [List.getElem?_take, Program.relocated, List.getElem?_map, hresolved]
  cases hj : code[j]? with
  | none => exact if_neg (Nat.not_lt.2 (List.getElem?_eq_none_iff.1 hj))
  | some i =>
    have hi := List.mem_of_getElem? hj
    have hget := hp j ⟨i.op.moved (start + ·), i.onSuccess.shift start, i.onFail.shift start⟩
      (by simp [Code.shift, hj])
    rw [if_pos (List.getElem?_eq_some_iff.1 hj).1, List.getElem?_drop]
    refine hget.trans ?_
    simp [Instruction.mapExits, h.relocate_resolve hi (.head _) start exit,
      h.relocate_resolve hi (.tail _ (.head _)) start exit]

end

/-! ## Where nodes stand -/

/-- How many instructions of a definition stand in front of those of the node at a path. -/
def Node.offset : Path → Node K A → Nat
  | [], _ => 0
  | k :: path, node =>
      node.lead + sizes (node.children.take k) + (node.children[k]?.elim 0 (offset path))

/-- All nodes of a definition that is closed to its surroundings are closed to theirs. -/
theorem Node.Enclosed.below {p : Program K A} {root node : Node K A} {path : Path} {start : Nat}
    {exit : Verdict → Nat} (h : root.Enclosed p start exit) (hnode : root.at? path = some node) :
    ∃ exit, node.Enclosed p (start + root.offset path) exit := by
  induction path generalizing root start exit with
  | nil =>
    cases hnode
    exact ⟨exit, h⟩
  | cons k path ih =>
    obtain ⟨kind, children, weight⟩ := root
    obtain ⟨child, hchild, hbelow⟩ := Option.bind_eq_some_iff.1 hnode
    obtain ⟨inner, hinner⟩ := h.child hchild
    obtain ⟨exit, hexit⟩ := ih hinner hbelow
    refine ⟨exit, ?_⟩
    have hchild' : (Node.mk kind children weight).children[k]? = some child := hchild
    rw [Node.offset, hchild', Option.elim_some, ← Nat.add_assoc, ← Nat.add_assoc]
    exact hexit

/-- Every node of a compiled definition stands in its program as what it compiles to on its own:
in one range, its indices moved there, its ends gone to two exits. Nothing outside of the range
goes on in it but at its first instruction. -/
theorem Node.compiled_in_place {root node : Node K A} {p : Program K A} {path : Path}
    (hroot : compile root = .ok p) (hnode : root.at? path = some node) :
    ∃ q exit, compile node = .ok q ∧
      (p.instructions.drop (root.offset path)).take q.length =
        q.relocated (root.offset path) exit ∧
      p.EnteredFirst (root.offset path) (root.offset path + q.length) := by
  obtain ⟨exit, hplaced, hentered, -⟩ := (enclosed_of_compile hroot).below hnode
  rw [Nat.zero_add] at hplaced hentered
  obtain ⟨path', code, hcode, hp⟩ := hplaced
  obtain ⟨base, hbase⟩ := assemblesTo_of_assemble hcode
  obtain rfl : code = base.shift (root.offset path) := by
    rw [hbase] at hcode
    cases hcode
    rfl
  have hcompile : compile node = .ok base.resolved :=
    compile_of_assemble (by simpa using hbase [] 0)
  refine ⟨base.resolved, exit, hcompile, hbase.relocated hp, ?_⟩
  rwa [length_of_compile hcompile]

/-- A random node with a loop in it, turned round in another loop, behind a sibling. -/
theorem Node.compiled_in_place_nested :
    let wet : Node Unit Unit := .query "self" "wet" "set"
    let pick : Node Unit Unit := .random [wet, (Node.whileLoop (some 3) wet wet).withWeight 2]
    let root : Node Unit Unit := .selector [wet, .times 2 (.invert pick), wet]
    ∃ p, compile root = .ok p ∧ root.at? [1, 0, 0] = some pick ∧ root.offset [1, 0, 0] = 3 ∧
      ∃ q exit, compile pick = .ok q ∧
        (p.instructions.drop (root.offset [1, 0, 0])).take q.length =
          q.relocated (root.offset [1, 0, 0]) exit ∧
        p.EnteredFirst (root.offset [1, 0, 0]) (root.offset [1, 0, 0] + q.length) :=
  ⟨_, rfl, rfl, rfl, compiled_in_place rfl rfl⟩

end TickTree

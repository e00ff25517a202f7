import TickTree.Proofs.Placement

/-!
# Refactoring definitions

The kinds of nodes that only say where verdicts go obey the laws of the Boolean connectives: nodes
in a row that stand in a row of the same kind can join it, and turning a row round turns its
children round (`Node.Law`). Code is a function of where it begins (`Placing`), and the laws are
those of three operations on such functions: to route all exits, and to place one in front of
another so that one verdict goes on. That is associative (`Placing.before_assoc`), and its other
form is what it becomes when verdicts are exchanged (`Placing.before_swapping`).

What a node contributes to the code around it is its own code and its weight, so that a law may be
used anywhere (`Node.Refactors`), and what a definition compiles to stays the same, instruction by
instruction (`Node.compile_of_refactors`).
-/

namespace TickTree

variable {K A : Type}

/-! ## Code by where it begins -/

/-- Code as it depends on where it begins, and none for what is refused. -/
abbrev Placing (K A : Type) := Nat → Option (Code K A)

namespace Placing

/-- All exits after routing. -/
def route (r : Routing) (x : Placing K A) : Placing K A := fun start => (x start).map (·.route r)

/-- One behind the other, entered when the first concludes with a verdict. -/
def before (carry : Verdict) (x y : Placing K A) : Placing K A := fun start =>
  (x start).bind fun code => (y (start + code.length)).map fun others =>
    code.route (.sending carry (start + code.length)) ++ others

theorem route_route (r s : Routing) (x : Placing K A) :
    (x.route r).route s = x.route fun v => (r v).route s := by
  funext start
  simp [route, Function.comp_def, Code.route_route]

/-- A verdict that goes to an instruction already goes to no other. -/
theorem sending_sending (carry : Verdict) (m n : Nat) :
    (fun v => (Routing.sending carry m v).route (Routing.sending carry n)) =
      Routing.sending carry m := by
  funext v
  by_cases hv : v = carry <;> simp [Routing.sending, Exit.route, hv]

/-- A verdict goes on after exchanging both if the other went on before. -/
theorem sending_swapping (carry : Verdict) (n : Nat) :
    (fun v => (Routing.sending carry n v).route .swapping) =
      fun v => (Routing.swapping v).route (.sending carry.flip n) := by
  funext v
  cases v <;> cases carry <;> rfl

/-- Exchanging the verdicts twice does nothing. -/
theorem swapping_swapping (x : Placing K A) : (x.route .swapping).route .swapping = x := by
  have hsame : ∀ e : Exit, e.route (fun v => (Routing.swapping v).route .swapping) = e := by
    intro e
    cases e with
    | verdict v => cases v <;> rfl
    | goto index => rfl
  rw [route_route]
  funext start
  cases hx : x start with
  | none => simp [route, hx]
  | some code => simp [route, hx, Code.route, Instruction.mapExits, hsame]

theorem before_assoc (carry : Verdict) (x y z : Placing K A) :
    (x.before carry y).before carry z = x.before carry (y.before carry z) := by
  funext start
  cases hx : x start with
  | none => simp [before, hx]
  | some first =>
    cases hy : y (start + first.length) with
    | none => simp [before, hx, hy]
    | some second =>
      simp [before, hx, hy, Code.route_route, sending_sending, Function.comp_def, Nat.add_assoc]

theorem before_swapping (carry : Verdict) (x y : Placing K A) :
    (x.before carry y).route .swapping =
      (x.route .swapping).before carry.flip (y.route .swapping) := by
  funext start
  cases hx : x start with
  | none => simp [before, route, hx]
  | some first =>
    simp [before, route, hx, Code.route_route, sending_swapping, Function.comp_def]

end Placing

/-- The kind of node that goes from child to child as long as they conclude with this verdict. -/
def chainKind : Verdict → NodeKind K A
  | .success => .sequence
  | .failure => .selector

/-- The kind of node that always concludes with this verdict. -/
def forceKind : Verdict → NodeKind K A
  | .success => .succeed
  | .failure => .fail

namespace Node

/-- The code of a node, by where it begins. -/
def placing (node : Node K A) : Placing K A := fun start => (node.assemble [] start).toOption

/-- The path of a node has no part in its code. -/
theorem placing_eq_some_iff (path : Path) {node : Node K A} {start : Nat} {code : Code K A} :
    node.placing start = some code ↔ node.assemble path start = .ok code := by
  have hplacing : node.placing start = some code ↔ node.assemble [] start = .ok code := by
    rw [placing]
    cases node.assemble [] start <;> simp [Except.toOption]
  rw [hplacing]
  constructor <;>
  · intro h
    obtain ⟨base, hbase⟩ := assemblesTo_of_assemble h
    rw [hbase] at h ⊢
    exact h

/-- Whether a definition compiles, and to what, is said by its code from the first instruction
on. -/
theorem compile_eq_ok_iff_placing {root : Node K A} {p : Program K A} :
    compile root = .ok p ↔ ∃ code, root.placing 0 = some code ∧ p = code.resolved := by
  constructor
  · intro h
    obtain ⟨code, hcode, hseal⟩ := bind_eq_ok_iff.1 h
    exact ⟨code, (placing_eq_some_iff []).2 hcode, Code.seal_eq_ok hseal⟩
  · rintro ⟨code, hcode, rfl⟩
    exact compile_of_assemble ((placing_eq_some_iff []).1 hcode)

theorem placing_invert (child : Node K A) (weight : UInt32) :
    (mk .invert [child] weight).placing = child.placing.route .swapping := by
  funext start
  refine Option.ext fun code => ?_
  rw [placing_eq_some_iff [], assemble]
  simp [Placing.route, bind_eq_ok_iff, placing_eq_some_iff [0], pure, Except.pure]

theorem placing_force (v : Verdict) (child : Node K A) (weight : UInt32) :
    (mk (forceKind v) [child] weight).placing = child.placing.route (.forcing v) := by
  funext start
  refine Option.ext fun code => ?_
  rw [placing_eq_some_iff []]
  cases v <;> rw [forceKind, assemble] <;>
    simp [Placing.route, bind_eq_ok_iff, placing_eq_some_iff [0], pure, Except.pure]

end Node

/-! ## Rows -/

/-- The code of nodes in a row. -/
def chained (carry : Verdict) : List (Node K A) → Placing K A
  | [] => fun _ => some []
  | [last] => last.placing
  | child :: rest => child.placing.before carry (chained carry rest)

section

variable {carry : Verdict} {children before after inner : List (Node K A)} {child : Node K A}
  {weight : UInt32}

theorem chained_cons (h : children ≠ []) :
    chained carry (child :: children) = child.placing.before carry (chained carry children) := by
  cases children with
  | nil => exact absurd rfl h
  | cons next rest => rfl

theorem chained_append (hbefore : before ≠ []) (hafter : after ≠ []) :
    chained carry (before ++ after) =
      (chained carry before).before carry (chained carry after) := by
  induction before with
  | nil => exact absurd rfl hbefore
  | cons first rest ih =>
    by_cases hrest : rest = []
    · subst hrest
      exact chained_cons hafter
    · rw [List.cons_append, chained_cons (List.append_ne_nil_of_left_ne_nil hrest after), ih hrest,
        chained_cons hrest, Placing.before_assoc]

/-- Turning a row round turns its children round. -/
theorem chained_map_invert (hne : children ≠ []) :
    chained carry.flip (children.map Node.invert) = (chained carry children).route .swapping := by
  induction children with
  | nil => exact absurd rfl hne
  | cons first rest ih =>
    by_cases hrest : rest = []
    · subst hrest
      exact first.placing_invert 1
    · rw [List.map_cons, chained_cons (by simpa using hrest), ih hrest, Node.invert,
        Node.placing_invert, chained_cons hrest, Placing.before_swapping]

theorem assembleChain_eq_ok_iff (path : Path) (place : Nat) {start : Nat} {code : Code K A} :
    assembleChain carry path place start children = .ok code ↔
      chained carry children start = some code := by
  induction children generalizing place start code with
  | nil => simp [assembleChain, chained]
  | cons child rest ih =>
    by_cases hrest : rest = []
    · subst hrest
      rw [assembleChain, chained, Node.placing_eq_some_iff (path ++ [place])]
    · rw [chained_cons hrest, assembleChain]
      · simp only [Placing.before, bind_eq_ok_iff, Option.bind_eq_some_iff, Option.map_eq_some_iff,
          ih, Node.placing_eq_some_iff (path ++ [place]), pure, Except.pure,
          Except.ok.injEq]
      · exact hrest

end

namespace Node

section

variable {carry : Verdict} {children : List (Node K A)}

theorem placing_chain (hne : children ≠ []) (weight : UInt32) :
    (mk (chainKind carry) children weight).placing = chained carry children := by
  funext start
  refine Option.ext fun code => ?_
  rw [placing_eq_some_iff [], ← assembleChain_eq_ok_iff [] 0]
  cases carry <;> rw [chainKind, assemble] <;> exact hne

end

/-! ## Nodes that stand for one another -/

/-- Two nodes contribute the same to the code around them. -/
structure Agrees (x y : Node K A) : Prop where
  /-- They weigh the same. -/
  weight : x.weight = y.weight
  /-- They have the same code wherever they begin. -/
  placing : x.placing = y.placing

section

variable {x y z : Node K A} {kind : NodeKind K A} {children others : List (Node K A)}
  {w w' : UInt32}

theorem Agrees.refl (x : Node K A) : x.Agrees x := ⟨rfl, rfl⟩

theorem Agrees.symm (h : x.Agrees y) : y.Agrees x := ⟨h.weight.symm, h.placing.symm⟩

theorem Agrees.trans (h : x.Agrees y) (h' : y.Agrees z) : x.Agrees z :=
  ⟨h.weight.trans h'.weight, h.placing.trans h'.placing⟩

theorem Agrees.assemble (h : x.Agrees y) {path : Path} {start : Nat} {code : Code K A}
    (hcode : x.assemble path start = .ok code) : y.assemble path start = .ok code :=
  (placing_eq_some_iff path).1 (h.placing ▸ (placing_eq_some_iff path).2 hcode)

theorem chained_congr (h : List.Forall₂ Agrees children others) (carry : Verdict) :
    chained carry children = chained carry others := by
  induction h with
  | nil => rfl
  | @cons x y children others hfirst hrest ih =>
    cases hrest with
    | nil => exact hfirst.placing
    | cons => rw [chained_cons (List.cons_ne_nil _ _), chained_cons (List.cons_ne_nil _ _),
        hfirst.placing, ih]

theorem assembleBranches_congr (h : List.Forall₂ Agrees children others) {path : Path}
    {place start : Nat} {code : Code K A} {table : List Nat}
    (hcode : assembleBranches path place start children = .ok (code, table)) :
    assembleBranches path place start others = .ok (code, table) := by
  induction h generalizing place start code table with
  | nil => exact hcode
  | cons hfirst _ ih =>
    obtain ⟨first, rest, targets, hx, hrest, rfl, rfl⟩ := assembleBranches_cons hcode
    rw [assembleBranches, hfirst.assemble hx, hfirst.weight]
    exact bind_eq_ok_iff.2 ⟨first, rfl, bind_eq_ok_iff.2 ⟨_, ih hrest, rfl⟩⟩

/-- The code of a node is made of its kind and what its children contribute. -/
theorem assemble_congr (h : List.Forall₂ Agrees children others) {start : Nat} {code : Code K A}
    (hcode : (mk kind children w).assemble [] start = .ok code) :
    (mk kind others w').assemble [] start = .ok code := by
  have hchain : ∀ carry, kind = chainKind carry → children ≠ [] →
      (mk kind others w').assemble [] start = .ok code := by
    rintro carry rfl hne
    have hne' : others ≠ [] := by
      rintro rfl
      cases h
      exact hne rfl
    rw [← placing_eq_some_iff [], placing_chain hne', ← chained_congr h, ← placing_chain hne w]
    exact (placing_eq_some_iff []).2 hcode
  cases kind with
  | task t =>
    obtain ⟨run, hrun, rfl, rfl⟩ := assemble_task hcode
    cases h
    rw [Node.assemble, hrun]
  | query q =>
    obtain ⟨rfl, rfl⟩ := assemble_query hcode
    cases h
    rw [Node.assemble]
  | subTree link =>
    obtain ⟨l, rfl, rfl, rfl⟩ := assemble_subTree hcode
    cases h
    rw [Node.assemble]
  | sequence => exact hchain .success rfl (assemble_sequence hcode).1
  | selector => exact hchain .failure rfl (assemble_selector hcode).1
  | random =>
    obtain ⟨table, rest, hrest, hne, rfl⟩ := assemble_random hcode
    have hothers := assembleBranches_congr h hrest
    rw [Node.assemble, hothers]
    · simp [bind, Except.bind, pure, Except.pure, hne]
    · rintro rfl
      cases hothers
      exact hne rfl
  | whileLoop count =>
    obtain ⟨condition, action, first, second, rfl, hfirst, hsecond, rfl⟩ :=
      assemble_whileLoop hcode
    obtain ⟨condition', rest, hcondition, hrest, rfl⟩ := List.forall₂_cons_left_iff.1 h
    obtain ⟨action', rest, haction, hnil, rfl⟩ := List.forall₂_cons_left_iff.1 hrest
    cases hnil
    rw [Node.assemble]
    simp only [length_loopHead]
    exact bind_eq_ok_iff.2 ⟨first, hcondition.assemble hfirst,
      bind_eq_ok_iff.2 ⟨second, haction.assemble hsecond, rfl⟩⟩
  | succeed =>
    rcases assemble_succeed hcode with ⟨rfl, rfl⟩ | ⟨child, inner, rfl, hinner, rfl⟩
    · cases h
      rw [Node.assemble]
    · obtain ⟨child', rest, hchild, hnil, rfl⟩ := List.forall₂_cons_left_iff.1 h
      cases hnil
      rw [Node.assemble]
      exact bind_eq_ok_iff.2 ⟨inner, hchild.assemble hinner, rfl⟩
  | fail =>
    rcases assemble_fail hcode with ⟨rfl, rfl⟩ | ⟨child, inner, rfl, hinner, rfl⟩
    · cases h
      rw [Node.assemble]
    · obtain ⟨child', rest, hchild, hnil, rfl⟩ := List.forall₂_cons_left_iff.1 h
      cases hnil
      rw [Node.assemble]
      exact bind_eq_ok_iff.2 ⟨inner, hchild.assemble hinner, rfl⟩
  | invert =>
    obtain ⟨child, inner, rfl, hinner, rfl⟩ := assemble_invert hcode
    obtain ⟨child', rest, hchild, hnil, rfl⟩ := List.forall₂_cons_left_iff.1 h
    cases hnil
    rw [Node.assemble]
    exact bind_eq_ok_iff.2 ⟨inner, hchild.assemble hinner, rfl⟩
  | repeatLoop count breakOnFail =>
    obtain ⟨child, body, rfl, hbody, rfl⟩ := assemble_repeatLoop hcode
    obtain ⟨child', rest, hchild, hnil, rfl⟩ := List.forall₂_cons_left_iff.1 h
    cases hnil
    rw [Node.assemble]
    simp only [length_loopHead]
    exact bind_eq_ok_iff.2 ⟨body, hchild.assemble hbody, rfl⟩

theorem placing_congr (h : List.Forall₂ Agrees children others) :
    (mk kind children w).placing = (mk kind others w').placing := by
  have h' : List.Forall₂ Agrees others children := h.flip.imp fun _ _ => Agrees.symm
  funext start
  refine Option.ext fun code => ?_
  rw [placing_eq_some_iff [], placing_eq_some_iff []]
  exact ⟨assemble_congr h, assemble_congr h'⟩

/-- One child may be exchanged for another that contributes the same. -/
theorem agrees_inside (h : x.Agrees y) (before after : List (Node K A)) :
    (mk kind (before ++ x :: after) w).Agrees (mk kind (before ++ y :: after) w) := by
  have hsame : ∀ nodes : List (Node K A), List.Forall₂ Agrees nodes nodes := fun nodes =>
    List.forall₂_same.2 fun node _ => .refl node
  exact ⟨rfl, placing_congr (List.rel_append (hsame before) (.cons h (hsame after)))⟩

end

theorem placing_withWeight (x : Node K A) (w : UInt32) : (x.withWeight w).placing = x.placing := by
  obtain ⟨kind, children, weight⟩ := x
  exact placing_congr (List.forall₂_same.2 fun child _ => .refl child)

theorem weight_withWeight (x : Node K A) (w : UInt32) : (x.withWeight w).weight = w := by
  cases x
  rfl

/-! ## Laws -/

/-- The laws of the Boolean connectives, each with what a node may be rewritten to. The node that is
rewritten keeps its weight. -/
inductive Law : Node K A → Node K A → Prop where
  /-- The children of a row in a row of the same kind join it. -/
  | flatten {carry : Verdict} {before inner after : List (Node K A)} {w w' : UInt32} :
      inner ≠ [] → Law (mk (chainKind carry) (before ++ mk (chainKind carry) inner w' :: after) w)
        (mk (chainKind carry) (before ++ inner ++ after) w)
  /-- A row of one is its child. -/
  | lone {carry : Verdict} {x : Node K A} {w : UInt32} :
      Law (mk (chainKind carry) [x] w) (x.withWeight w)
  /-- Turning round twice does nothing. -/
  | invert_invert {x : Node K A} {w w' : UInt32} :
      Law (mk .invert [mk .invert [x] w'] w) (x.withWeight w)
  /-- A row turned round is the other row of its children turned round. -/
  | invert_chain {carry : Verdict} {children : List (Node K A)} {w w' : UInt32} :
      children ≠ [] → Law (mk .invert [mk (chainKind carry) children w'] w)
        (mk (chainKind carry.flip) (children.map Node.invert) w)
  /-- A forced verdict turned round is the other forced. -/
  | invert_force {v : Verdict} {x : Node K A} {w w' : UInt32} :
      Law (mk .invert [mk (forceKind v) [x] w'] w) (mk (forceKind v.flip) [x] w)
  /-- Below a forced verdict another does nothing. -/
  | force_force {u v : Verdict} {x : Node K A} {w w' : UInt32} :
      Law (mk (forceKind v) [mk (forceKind u) [x] w'] w) (mk (forceKind v) [x] w)
  /-- Below a forced verdict turning round does nothing. -/
  | force_invert {v : Verdict} {x : Node K A} {w w' : UInt32} :
      Law (mk (forceKind v) [mk .invert [x] w'] w) (mk (forceKind v) [x] w)

/-- Refactoring a definition: laws used at nodes anywhere in it, in either direction, one after
the other. -/
inductive Refactors : Node K A → Node K A → Prop where
  | law {x y : Node K A} : Law x y → Refactors x y
  | inside {x y : Node K A} {kind : NodeKind K A} {before after : List (Node K A)} {w : UInt32} :
      Refactors x y →
      Refactors (mk kind (before ++ x :: after) w) (mk kind (before ++ y :: after) w)
  | refl {x : Node K A} : Refactors x x
  | symm {x y : Node K A} : Refactors x y → Refactors y x
  | trans {x y z : Node K A} : Refactors x y → Refactors y z → Refactors x z

theorem Law.agrees {x y : Node K A} (h : Law x y) : x.Agrees y := by
  cases h with
  | @flatten carry before inner after w w' hinner =>
    refine ⟨rfl, ?_⟩
    rw [placing_chain (List.append_ne_nil_of_right_ne_nil before (List.cons_ne_nil _ _)),
      placing_chain (by simp [hinner]), List.append_assoc]
    have hhead : chained carry (mk (chainKind carry) inner w' :: after) =
        chained carry (inner ++ after) := by
      by_cases hafter : after = []
      · subst hafter
        rw [List.append_nil]
        exact placing_chain hinner w'
      · rw [chained_cons hafter, placing_chain hinner, chained_append hinner hafter]
    by_cases hbefore : before = []
    · subst hbefore
      exact hhead
    · rw [chained_append hbefore (List.cons_ne_nil _ _), hhead,
        chained_append hbefore (List.append_ne_nil_of_left_ne_nil hinner after)]
  | @lone carry x w =>
    refine ⟨(weight_withWeight x w).symm, ?_⟩
    rw [placing_chain (List.cons_ne_nil _ _), placing_withWeight]
    rfl
  | @invert_invert x w w' =>
    refine ⟨(weight_withWeight x w).symm, ?_⟩
    rw [placing_invert, placing_invert, placing_withWeight, Placing.swapping_swapping]
  | invert_chain hne =>
    refine ⟨rfl, ?_⟩
    rw [placing_invert, placing_chain hne, placing_chain (by simpa using hne),
      chained_map_invert hne]
  | invert_force =>
    refine ⟨rfl, ?_⟩
    rw [placing_invert, placing_force, placing_force, Placing.route_route]
    rfl
  | force_force =>
    refine ⟨rfl, ?_⟩
    rw [placing_force, placing_force, placing_force, Placing.route_route]
    rfl
  | force_invert =>
    refine ⟨rfl, ?_⟩
    rw [placing_force, placing_force, placing_invert, Placing.route_route]
    rfl

theorem Refactors.agrees {x y : Node K A} (h : x.Refactors y) : x.Agrees y := by
  induction h with
  | law h => exact h.agrees
  | inside _ ih => exact agrees_inside ih _ _
  | refl => exact .refl _
  | symm _ ih => exact ih.symm
  | trans _ _ ih ih' => exact ih.trans ih'

/-- Refactoring a definition leaves what it compiles to as it is, every instruction with its exits,
and a definition that is refused stays so. -/
theorem compile_of_refactors {x y : Node K A} (h : x.Refactors y) (p : Program K A) :
    compile x = .ok p ↔ compile y = .ok p := by
  rw [compile_eq_ok_iff_placing, compile_eq_ok_iff_placing, h.agrees.placing]

/-- A row in a row, turned round, below a loop and a row of the other kind. -/
theorem compile_of_refactors_nested :
    let wet : Node Unit Unit := .query "self" "wet" "set"
    let cold : Node Unit Unit := .query "self" "cold" "set"
    let x : Node Unit Unit :=
      .times 2 (.selector [cold, .invert (.sequence [wet, .sequence [cold, wet]])])
    let y : Node Unit Unit :=
      .times 2 (.selector [cold, .invert wet, .invert cold, .invert wet])
    x.Refactors y ∧ ∃ p, compile x = .ok p ∧ compile y = .ok p := by
  intro wet cold x y
  have hinner : (Node.invert (.sequence [wet, .sequence [cold, wet]])).Refactors
      (.selector [.invert wet, .invert cold, .invert wet]) :=
    .trans
      (@Refactors.inside _ _ _ _ _ [] [] _ (.law (@Law.flatten _ _ .success [wet] [cold, wet] [] _ _
        (List.cons_ne_nil _ _))))
      (.law (@Law.invert_chain _ _ .success [wet, cold, wet] _ _ (List.cons_ne_nil _ _)))
  have hxy : x.Refactors y :=
    @Refactors.inside _ _ _ _ _ [] [] _ (.trans (@Refactors.inside _ _ _ _ _ [cold] [] _ hinner)
      (.law (@Law.flatten _ _ .failure [cold] [.invert wet, .invert cold, .invert wet] [] _ _
        (List.cons_ne_nil _ _))))
  exact ⟨hxy, _, rfl, (compile_of_refactors hxy _).1 rfl⟩

end Node

end TickTree

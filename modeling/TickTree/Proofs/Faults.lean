import Mathlib
import TickTree.Proofs.Sealing

/-!
# The definitions that have programs

Each kind of node has a rule of its own for what it carries and for its children
(`Node.Regular`). A definition has a program exactly if all its nodes keep to their rules, and
otherwise the walk reports the fault that it meets first (`compile_or_first_fault`).

A node is met before its children, and those in their order. That is the lexicographic order of
the paths that lead to them. The weights under a random node are added up behind everything
under it, so this fault is met as if at one more child, after all others
(`CompileError.met`).

The proof is one induction over the definition. A step of the walk looks for some faults
(`Judges`): it fails with the first of them, and comes to an end only if there is none. Steps
that look one after the other, each for faults that are met after those of the step before,
make a step that looks for the faults of both (`Judges.bind`).
-/

namespace TickTree

variable {K A α β : Type}

/-! ## The rules -/

/-- What the children of a random node weigh together. -/
def totalWeight (children : List (Node K A)) : Nat := (children.map (·.weight.toNat)).sum

/-- A node keeps to the rule of its kind. -/
def Node.Regular : Node K A → Prop
  | .mk (.task t) children _ => children = [] ∧ t.run.isSome
  | .mk (.query _) children _ => children = []
  | .mk (.subTree link) children _ => children = [] ∧ link.isSome
  | .mk .sequence children _ => children ≠ []
  | .mk .selector children _ => children ≠ []
  | .mk .random children _ => children ≠ [] ∧ 0 < totalWeight children
  | .mk (.whileLoop _) children _ => children.length = 2
  | .mk .succeed children _ => children.length ≤ 1
  | .mk .fail children _ => children.length ≤ 1
  | .mk .invert children _ => children.length = 1
  | .mk (.repeatLoop ..) children _ => children.length = 1

/-- A node that stands at a path breaks the rule of its kind in this way. Children of a leaf
come before anything else that it may lack. -/
inductive Node.Breaks (path : Path) : Node K A → CompileError → Prop where
  | leaf {kind : NodeKind K A} {children : List (Node K A)} {weight : UInt32} :
      kind.tag.isLeaf = true → children ≠ [] →
      Breaks path (.mk kind children weight) (.leafWithChildren kind.tag.name path children.length)
  | idle {t : Task K A} {weight : UInt32} : t.run = none →
      Breaks path (.mk (.task t) [] weight) (.missingTaskRun path)
  | unlinked {weight : UInt32} :
      Breaks path (.mk (.subTree none) [] weight) (.missingSubTree path)
  | empty {kind : NodeKind K A} {weight : UInt32} :
      kind.tag ∈ [Tag.sequence, .selector, .random] →
      Breaks path (.mk kind [] weight) (.emptyComposite kind.tag.name path)
  | weightless {children : List (Node K A)} {weight : UInt32} :
      children ≠ [] → totalWeight children = 0 →
      Breaks path (.mk .random children weight) (.zeroWeight path)
  | arity {count : Option UInt32} {children : List (Node K A)} {weight : UInt32} :
      children.length ≠ 2 →
      Breaks path (.mk (.whileLoop count) children weight) (.whileArity path children.length)
  | crowded {kind : NodeKind K A} {children : List (Node K A)} {weight : UInt32} :
      kind.tag ∈ [Tag.succeed, .fail, .invert, .repeatLoop] → 1 < children.length →
      Breaks path (.mk kind children weight) (.tooManyChildren kind.tag.name path children.length)
  | childless {kind : NodeKind K A} {weight : UInt32} :
      kind.tag ∈ [Tag.invert, .repeatLoop] →
      Breaks path (.mk kind [] weight) (.missingChild kind.tag.name path)

section

variable {path : Path} {node : Node K A} {e e' : CompileError}

theorem Node.Breaks.irregular (h : node.Breaks path e) : ¬ node.Regular := by
  intro hregular
  cases h with
  | @leaf kind children weight hleaf hne =>
    cases kind <;> simp_all [NodeKind.tag, Tag.isLeaf, Node.Regular]
  | idle hrun => simp [Node.Regular, hrun] at hregular
  | unlinked => simp [Node.Regular] at hregular
  | @empty kind weight hkind => cases kind <;> simp_all [NodeKind.tag, Node.Regular]
  | weightless _ hweight => simp [Node.Regular, hweight] at hregular
  | arity hlength => exact hlength hregular
  | @crowded kind children weight hkind hlength =>
    cases kind <;> simp_all [NodeKind.tag, Node.Regular] <;> omega
  | @childless kind weight hkind => cases kind <;> simp_all [NodeKind.tag, Node.Regular]

/-- A node that does not keep to its rule breaks it. -/
theorem Node.exists_breaks (path : Path) (h : ¬ node.Regular) : ∃ e, node.Breaks path e := by
  obtain ⟨kind, children, weight⟩ := node
  cases kind with
  | task t =>
    cases children with
    | cons child rest => exact ⟨_, .leaf rfl (List.cons_ne_nil _ _)⟩
    | nil => exact ⟨_, .idle (by simpa [Node.Regular] using h)⟩
  | query q => exact ⟨_, .leaf rfl h⟩
  | subTree link =>
    cases children with
    | cons child rest => exact ⟨_, .leaf rfl (List.cons_ne_nil _ _)⟩
    | nil =>
      obtain rfl : link = none := by simpa [Node.Regular] using h
      exact ⟨_, .unlinked⟩
  | sequence | selector =>
    obtain rfl : children = [] := by simpa [Node.Regular] using h
    exact ⟨_, .empty (by simp [NodeKind.tag])⟩
  | random =>
    cases children with
    | nil => exact ⟨_, .empty (by simp [NodeKind.tag])⟩
    | cons child rest =>
      exact ⟨_, .weightless (List.cons_ne_nil _ _) (by simpa [Node.Regular] using h)⟩
  | whileLoop count => exact ⟨_, .arity h⟩
  | succeed | fail => exact ⟨_, .crowded (by simp [NodeKind.tag]) (Nat.lt_of_not_le h)⟩
  | invert | repeatLoop =>
    match children, h with
    | [], _ => exact ⟨_, .childless (by simp [NodeKind.tag])⟩
    | [_], h => exact absurd rfl h
    | _ :: _ :: _, _ => exact ⟨_, .crowded (by simp [NodeKind.tag]) (by simp)⟩

/-- What breaks a rule blames the node it is broken at. -/
theorem Node.Breaks.path? (h : node.Breaks path e) : e.path? = some path := by
  cases h <;> rfl

/-- A broken rule fails the walk at once, unless it is about weights. -/
theorem Node.Breaks.assemble (h : node.Breaks path e) (hweight : e ≠ .zeroWeight path)
    (start : Nat) : node.assemble path start = .error e := by
  cases h with
  | @leaf kind children weight hleaf hne =>
    obtain ⟨child, rest, rfl⟩ := List.exists_cons_of_ne_nil hne
    cases kind with
    | task | query | subTree => simp [Node.assemble, NodeKind.tag]
    | _ => simp [NodeKind.tag, Tag.isLeaf] at hleaf
  | idle hrun => simp [Node.assemble, hrun]
  | unlinked => simp [Node.assemble]
  | @empty kind weight hkind =>
    cases kind with
    | sequence | selector | random => simp [Node.assemble, NodeKind.tag]
    | _ => simp [NodeKind.tag] at hkind
  | weightless => exact absurd rfl hweight
  | @arity count children weight hlength =>
    match children, hlength with
    | [], _ | [_], _ | _ :: _ :: _ :: _, _ => simp [Node.assemble]
    | [_, _], hlength => exact absurd rfl hlength
  | @crowded kind children weight hkind hlength =>
    match children, hlength with
    | _ :: _ :: _, _ =>
      cases kind with
      | succeed | fail | invert | repeatLoop => simp [Node.assemble, NodeKind.tag]
      | _ => simp [NodeKind.tag] at hkind
  | @childless kind weight hkind =>
    cases kind with
    | invert | repeatLoop => simp [Node.assemble, NodeKind.tag]
    | _ => simp [NodeKind.tag] at hkind

/-- Where the weights are all that is wrong, nothing else is. -/
theorem Node.Breaks.of_weightless (h : node.Breaks path (.zeroWeight path))
    (h' : node.Breaks path e) : e = .zeroWeight path := by
  cases h with
  | weightless hne _ =>
    cases h' with
    | leaf hleaf => simp [NodeKind.tag, Tag.isLeaf] at hleaf
    | empty => exact absurd rfl hne
    | weightless => rfl
    | crowded hkind | childless hkind => simp [NodeKind.tag] at hkind

/-- A node breaks its rule in one way. -/
theorem Node.Breaks.unique (h : node.Breaks path e) (h' : node.Breaks path e') : e' = e := by
  by_cases hweight : e = .zeroWeight path
  · subst hweight
    exact h.of_weightless h'
  · have hweight' : e' ≠ .zeroWeight path := by
      rintro rfl
      exact hweight (h'.of_weightless h)
    have herror := (h'.assemble hweight' 0).symm.trans (h.assemble hweight 0)
    exact Except.error.inj herror

end

/-! ## Faults of whole definitions -/

/-- The node that a path leads to. -/
def Node.at? : Path → Node K A → Option (Node K A)
  | [], node => some node
  | i :: path, node => node.children[i]?.bind (Node.at? path)

/-- All nodes of a definition keep to their rules. -/
def Node.WellFormed (root : Node K A) : Prop :=
  ∀ path node, root.at? path = some node → node.Regular

/-- A node of a definition that stands at a path breaks its rule. -/
def Node.Faulty (path : Path) (root : Node K A) (e : CompileError) : Prop :=
  ∃ below node, root.at? below = some node ∧ node.Breaks (path ++ below) e

/-- A node of the children from a place on, under a path, breaks its rule. -/
def FaultyAmong (path : Path) (place : Nat) (children : List (Node K A)) (e : CompileError) :
    Prop :=
  ∃ i, ∃ child : Node K A, children[i]? = some child ∧ child.Faulty (path ++ [place + i]) e

theorem Node.wellFormed_iff {root : Node K A} :
    root.WellFormed ↔ ∀ e, ¬ root.Faulty [] e := by
  constructor
  · rintro hregular e ⟨path, node, hat, hbreaks⟩
    exact hbreaks.irregular (hregular path node hat)
  · intro hnone path node hat
    by_contra hirregular
    obtain ⟨e, hbreaks⟩ := node.exists_breaks path hirregular
    exact hnone e ⟨path, node, hat, hbreaks⟩

theorem Node.faulty_iff {path : Path} {node : Node K A} {e : CompileError} :
    node.Faulty path e ↔ node.Breaks path e ∨ FaultyAmong path 0 node.children e := by
  constructor
  · rintro ⟨below, inner, hat, hbreaks⟩
    cases below with
    | nil =>
      cases hat
      exact .inl (by simpa using hbreaks)
    | cons i below =>
      obtain ⟨child, hchild, hat⟩ := Option.bind_eq_some_iff.1 hat
      exact .inr ⟨i, child, hchild, below, inner, hat, by simpa using hbreaks⟩
  · rintro (hbreaks | ⟨i, child, hchild, below, inner, hat, hbreaks⟩)
    · exact ⟨[], node, rfl, by simpa using hbreaks⟩
    · refine ⟨i :: below, inner, ?_, by simpa using hbreaks⟩
      simp [Node.at?, hchild, hat]

@[simp]
theorem not_faultyAmong_nil {path : Path} {place : Nat} {e : CompileError} :
    ¬ FaultyAmong path place ([] : List (Node K A)) e := by
  rintro ⟨i, child, hchild, -⟩
  cases hchild

theorem faultyAmong_cons {path : Path} {place : Nat} {child : Node K A} {rest : List (Node K A)}
    {e : CompileError} : FaultyAmong path place (child :: rest) e ↔
      child.Faulty (path ++ [place]) e ∨ FaultyAmong path (place + 1) rest e := by
  constructor
  · rintro ⟨i, inner, hinner, hfaulty⟩
    cases i with
    | zero =>
      cases hinner
      exact .inl hfaulty
    | succ i => exact .inr ⟨i, inner, hinner, by rwa [Nat.add_right_comm place 1 i]⟩
  · rintro (hfaulty | ⟨i, inner, hinner, hfaulty⟩)
    · exact ⟨0, child, rfl, hfaulty⟩
    · exact ⟨i + 1, inner, hinner, by rwa [Nat.add_right_comm place 1 i] at hfaulty⟩

/-! ## The order of the walk -/

/-- Where the walk meets what an error reports: at the node that is to blame, or, if its weights
are, behind all its children. Places are met in lexicographic order. -/
def CompileError.met : CompileError → List (WithTop Nat)
  | .zeroWeight path => path.map (↑) ++ [⊤]
  | e => (e.path?.getD []).map (↑)

theorem Node.Breaks.met {path : Path} {node : Node K A} {e : CompileError}
    (h : node.Breaks path e) :
    e.met = path.map (↑) ∨ e = .zeroWeight path := by
  cases h with
  | weightless => exact .inr rfl
  | _ => exact .inl rfl

/-- The faults of a node that stands at a path are met from there on. -/
theorem Node.Faulty.met {path : Path} {node : Node K A} {e : CompileError}
    (h : node.Faulty path e) : ∃ tail, e.met = path.map (↑) ++ tail := by
  obtain ⟨below, inner, -, hbreaks⟩ := h
  rcases hbreaks.met with hmet | rfl
  · exact ⟨below.map (↑), by rw [hmet, List.map_append]⟩
  · exact ⟨below.map (↑) ++ [⊤], by simp [CompileError.met]⟩

theorem FaultyAmong.met {path : Path} {place : Nat} {children : List (Node K A)}
    {e : CompileError} (h : FaultyAmong path place children e) :
    ∃ i tail, place ≤ i ∧ e.met = path.map (↑) ++ (i : WithTop Nat) :: tail := by
  obtain ⟨i, child, -, hfaulty⟩ := h
  obtain ⟨tail, hmet⟩ := hfaulty.met
  exact ⟨place + i, tail, by omega, by simpa using hmet⟩

section

variable {path : Path} {place : Nat} {node child : Node K A} {children : List (Node K A)}
  {e e' : CompileError}

/-- A child is met before those behind it. -/
theorem Node.Faulty.before (h : child.Faulty (path ++ [place]) e)
    (h' : FaultyAmong path (place + 1) children e') : e.met < e'.met := by
  obtain ⟨tail, hmet⟩ := h.met
  obtain ⟨i, tail', hi, hmet'⟩ := h'.met
  rw [hmet, hmet', List.map_append, List.append_assoc]
  refine List.append_left_lt (List.cons_lt_cons_iff.2 (.inl ?_))
  exact WithTop.coe_lt_coe.2 hi

/-- A node is met before its children. -/
theorem Node.Breaks.before (h : node.Breaks path e) (hweight : e ≠ .zeroWeight path)
    (h' : FaultyAmong path 0 children e') : e.met < e'.met := by
  obtain ⟨i, tail, -, hmet⟩ := h'.met
  rw [h.met.resolve_right hweight, hmet]
  calc path.map (↑)
    _ = path.map (↑) ++ [] := (List.append_nil _).symm
    _ < path.map (↑) ++ (i : WithTop Nat) :: tail := List.append_left_lt (List.nil_lt_cons _ _)

/-- Children are met before their weights. -/
theorem FaultyAmong.before (h : FaultyAmong path place children e) :
    e.met < (CompileError.zeroWeight path).met := by
  obtain ⟨i, tail, -, hmet⟩ := h.met
  rw [hmet]
  exact List.append_left_lt (List.cons_lt_cons_iff.2 (.inl (WithTop.coe_lt_top i)))

end

/-! ## Steps of the walk -/

/-- A fault that is met before all others. -/
def IsFirst (faults : CompileError → Prop) (e : CompileError) : Prop :=
  faults e ∧ ∀ e', faults e' → e' = e ∨ e.met < e'.met

/-- A step of the walk fails with the first of the faults that it looks for, if there is one. -/
def Judges (faults : CompileError → Prop) : Except CompileError α → Prop
  | .ok _ => ∀ e, ¬ faults e
  | .error e => IsFirst faults e

section

variable {faults later : CompileError → Prop}

theorem IsFirst.unique {e e' : CompileError} (h : IsFirst faults e) (h' : IsFirst faults e') :
    e = e' := by
  rcases h.2 e' h'.1 with heq | hlt
  · exact heq.symm
  · rcases h'.2 e h.1 with heq | hlt'
    · exact heq
    · exact absurd hlt' (lt_asymm hlt)

theorem Judges.congr {x : Except CompileError α} (h : Judges faults x)
    (hiff : ∀ e, faults e ↔ later e) : Judges later x := by
  obtain rfl : faults = later := funext fun e => propext (hiff e)
  exact h

/-- One step after another, for faults that are met later, looks for the faults of both. -/
theorem Judges.bind {x : Except CompileError α} {f : α → Except CompileError β}
    (h : Judges faults x) (hf : ∀ a, x = .ok a → Judges later (f a))
    (hbefore : ∀ e e', faults e → later e' → e.met < e'.met) :
    Judges (fun e => faults e ∨ later e) (x >>= f) := by
  cases x with
  | error e =>
    refine ⟨.inl h.1, fun e' he' => ?_⟩
    rcases he' with he' | he'
    · exact h.2 e' he'
    · exact .inr (hbefore e e' h.1 he')
  | ok a => exact (hf a rfl).congr fun e => (or_iff_right (h e)).symm

/-- A step after which nothing can go wrong. -/
theorem Judges.followed {x : Except CompileError α} {f : α → Except CompileError β}
    (h : Judges faults x) (hf : ∀ a, x = .ok a → ∃ b, f a = .ok b) : Judges faults (x >>= f) := by
  cases x with
  | error e => exact h
  | ok a =>
    obtain ⟨b, hb⟩ := hf a rfl
    rw [show (Except.ok a >>= f) = .ok b from hb]
    exact h

theorem Judges.map {x : Except CompileError α} {f : α → β} (h : Judges faults x) :
    Judges faults (x >>= fun a => .ok (f a)) := h.followed fun _ _ => ⟨_, rfl⟩

end

/-! ## The walk -/

theorem length_table {path : Path} {place start : Nat} {children : List (Node K A)}
    {code : Code K A} {table : List Nat}
    (h : assembleBranches path place start children = .ok (code, table)) :
    table.length = totalWeight children := by
  induction children generalizing place start code table with
  | nil =>
    cases h
    rfl
  | cons child rest ih =>
    obtain ⟨first, others, targets, -, hothers, -, rfl⟩ := assembleBranches_cons h
    simp [totalWeight, ih hothers]

theorem judges_none {path : Path} {place : Nat} (a : α) :
    Judges (FaultyAmong path place ([] : List (Node K A))) (.ok a) := fun _ => not_faultyAmong_nil

theorem judges_only {path : Path} {place : Nat} {child : Node K A} {x : Except CompileError α}
    (h : Judges (child.Faulty (path ++ [place])) x) :
    Judges (FaultyAmong path place [child]) x :=
  h.congr fun e => by simp [faultyAmong_cons]

theorem judges_assembleChain {children : List (Node K A)}
    (ih : ∀ child ∈ children, ∀ path start, Judges (child.Faulty path) (child.assemble path start))
    (carry : Verdict) (path : Path) (place start : Nat) :
    Judges (FaultyAmong path place children) (assembleChain carry path place start children) := by
  induction children generalizing place start with
  | nil => exact judges_none _
  | cons child rest ihrest =>
    have hchild := ih child (.head _) (path ++ [place]) start
    cases rest with
    | nil => exact judges_only hchild
    | cons other others =>
      refine Judges.congr (hchild.bind (fun code _ => ?_) fun e e' => Node.Faulty.before)
        fun e => faultyAmong_cons.symm
      exact (ihrest (fun child hmem => ih child (.tail _ hmem)) (place + 1) _).map

theorem judges_assembleBranches {children : List (Node K A)}
    (ih : ∀ child ∈ children, ∀ path start, Judges (child.Faulty path) (child.assemble path start))
    (path : Path) (place start : Nat) :
    Judges (FaultyAmong path place children) (assembleBranches path place start children) := by
  induction children generalizing place start with
  | nil => exact judges_none _
  | cons child rest ihrest =>
    have hchild := ih child (.head _) (path ++ [place]) start
    refine Judges.congr (hchild.bind (fun code _ => ?_) fun e e' => Node.Faulty.before)
      fun e => faultyAmong_cons.symm
    exact (ihrest (fun child hmem => ih child (.tail _ hmem)) (place + 1) _).map

section

variable {path : Path} {start : Nat} {kind : NodeKind K A} {children : List (Node K A)}
  {weight : UInt32}

/-- Under a node that keeps to its rule the walk looks for the faults of the children. -/
theorem Node.Regular.judges (h : (Node.mk kind children weight).Regular)
    (ih : ∀ child ∈ children, ∀ path start,
      Judges (child.Faulty path) (child.assemble path start)) :
    Judges (FaultyAmong path 0 children) ((Node.mk kind children weight).assemble path start) := by
  cases kind with
  | task t =>
    obtain ⟨rfl, hrun⟩ := h
    obtain ⟨run, hrun⟩ := Option.isSome_iff_exists.1 hrun
    simp only [Node.assemble, hrun]
    exact judges_none _
  | query q =>
    obtain rfl : children = [] := h
    rw [Node.assemble]
    exact judges_none _
  | subTree link =>
    obtain ⟨rfl, hlink⟩ := h
    obtain ⟨l, rfl⟩ := Option.isSome_iff_exists.1 hlink
    rw [Node.assemble]
    exact judges_none _
  | sequence =>
    rw [Node.assemble]
    · exact judges_assembleChain ih .success path 0 start
    · exact h
  | selector =>
    rw [Node.assemble]
    · exact judges_assembleChain ih .failure path 0 start
    · exact h
  | random =>
    obtain ⟨hne, hweight⟩ := h
    rw [Node.assemble]
    · refine (judges_assembleBranches ih path 0 (start + 1)).followed ?_
      rintro ⟨code, table⟩ hbranches
      have htable : table ≠ [] := by
        rintro rfl
        exact absurd (length_table hbranches) (Nat.ne_of_lt hweight)
      exact ⟨_, by simp [htable, pure, Except.pure]; rfl⟩
    · exact hne
  | whileLoop count =>
    obtain ⟨condition, action, rfl⟩ := List.length_eq_two.1 h
    rw [Node.assemble]
    refine Judges.congr ((ih condition (.head _) _ _).bind (fun code _ => ?_)
      fun e e' => Node.Faulty.before) fun e => faultyAmong_cons.symm
    exact (judges_only (ih action (.tail _ (.head _)) _ _)).map
  | succeed | fail =>
    match children, h with
    | [], _ =>
      rw [Node.assemble]
      exact judges_none _
    | [child], _ =>
      rw [Node.assemble]
      exact (judges_only (ih child (.head _) _ _)).map
  | invert | repeatLoop =>
    obtain ⟨child, rfl⟩ := List.length_eq_one_iff.1 h
    rw [Node.assemble]
    exact (judges_only (ih child (.head _) _ _)).map

/-- Where only the weights may be wrong, the walk looks for faults of the children first. -/
theorem judges_weightless (hne : children ≠ []) (hweight : totalWeight children = 0)
    (ih : ∀ child ∈ children, ∀ path start,
      Judges (child.Faulty path) (child.assemble path start)) :
    Judges (fun e => FaultyAmong path 0 children e ∨ e = .zeroWeight path)
      ((Node.mk .random children weight).assemble path start) := by
  rw [Node.assemble]
  · refine (judges_assembleBranches ih path 0 (start + 1)).bind ?_ ?_
    · rintro ⟨code, table⟩ hbranches
      obtain rfl : table = [] := List.length_eq_zero_iff.1 ((length_table hbranches).trans hweight)
      exact ⟨rfl, fun e' he' => .inl he'⟩
    · rintro e e' he rfl
      exact he.before
  · exact hne

end

/-- The walk over a definition fails with the fault that it meets first, or there is none. -/
theorem Node.judges_assemble (node : Node K A) (path : Path) (start : Nat) :
    Judges (node.Faulty path) (node.assemble path start) := by
  induction node using Node.induction generalizing path start with
  | mk kind children weight ih =>
    by_cases hregular : (Node.mk kind children weight).Regular
    · refine (hregular.judges ih).congr fun e => ?_
      rw [Node.faulty_iff]
      exact (or_iff_right fun hbreaks => hbreaks.irregular hregular).symm
    · obtain ⟨e, hbreaks⟩ := Node.exists_breaks path hregular
      by_cases hweight : e = .zeroWeight path
      · subst hweight
        cases hbreaks with
        | weightless hne htotal =>
          refine (judges_weightless hne htotal ih).congr fun e => ?_
          rw [Node.faulty_iff, or_comm]
          refine or_congr_left ⟨?_, (Node.Breaks.weightless hne htotal).of_weightless⟩
          rintro rfl
          exact .weightless hne htotal
      · rw [hbreaks.assemble hweight start]
        refine ⟨Node.faulty_iff.2 (.inl hbreaks), fun e' he' => ?_⟩
        rcases Node.faulty_iff.1 he' with hbreaks' | hamong
        · exact .inl (hbreaks.unique hbreaks')
        · exact .inr (hbreaks.before hweight hamong)

/-! ## Definitions and programs -/

/-- A fault of a definition that is met before all others. -/
def Node.FirstFault (root : Node K A) : CompileError → Prop := IsFirst (root.Faulty [])

/-- A definition has a program exactly if all its nodes keep to their rules. Otherwise the walk
reports the fault that it meets first, and blames a node that does not. -/
theorem compile_or_first_fault (root : Node K A) :
    ((∃ p, compile root = .ok p) ↔ root.WellFormed) ∧
      (∀ e, compile root = .error e ↔ root.FirstFault e) ∧
      ∀ e, root.FirstFault e → ∃ path node, e.path? = some path ∧ root.at? path = some node ∧
        ¬ node.Regular ∧ node.Breaks path e := by
  have hjudges := root.judges_assemble [] 0
  refine ⟨?_, fun e => ?_, ?_⟩
  · rw [Node.compile_eq_ok_iff, Node.wellFormed_iff]
    cases hcode : root.assemble [] 0 with
    | ok code =>
      rw [hcode] at hjudges
      exact ⟨fun _ => hjudges, fun _ => ⟨code, rfl⟩⟩
    | error e =>
      rw [hcode] at hjudges
      exact ⟨nofun, fun hnone => absurd hjudges.1 (hnone e)⟩
  · rw [Node.compile_eq_error_iff]
    cases hcode : root.assemble [] 0 with
    | ok code =>
      rw [hcode] at hjudges
      exact ⟨nofun, fun hfirst => absurd hfirst.1 (hjudges e)⟩
    | error e' =>
      rw [hcode] at hjudges
      constructor
      · intro h
        cases h
        exact hjudges
      · intro hfirst
        rw [IsFirst.unique hjudges hfirst]
  · rintro e ⟨⟨path, node, hat, hbreaks⟩, -⟩
    exact ⟨path, node, hbreaks.path?, hat, hbreaks.irregular, hbreaks⟩

/-- What is wrong under a random node comes before its weights. -/
theorem compile_or_first_fault_weightless :
    let root : Node Unit Unit := .random [.mk .succeed [.sequence []] 0]
    compile root = .error (.emptyComposite "sequence" [0, 0]) ∧
      root.FirstFault (.emptyComposite "sequence" [0, 0]) ∧ root.Faulty [] (.zeroWeight []) ∧
      ∃ node, root.at? [0, 0] = some node ∧ ¬ node.Regular := by
  intro root
  have hcompile : compile root = .error (.emptyComposite "sequence" [0, 0]) := rfl
  obtain ⟨-, hfirst, hblame⟩ := compile_or_first_fault root
  have hfault := (hfirst _).1 hcompile
  obtain ⟨path, node, hpath, hat, hirregular, -⟩ := hblame _ hfault
  cases hpath
  exact ⟨hcompile, hfault, ⟨[], root, rfl, .weightless (List.cons_ne_nil _ _) rfl⟩, node, hat,
    hirregular⟩

end TickTree

import TickTree.Proofs.Evaluation

/-!
# Inlining links

A link in a definition can be replaced by the definition of the tree it leads to
(`Node.inlined`). Where each tree is built after the trees it links to, one pass over the
definitions replaces all links there are (`inlineAll`), since what takes the place of a
link has none left (`getElem?_inlineAll`).
-/

namespace TickTree

variable {K A : Type}

/-- The link of a kind. -/
def NodeKind.link? : NodeKind K A → Option Link
  | .subTree link => link
  | _ => none

mutual

/-- The definition with each link to one of these trees replaced by the tree's definition. -/
def Node.inlined (roots : List (Node K A)) : Node K A → Node K A
  | .mk kind children weight =>
      match kind.link?.bind fun l => roots[l.tree]? with
      | some root => root
      | none => .mk kind (inlinedEach roots children) weight

/-- Definitions with links replaced, one by one. -/
def inlinedEach (roots : List (Node K A)) : List (Node K A) → List (Node K A)
  | [] => []
  | node :: rest => node.inlined roots :: inlinedEach roots rest

end

/-- The definitions of trees, after others that are done, with all links replaced. -/
def inlineAfter (done : List (Node K A)) : List (Node K A) → List (Node K A)
  | [] => done
  | root :: rest => inlineAfter (done ++ [root.inlined done]) rest

/-- The definitions of trees with all links replaced. -/
def inlineAll (roots : List (Node K A)) : List (Node K A) := inlineAfter [] roots

/-- A link leads to a tree that is built before. -/
def NodeKind.LinksBelow (t : TreeId) (kind : NodeKind K A) : Prop :=
  ∀ l, kind.link? = some l → l.tree < t

/-! ## One definition -/

section

variable {roots roots' : List (Node K A)} {kind : NodeKind K A} {children : List (Node K A)}
  {weight : UInt32}

theorem Node.inlined_of_not_link (h : kind.link? = none) :
    Node.inlined roots (.mk kind children weight) =
      .mk kind (inlinedEach roots children) weight := by
  rw [Node.inlined, h]
  rfl

theorem Node.inlined_link {l : Link} {root : Node K A} (h : roots[l.tree]? = some root) :
    Node.inlined roots (.mk (.subTree (some l)) children weight) = root := by
  rw [Node.inlined, NodeKind.link?, Option.bind_some, h]

theorem inlinedEach_congr (h : ∀ child ∈ children, child.inlined roots = child.inlined roots') :
    inlinedEach roots children = inlinedEach roots' children := by
  induction children with
  | nil => rfl
  | cons child rest ih =>
    rw [inlinedEach, inlinedEach, h child (.head _), ih fun c hc => h c (.tail _ hc)]

/-- Only the definitions that links lead to count. -/
theorem Node.inlined_congr {node : Node K A}
    (h : node.Every fun kind => ∀ l, kind.link? = some l → roots[l.tree]? = roots'[l.tree]?) :
    node.inlined roots = node.inlined roots' := by
  induction node using Node.induction with
  | mk kind children weight ih =>
    have hsame : (kind.link?.bind fun l => roots[l.tree]?) =
        kind.link?.bind fun l => roots'[l.tree]? := by
      cases hlink : kind.link? with
      | none => rfl
      | some l => exact h.kind l hlink
    rw [Node.inlined, Node.inlined, hsame, inlinedEach_congr fun c hc => ih c hc (h.child hc)]

end

/-! ## All definitions -/

theorem length_inlineAfter (done roots : List (Node K A)) :
    (inlineAfter done roots).length = done.length + roots.length := by
  induction roots generalizing done with
  | nil => rfl
  | cons root rest ih =>
    rw [inlineAfter, ih]
    simp
    omega

theorem prefix_inlineAfter (done roots : List (Node K A)) : done <+: inlineAfter done roots := by
  induction roots generalizing done with
  | nil => exact List.prefix_refl done
  | cons root rest ih => exact (List.prefix_append done _).trans (ih _)

theorem getElem?_inlineAfter {d roots : List (Node K A)} {i : Nat} {root : Node K A}
    (h : roots[i]? = some root) :
    (inlineAfter d roots)[d.length + i]? =
      some (root.inlined ((inlineAfter d roots).take (d.length + i))) := by
  induction roots generalizing d i with
  | nil => cases h
  | cons first rest ih =>
    rw [inlineAfter]
    cases i with
    | zero =>
      cases h
      obtain ⟨more, hmore⟩ := prefix_inlineAfter (d ++ [root.inlined d]) rest
      rw [← hmore]
      simp
    | succ i =>
      have hrest := ih (d := d ++ [first.inlined d]) h
      rwa [List.length_append, List.length_singleton, Nat.add_assoc, Nat.add_comm 1 i] at hrest

@[simp]
theorem length_inlineAll (roots : List (Node K A)) : (inlineAll roots).length = roots.length := by
  simp [inlineAll, length_inlineAfter]

/-- A definition whose links lead to trees built before is inlined with what these come to. -/
theorem getElem?_inlineAll {roots : List (Node K A)} {t : TreeId} {root : Node K A}
    (h : roots[t]? = some root) (hbelow : root.Every (NodeKind.LinksBelow t)) :
    (inlineAll roots)[t]? = some (root.inlined (inlineAll roots)) := by
  have hget := getElem?_inlineAfter (d := []) h
  rw [List.length_nil, Nat.zero_add] at hget
  refine hget.trans (congrArg some (Node.inlined_congr (hbelow.imp fun kind hkind l hl => ?_)))
  exact List.getElem?_take_of_lt (hkind l hl)

end TickTree

import TickTree.Proofs.Placement

/-!
# Where compiled programs jump

Every instruction of a compiled program is one of those in front of the children of some node of
the definition (`Node.Enclosed.exists_owner`). The two that count the rounds of a loop therefore
stand side by side in front of the same loop (`Node.exists_loop`), and with what holds of single
operations (`Op.SoundAt`) every index that an instruction names is an instruction or one of the two
ends (`Program.InRange`). No verdict stays open: an exit of finished code is an instruction of the
program already, or becomes one of its ends (`Node.resolves_of_compile`).

The check for jumps that leave the program so never finds one (`compile_in_range`).
-/

namespace TickTree

variable {K A : Type}

/-! ## The nodes that instructions belong to -/

/-- An instruction in the code of a node stands in front of the children of that node, or of one
below it. -/
theorem Node.Enclosed.exists_owner {p : Program K A} {node : Node K A} {start j : Nat}
    {exit : Verdict → Nat} (h : node.Enclosed p start exit) (hlo : start ≤ j)
    (hhi : j < start + node.size) :
    ∃ path owner, node.at? path = some owner ∧ start + node.offset path ≤ j ∧
      j < start + node.offset path + owner.lead := by
  induction node using Node.induction generalizing start exit with
  | mk kind children weight ih =>
    have hsize := h.placed.laid.size
    by_cases hhead : j < start + (Node.mk kind children weight).lead
    · exact ⟨[], _, rfl, by simpa [Node.offset] using hlo, by simpa [Node.offset] using hhead⟩
    · obtain ⟨k, child, hchild, hk, hk', -⟩ := exists_child_of_lt_sizes
        (show start + (Node.mk kind children weight).lead ≤ j by omega)
        (show j < start + (Node.mk kind children weight).lead + sizes children by omega)
      obtain ⟨exit, hinner⟩ := h.child hchild
      obtain ⟨path, owner, hat, hlo', hhi'⟩ :=
        ih child (List.mem_of_getElem? hchild) hinner hk hk'
      have hoffset : (Node.mk kind children weight).offset (k :: path) =
          (Node.mk kind children weight).lead + sizes (children.take k) + child.offset path := by
        simp [Node.offset, Node.children, hchild]
      refine ⟨k :: path, owner, ?_, by omega, by omega⟩
      simp [Node.at?, Node.children, hchild, hat]

section

variable {root : Node K A} {p : Program K A} {j : Nat} {i : Instruction Nat K A}

/-- An instruction that has to do with a counter is one of the two in front of a counted loop. -/
theorem Node.exists_loop (h : compile root = .ok p) (hget : p.get? j = some i)
    (hop : i.op.IsLoop) : ∃ (node : Node K A) (count : Option UInt32) (goal : UInt32) (start : Nat)
      (exit : Verdict → Nat), node.Enclosed p start exit ∧ node.kind.loop? = some count ∧
      bound? count = some goal ∧ HeadPlaced p count start exit ∧
      start + headSize count < p.length ∧ (j = start ∨ j = start + 1) := by
  have hroot := enclosed_of_compile h
  have hlt : j < 0 + root.size := by
    rw [Nat.zero_add, ← length_of_compile h]
    exact Program.lt_length_of_get? hget
  obtain ⟨path, ⟨kind, children, weight⟩, hat, hlo, hhi⟩ := hroot.exists_owner (Nat.zero_le j) hlt
  obtain ⟨exit, hnode⟩ := hroot.below hat
  have hlaid := hnode.placed.laid
  cases hkind : kind.loop? with
  | none => exact absurd hop (hlaid.own hkind j i hlo hhi hget).1
  | some count =>
    rw [lead_of_loop hkind] at hhi
    cases hcount : bound? count with
    | none =>
      simp only [headSize, hcount] at hhi
      omega
    | some goal =>
      -- A loop has a body, and that begins behind the two instructions.
      have hbody : 0 + root.offset path + headSize count < p.length := by
        obtain ⟨first, rest, hchildren⟩ : ∃ first rest, children = first :: rest :=
          List.exists_cons_of_ne_nil fun hnil => by simp [(hlaid.leaf hnil).2] at hkind
        have hrow := hlaid.row
        rw [hchildren] at hrow
        cases hrow with
        | cons hfirst _ _ =>
          have hlt := hfirst.lt_length
          rwa [← hchildren, lead_of_loop hkind] at hlt
      refine ⟨_, count, goal, _, exit, hnode, hkind, hcount, hlaid.loop count hkind, hbody, ?_⟩
      simp only [headSize, hcount] at hhi
      omega

end

/-! ## Programs whose jumps are in range -/

/-- All that the instructions of a program name is in the program, or one of its two ends, and the
two instructions that count the rounds of a loop stand side by side. -/
structure Program.InRange (p : Program K A) : Prop where
  /-- There is an instruction to begin at. -/
  begins : 1 ≤ p.length
  /-- Exits go no further than the two ends. -/
  exits : ∀ {j i}, p.get? j = some i → i.onSuccess ≤ p.length + 1 ∧ i.onFail ≤ p.length + 1
  /-- A random branch has something to draw from, all of it instructions. -/
  draws : ∀ {j i table}, p.get? j = some i → i.op = .randomBranch table →
    table ≠ [] ∧ ∀ target ∈ table, target < p.length
  /-- What sets a counter to zero goes on at the counter, and that one at the body behind it. -/
  starts : ∀ {j i counter}, p.get? j = some i → i.op = .repeatStart counter →
    counter = j + 1 ∧ i.onSuccess = j + 1 ∧ i.onFail = j + 1 ∧ j + 1 < p.length ∧
      ∃ i' goal, p.get? (j + 1) = some i' ∧ i'.op = .repeatCounter goal (j + 2) ∧
        j + 2 < p.length
  /-- In front of a counter stands what sets it to zero. -/
  counts : ∀ {j i goal body}, p.get? j = some i → i.op = .repeatCounter goal body →
    body = j + 1 ∧ body < p.length ∧
      ∃ k i', j = k + 1 ∧ p.get? k = some i' ∧ i'.op = .repeatStart j

section

variable {root : Node K A} {p : Program K A}

/-- A compiled program jumps to nowhere outside of itself. -/
theorem Node.inRange_of_compile (h : compile root = .ok p) : p.InRange where
  begins := (placed_of_compile h).lt_length
  exits {j i} hget := by
    have hgoes : ∀ next ∈ i.nexts, next ≤ p.length + 1 := by
      intro next hnext
      rcases goesOn_of_compile h j i (Nat.zero_le j) (Program.lt_length_of_get? hget) hget next
        hnext with hin | ⟨v, rfl⟩
      · omega
      · cases v <;> simp [Program.ends, Program.successIndex, Program.failIndex]
    exact ⟨hgoes _ (.head _), hgoes _ (.tail _ (.head _))⟩
  draws {j i table} hget hop := by
    have hsound := sound_of_compile h hget
    rw [hop] at hsound
    cases hsound with
    | leaf hnone hdraws => exact absurd (congrArg Op.randomBranch hnone) hdraws
    | draw hne htable => exact ⟨hne, fun target hmem => (htable target hmem).2⟩
  starts {j i counter} hget hop := by
    obtain ⟨node, count, goal, start, exit, -, -, hcount, hhead, hbody, hj⟩ :=
      exists_loop h hget (by simp [hop, Op.IsLoop])
    obtain ⟨hstart, hcounter⟩ := hhead goal hcount
    simp only [headSize, hcount] at hbody
    rcases hj with rfl | rfl
    · rw [hstart] at hget
      cases hget
      cases hop
      exact ⟨rfl, rfl, rfl, by omega, _, goal, hcounter, rfl, hbody⟩
    · rw [hcounter] at hget
      cases hget
      cases hop
  counts {j i goal body} hget hop := by
    obtain ⟨node, count, goal', start, exit, -, -, hcount, hhead, hbody, hj⟩ :=
      exists_loop h hget (by simp [hop, Op.IsLoop])
    obtain ⟨hstart, hcounter⟩ := hhead goal' hcount
    simp only [headSize, hcount] at hbody
    rcases hj with rfl | rfl
    · rw [hstart] at hget
      cases hget
      cases hop
    · rw [hcounter] at hget
      cases hget
      cases hop
      exact ⟨rfl, hbody, start, _, rfl, hstart, rfl⟩

/-! ## Open verdicts -/

/-- What an exit of finished code has become in a program: one of the two ends where it was a
verdict still, and else the instruction that it was. -/
inductive Exit.Resolved (p : Program K A) : Exit → Nat → Prop where
  | success : Resolved p (.verdict .success) p.successIndex
  | failure : Resolved p (.verdict .failure) p.failIndex
  | goto {index : Nat} : index < p.length → Resolved p (.goto index) index

/-- The program of a definition is the code of its root, with the verdicts that the root leaves
open gone to the ends. -/
theorem Node.resolves_of_compile (h : compile root = .ok p) :
    ∃ code, root.assemble [] 0 = .ok code ∧ code.length = p.length ∧
      ∀ j x, code[j]? = some x → ∃ i, p.get? j = some i ∧ i.op = x.op ∧
        x.onSuccess.Resolved p i.onSuccess ∧ x.onFail.Resolved p i.onFail := by
  obtain ⟨code, hcode, hseal⟩ := bind_eq_ok_iff.1 h
  obtain rfl := Code.seal_eq_ok hseal
  obtain ⟨base, hbase⟩ := assemblesTo_of_assemble hcode
  obtain rfl : code = base := by
    have hzero := hbase [] 0
    rw [hcode, Code.shift_zero] at hzero
    cases hzero
    rfl
  have hresolved : ∀ x ∈ code, ∀ e ∈ [x.onSuccess, x.onFail],
      e.Resolved code.resolved (e.resolve code.length) := by
    intro x hx e he
    cases e with
    | goto index => exact .goto (by rw [Code.length_resolved]; exact hbase.goto_lt hx he)
    | verdict v =>
      rw [← Code.length_resolved code]
      cases v with
      | success => exact .success
      | failure => exact .failure
  refine ⟨code, hcode, (Code.length_resolved code).symm, fun j x hx => ?_⟩
  have hmem := List.mem_of_getElem? hx
  refine ⟨x.mapExits (Exit.resolve code.length), ?_, rfl, hresolved x hmem _ (.head _),
    hresolved x hmem _ (.tail _ (.head _))⟩
  simp [Code.resolved, Program.get?, hx]

end

/-- A compiled program has an instruction to begin at, leaves no verdict open, and names nothing
outside of itself, so that of all faults a definition may have this is never found. -/
theorem compile_in_range (root : Node K A) :
    (∀ p, compile root = .ok p → p.InRange ∧
      ∃ code, root.assemble [] 0 = .ok code ∧ code.length = p.length ∧
        ∀ j x, code[j]? = some x → ∃ i, p.get? j = some i ∧ i.op = x.op ∧
          x.onSuccess.Resolved p i.onSuccess ∧ x.onFail.Resolved p i.onFail) ∧
      ∀ index target length, compile root ≠ .error (.jumpOutOfRange index target length) := by
  refine ⟨fun p h => ⟨Node.inRange_of_compile h, Node.resolves_of_compile h⟩, ?_⟩
  intro index target length h
  have hjudges := root.judges_assemble [] 0
  rw [Node.compile_eq_error_iff.1 h] at hjudges
  -- A fault that the walk meets blames a node, and this error blames none.
  obtain ⟨path, node, -, hbreaks⟩ := hjudges.1
  cases hbreaks.path?

/-- A counted loop in front of a random node, in a loop without end. -/
theorem compile_in_range_loops :
    let root : Node Unit Unit := .forever (.sequence
      [.times 2 (.query "self" "k" "set"), .random [.succeed none, .fail none]])
    ∃ p i, compile root = .ok p ∧ p.get? 0 = some i ∧ i.op = .repeatStart 1 ∧
      i.onSuccess = 1 ∧ i.onFail = 1 ∧ (∃ i' goal, p.get? 1 = some i' ∧
        i'.op = .repeatCounter goal 2) ∧ p.InRange := by
  intro root
  obtain ⟨hranges, -⟩ := compile_in_range root
  obtain ⟨hrange, -⟩ := hranges _ rfl
  obtain ⟨-, hyes, hno, -, i', goal, hget, hop, -⟩ := hrange.starts (j := 0) rfl rfl
  exact ⟨_, _, rfl, rfl, rfl, hyes, hno, ⟨i', goal, hget, hop⟩, hrange⟩

end TickTree

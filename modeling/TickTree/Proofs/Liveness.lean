import TickTree.Proofs.Rows

/-!
# Counters that are still read

A counter is live at an index when some way through the program reads it before setting
it to zero (`Program.Live`). A walk depends on no other counter. The code of a counted
loop is entered at its first instruction only, and that one sets the counter; so a
counter is live only inside its loop, and at the first instruction of a compiled program
none is (`Node.not_live_of_compile`).
-/

namespace TickTree

variable {K A : Type}

/-- The rounds of a counter are read on some way from an index, before they are set to
zero. -/
inductive Program.Live (p : Program K A) (c : Nat) : Nat → Prop where
  | here {i : Instruction Nat K A} {goal : UInt32} {body : Nat} :
      p.get? c = some i → i.op = .repeatCounter goal body → Live p c c
  | before {j next : Nat} {i : Instruction Nat K A} : p.get? j = some i →
      i.op ≠ .repeatStart c → next ∈ i.nexts → Live p c next → Live p c j

/-- Only the index of a counter is live anywhere. -/
theorem Program.Live.counter {p : Program K A} {c j : Nat} (h : p.Live c j) :
    ∃ i goal body, p.get? c = some i ∧ i.op = .repeatCounter goal body := by
  induction h with
  | here hget hop => exact ⟨_, _, _, hget, hop⟩
  | before _ _ _ _ ih => exact ih

/-- The counters in a range are live only behind its first instruction. -/
def Program.KeepsLive (p : Program K A) (lo hi : Nat) : Prop :=
  ∀ c j, lo ≤ c → c < hi → p.Live c j → lo < j ∧ j < hi

/-- The counter of a loop is live only behind the instruction that sets it to zero. -/
theorem HeadPlaced.keepsLive {p : Program K A} {count : Option UInt32} {start hi : Nat}
    {exit : Verdict → Nat} (h : HeadPlaced p count start exit)
    (hhi : start + headSize count ≤ hi) (hentered : p.EnteredFirst start hi) {c j : Nat}
    (hc : start ≤ c) (hc' : c < start + headSize count) (hlive : p.Live c j) :
    start < j ∧ j < hi := by
  rw [headSize] at hc' hhi
  cases hcount : bound? count with
  | none =>
    simp only [hcount] at hc'
    omega
  | some goal =>
    simp only [hcount] at hc' hhi
    obtain ⟨hstart, -⟩ := h goal hcount
    obtain ⟨i, goal', body, hget, hop⟩ := hlive.counter
    obtain rfl : c = start + 1 := by
      by_cases hcs : c = start
      · subst hcs
        rw [hstart] at hget
        cases hget
        cases hop
      · omega
    -- Going back along the way, the first instruction of the loop is where it would end.
    induction hlive with
    | here => omega
    | @before j next i' hgetj hopj hnext _ ih =>
      have hin := ih
      by_cases hj : start ≤ j ∧ j < hi
      · by_cases hjs : j = start
        · subst hjs
          rw [hstart] at hgetj
          cases hgetj
          exact absurd rfl hopj
        · omega
      · exact absurd hin (hentered j i' hj hgetj next hnext)

/-- The counters in the code of a node that is closed to its surroundings are live only
behind its first instruction. -/
theorem Node.Enclosed.keepsLive {p : Program K A} {node : Node K A} {start : Nat}
    {exit : Verdict → Nat} (h : node.Enclosed p start exit) :
    p.KeepsLive start (start + node.size) := by
  induction node using Node.induction generalizing start exit with
  | mk kind children weight ih =>
    intro c j hc hc' hlive
    have hlaid := h.placed.laid
    have hsize := hlaid.size
    by_cases hhead : c < start + (Node.mk kind children weight).lead
    · cases hkind : kind.loop? with
      | some count =>
        rw [Node.lead_of_loop hkind] at hhead hsize
        exact (hlaid.loop count hkind).keepsLive (by omega) h.entered hc hhead hlive
      | none =>
        obtain ⟨i, goal, body, hget, hop⟩ := hlive.counter
        exact absurd (by simp [hop, Op.IsLoop]) (hlaid.own hkind c i hc hhead hget).1
    · obtain ⟨k, child, hchild, hlo, hhi, hbound⟩ := exists_child_of_lt_sizes
        (show start + (Node.mk kind children weight).lead ≤ c by omega)
        (show c < start + (Node.mk kind children weight).lead + sizes children by omega)
      obtain ⟨exit, hinner⟩ := h.child hchild
      have hin := ih child (List.mem_of_getElem? hchild) hinner c j hlo hhi hlive
      omega

/-- At the first instruction of a compiled program no counter is live. -/
theorem Node.not_live_of_compile {root : Node K A} {p : Program K A} (h : compile root = .ok p)
    (c : Nat) : ¬ p.Live c 0 := by
  intro hlive
  have hlength := Node.length_of_compile h
  obtain ⟨i, goal, body, hget, -⟩ := hlive.counter
  have hc := Program.lt_length_of_get? hget
  have hin := (Node.enclosed_of_compile h).keepsLive c 0 (Nat.zero_le c) (by omega) hlive
  omega

end TickTree

import TickTree.Proofs.Liveness

/-!
# Sealing never fails

The instructions of a placed node name others of the same program (`Op.SoundAt`): a random
branch draws from a table that is not empty and leads forward, the two instructions of a counted
loop stand one behind the other, in front of a body. So the check that finished code goes on
nowhere outside of itself finds nothing (`Code.seal_resolved`), and a definition has a program
as soon as its walk comes to an end (`Node.compile_eq_ok_iff`, `Node.compile_eq_error_iff`).
-/

namespace TickTree

variable {K A : Type}

/-! ## Sound instructions -/

/-- The index of a counter. -/
def Program.IsCounter (p : Program K A) (k : Nat) : Prop :=
  ∃ i goal body, p.get? k = some i ∧ i.op = .repeatCounter goal body

/-- What an operation names besides its exits stands where the operation at this index needs it. -/
inductive Op.SoundAt (p : Program K A) (j : Nat) : Op K A → Prop where
  /-- It names nothing, and does not draw from nothing. -/
  | leaf {op : Op K A} : op.targets = [] → op ≠ .randomBranch [] → SoundAt p j op
  /-- It has something to draw, all of it behind it. -/
  | draw {table : List Nat} : table ≠ [] → (∀ target ∈ table, j < target ∧ target < p.length) →
      SoundAt p j (.randomBranch table)
  /-- It sets the counter behind it. -/
  | start : p.IsCounter (j + 1) → SoundAt p j (.repeatStart (j + 1))
  /-- It counts the rounds of the body behind it. -/
  | count {goal : UInt32} : j + 1 < p.length → SoundAt p j (.repeatCounter goal (j + 1))

theorem Op.SoundAt.targets_lt {p : Program K A} {j : Nat} {op : Op K A} (h : op.SoundAt p j) :
    ∀ target ∈ op.targets, target < p.length := by
  intro target hmem
  cases h with
  | leaf hnone _ =>
    rw [hnone] at hmem
    cases hmem
  | draw _ htable => exact (htable target hmem).2
  | start hcounter =>
    obtain rfl := List.mem_singleton.1 hmem
    obtain ⟨i, _, _, hget, -⟩ := hcounter
    exact Program.lt_length_of_get? hget
  | count hbody =>
    obtain rfl := List.mem_singleton.1 hmem
    exact hbody

/-- The instructions in a range are sound. -/
def Program.SoundOn (p : Program K A) (lo hi : Nat) : Prop :=
  ∀ j i, lo ≤ j → j < hi → p.get? j = some i → i.op.SoundAt p j

section

variable {p : Program K A} {lo mid hi : Nat}

theorem Program.SoundOn.join (h : p.SoundOn lo mid) (h' : p.SoundOn mid hi) :
    p.SoundOn lo hi := by
  intro j i hlo hhi hget
  by_cases hmid : j < mid
  · exact h j i hlo hmid hget
  · exact h' j i (by omega) hhi hget

theorem Program.soundOn_single {i : Instruction Nat K A} (hget : p.get? lo = some i)
    (hop : i.op.SoundAt p lo) : p.SoundOn lo (lo + 1) := by
  intro j i' hlo hhi hget'
  obtain rfl : j = lo := by omega
  rw [hget] at hget'
  cases hget'
  exact hop

end

/-- The two instructions in front of a counted loop set a counter and are one. -/
theorem HeadPlaced.sound {p : Program K A} {count : Option UInt32} {start : Nat}
    {exit : Verdict → Nat} (h : HeadPlaced p count start exit)
    (hbody : start + headSize count < p.length) : p.SoundOn start (start + headSize count) := by
  rw [headSize] at hbody ⊢
  cases hcount : bound? count with
  | none =>
    intro j i hlo hhi
    simp only at hhi
    omega
  | some goal =>
    simp only [hcount] at hbody
    obtain ⟨hstart, hcounter⟩ := h goal hcount
    exact (Program.soundOn_single hstart (.start ⟨_, goal, start + 2, hcounter, rfl⟩)).join
      (Program.soundOn_single hcounter (.count hbody))

theorem ChainPlaced.sound {p : Program K A} {carry : Verdict} {children : List (Node K A)}
    (hne : children ≠ []) (ih : ∀ child ∈ children, ∀ {start exit},
      child.Placed p start exit → p.SoundOn start (start + child.size))
    {start : Nat} {exit : Verdict → Nat} (h : ChainPlaced p carry children start exit) :
    p.SoundOn start (start + sizes children) := by
  induction children generalizing start with
  | nil => exact absurd rfl hne
  | cons first rest ihrest =>
    by_cases hrest : rest = []
    · subst hrest
      exact ih first (.head _) h.last
    · obtain ⟨hfirst, hothers⟩ := h.cons hrest
      rw [sizes, ← Nat.add_assoc]
      exact (ih first (.head _) hfirst).join
        (ihrest hrest (fun child hmem => ih child (.tail _ hmem)) hothers)

theorem BranchesPlaced.sound {p : Program K A} {children : List (Node K A)}
    (ih : ∀ child ∈ children, ∀ {start exit},
      child.Placed p start exit → p.SoundOn start (start + child.size))
    {start : Nat} {exit : Verdict → Nat} {table : List Nat}
    (h : BranchesPlaced p children start exit table) :
    p.SoundOn start (start + sizes children) := by
  induction children generalizing start table with
  | nil =>
    intro j i hlo hhi
    simp only [sizes] at hhi
    omega
  | cons first rest ihrest =>
    obtain ⟨targets, -, hfirst, hothers⟩ := h.cons
    rw [sizes, ← Nat.add_assoc]
    exact (ih first (.head _) hfirst).join
      (ihrest (fun child hmem => ih child (.tail _ hmem)) hothers)

/-- A random node draws from the first instructions of its children. -/
theorem BranchesPlaced.targets {p : Program K A} {children : List (Node K A)} {start : Nat}
    {exit : Verdict → Nat} {table : List Nat} (h : BranchesPlaced p children start exit table) :
    ∀ target ∈ table, start ≤ target ∧ target < p.length := by
  induction children generalizing start table with
  | nil =>
    obtain rfl := h.nil
    simp
  | cons first rest ih =>
    obtain ⟨targets, rfl, hfirst, hothers⟩ := h.cons
    intro target hmem
    rcases List.mem_append.1 hmem with hmem | hmem
    · obtain rfl := (List.mem_replicate.1 hmem).2
      exact ⟨Nat.le_refl _, hfirst.lt_length⟩
    · have hbounds := ih hothers target hmem
      omega

/-- The code of a placed node is sound. -/
theorem Node.Placed.sound {p : Program K A} {node : Node K A} {start : Nat}
    {exit : Verdict → Nat} (h : node.Placed p start exit) :
    p.SoundOn start (start + node.size) := by
  induction node using Node.induction generalizing start exit with
  | mk kind children weight ih =>
    cases kind with
    | task t =>
      obtain ⟨run, -, hget⟩ := h.task
      exact Program.soundOn_single hget (.leaf rfl (by simp))
    | query q => exact Program.soundOn_single h.query (.leaf rfl (by simp))
    | subTree link =>
      obtain ⟨l, -, hget⟩ := h.subTree
      exact Program.soundOn_single hget (.leaf rfl (by simp))
    | sequence => exact h.sequence.2.sound h.sequence.1 fun c hc => ih c hc
    | selector => exact h.selector.2.sound h.selector.1 fun c hc => ih c hc
    | random =>
      obtain ⟨table, htable, hget, hbranches⟩ := h.random
      rw [Node.size, ← Nat.add_assoc]
      exact (Program.soundOn_single hget (.draw htable hbranches.targets)).join
        (hbranches.sound fun c hc => ih c hc)
    | whileLoop count =>
      obtain ⟨condition, action, rfl, hhead, hcond, hact⟩ := h.whileLoop
      simp only [Node.size, sizes, Nat.add_zero, ← Nat.add_assoc]
      exact ((hhead.sound hcond.lt_length).join (ih condition (.head _) hcond)).join
        (ih action (.tail _ (.head _)) hact)
    | succeed =>
      rcases h.succeed with ⟨rfl, hget⟩ | ⟨child, rfl, hchild⟩
      · exact Program.soundOn_single hget (.leaf rfl (by simp))
      · exact ih child (.head _) hchild
    | fail =>
      rcases h.fail with ⟨rfl, hget⟩ | ⟨child, rfl, hchild⟩
      · exact Program.soundOn_single hget (.leaf rfl (by simp))
      · exact ih child (.head _) hchild
    | invert =>
      obtain ⟨child, rfl, hchild⟩ := h.invert
      exact ih child (.head _) hchild
    | repeatLoop count breakOnFail =>
      obtain ⟨child, rfl, hhead, hbody⟩ := h.repeatLoop
      simp only [Node.size, sizes, Nat.add_zero, ← Nat.add_assoc]
      exact (hhead.sound hbody.lt_length).join (ih child (.head _) hbody)

/-! ## Finished code -/

/-- Code that goes on at its instructions and its two ends, and names no instruction that is
none, has a program. -/
theorem Code.seal_resolved {code : Code K A}
    (hgoes : code.resolved.GoesOn 0 code.length (Among code.resolved.ends))
    (hsound : code.resolved.SoundOn 0 code.length) : code.seal = .ok code.resolved := by
  simp only [Code.seal]
  split
  · rfl
  · rename_i index target rest hstrays
    -- An entry of the list of strays comes from an instruction that has one.
    have hmem : (index, target) ∈ (code.map (·.mapExits (·.resolve code.length))).zipIdx.filterMap
        fun entry => (entry.1.stray? code.length).map fun target => (entry.2, target) := by
      rw [hstrays]
      exact .head _
    obtain ⟨⟨i, j⟩, hij, hstray⟩ := List.mem_filterMap.1 hmem
    have hget : code.resolved.get? j = some i := List.mk_mem_zipIdx_iff_getElem?.1 hij
    have hj : j < code.length := code.length_resolved ▸ Program.lt_length_of_get? hget
    have hexit : ∀ next ∈ i.nexts, next ≤ code.length + 1 := by
      intro next hnext
      rcases hgoes j i (Nat.zero_le j) hj hget next hnext with hin | ⟨v, rfl⟩
      · omega
      · cases v <;> simp [Program.ends, Program.successIndex, Program.failIndex,
          Code.length_resolved]
    have htarget := (hsound j i (Nat.zero_le j) hj hget).targets_lt
    rw [Code.length_resolved] at htarget
    have hnone : i.stray? code.length = none := by
      rw [Instruction.stray?, Option.or_eq_none_iff, List.find?_eq_none, List.find?_eq_none]
      refine ⟨fun next hnext => ?_, fun next hnext => ?_⟩
      · have hbound := hexit next (by
          simp only [List.mem_cons, List.not_mem_nil, or_false] at hnext
          rcases hnext with rfl | rfl <;> simp [Instruction.nexts])
        simpa using hbound
      · simpa using htarget next hnext
    simp [hnone] at hstray

namespace Node

variable {root : Node K A} {p : Program K A}

/-- A definition that is put together without a fault has a program. -/
theorem compile_of_assemble {code : Code K A} (h : root.assemble [] 0 = .ok code) :
    compile root = .ok code.resolved := by
  have hplaced := placed_of_assemble h
  have hlength : 0 + root.size = code.length := by rw [Nat.zero_add, length_assemble h]
  have hgoes := hplaced.goesOn
  have hsound := hplaced.sound
  rw [hlength] at hgoes hsound
  exact bind_eq_ok_iff.2 ⟨code, h, Code.seal_resolved hgoes hsound⟩

theorem compile_eq_ok_iff :
    (∃ p, compile root = .ok p) ↔ ∃ code, root.assemble [] 0 = .ok code := by
  constructor
  · rintro ⟨p, hp⟩
    obtain ⟨code, hcode, -⟩ := bind_eq_ok_iff.1 hp
    exact ⟨code, hcode⟩
  · rintro ⟨code, hcode⟩
    exact ⟨_, compile_of_assemble hcode⟩

/-- All errors come from putting the definition together. -/
theorem compile_eq_error_iff {e : CompileError} :
    compile root = .error e ↔ root.assemble [] 0 = .error e := by
  cases hcode : root.assemble [] 0 with
  | error e' => simp [compile, hcode, bind, Except.bind]
  | ok code => simp [compile_of_assemble hcode]

/-- The instructions of a compiled program are sound. -/
theorem sound_of_compile (h : compile root = .ok p) {j : Nat} {i : Instruction Nat K A}
    (hget : p.get? j = some i) : i.op.SoundAt p j := by
  have hcode := (placed_of_compile h).sound
  rw [Nat.zero_add, ← length_of_compile h] at hcode
  exact hcode j i (Nat.zero_le j) (Program.lt_length_of_get? hget) hget

end Node

end TickTree

import TickTree.Tick

/-!
# Walks, cut and joined

A walk of `m + n` steps is a walk of `m` steps and then one of `n`. A walk that
has ended stays as it is under any larger bound. The step limit of a tree does
nothing but end walks early: a limited walk is the unlimited one, or its limit
ended it.
-/

namespace TickTree

/-- How the agent would be kept in the middle of a tick. -/
def Frame.standing (f : Frame) : AgentState :=
  { f.state with cursor := f.cursor, paused := f.resumed }

namespace Tick

variable {K A : Type} [DecidableEq K] (tick : Tick K A) (handler : Handler K A)

/-! ## What instructions do

The instructions that reach out of the walk: tasks, linked trees and random
branches. -/

theorem dispatch_task {task : RunnableTask K A} {i : Instruction Nat K A}
    (hop : i.op = .task task) (index : Nat) (resumed : Bool) (s : AgentState) (w : World K A) :
    tick.dispatch handler index resumed i s w =
      (tick.visit handler index task resumed s.board w).bind fun answer w =>
        .done (.ofStatus i answer.1, { s with board := answer.2 }) w := by
  obtain ⟨op, yes, no⟩ := i
  cases hop
  rfl

/-- A visit that goes on runs the task. -/
theorem visit_resumed (index : Nat) (task : RunnableTask K A) (board : Blackboard)
    (w : World K A) :
    tick.visit handler index task true board w =
      ((task.run tick.agent).perform handler board w).bind fun answer w =>
        let w := w.log (.ran tick.id tick.agent index task.name answer.1)
        if (TaskResult.status answer.1).isDone then
          (tick.endVisit handler index task (TaskResult.status answer.1) answer.2 w).map
            fun board => (TaskResult.status answer.1, board)
        else .done (TaskResult.status answer.1, answer.2) w := rfl

theorem dispatch_subTree {link : Link} {i : Instruction Nat K A} (hop : i.op = .subTree link)
    (index : Nat) (resumed : Bool) (s : AgentState) (w : World K A) :
    tick.dispatch handler index resumed i s w =
      (handler (.run link.tree tick.agent) w).bind fun
      | .ok status, w => .done (.ofStatus i status, s) w
      | .error e, w =>
          .done (.stop (.subTree index e), s) (w.log (.linkFailed tick.id tick.agent index e)) := by
  obtain ⟨op, yes, no⟩ := i
  cases hop
  rfl

theorem dispatch_randomBranch {first : Nat} {rest : List Nat} {i : Instruction Nat K A}
    (hop : i.op = .randomBranch (first :: rest)) (index : Nat) (resumed : Bool) (s : AgentState)
    (w : World K A) {place drawn : Nat}
    (hdraw : Random.draw tick.tree.words (rest.length + 1) (w.tree tick.id).drawn
      = (place, drawn)) :
    tick.dispatch handler index resumed i s w =
      .done (.goto ((first :: rest)[place]?.getD first), s)
        ((w.modifyTree tick.id fun t => { t with drawn := drawn }).log
          (.drew tick.id tick.agent index ((first :: rest)[place]?.getD first))) := by
  obtain ⟨op, yes, no⟩ := i
  cases hop
  simp only [dispatch, hdraw]

omit [DecidableEq K] in
/-- Whatever place is drawn, a random branch goes on at an entry of its table. -/
theorem getD_mem_table {α : Type} (first : α) (rest : List α) (place : Nat) :
    (first :: rest)[place]?.getD first ∈ first :: rest := by
  cases hplace : (first :: rest)[place]? with
  | none => exact .head _
  | some entry => exact List.mem_of_getElem? hplace

/-! ## Steps taken apart -/

/-- The ways a step of a walk can go. -/
inductive Advanced (f : Frame) (w : World K A) : Progress → World K A → Prop where
  /-- There is no instruction. -/
  | atEnd : tick.tree.program.get? f.cursor = none →
      Advanced f w (.ended (tick.resultAt f.cursor) f.state.rewind) w
  /-- The limit of the tree is used up. -/
  | limited {i : Instruction Nat K A} {limit : Nat} :
      tick.tree.program.get? f.cursor = some i → tick.exhausted f = some limit →
      Advanced f w (.ended (.error (.stepLimit limit)) f.state.rewind)
        (w.log (.limitReached tick.id tick.agent f.cursor limit))
  /-- The instruction is dispatched. -/
  | dispatched {i : Instruction Nat K A} {answer : Move × AgentState} {p : Progress}
      {w' : World K A} :
      tick.tree.program.get? f.cursor = some i → tick.exhausted f = none →
      tick.dispatch handler f.cursor f.resumed i f.state
        (w.log (.dispatched tick.id tick.agent f.cursor)) = .done answer w' →
      follow f answer = p → Advanced f w p w'

variable {tick handler} in
theorem advance_cases {f : Frame} {w w' : World K A} {p : Progress}
    (h : tick.advance handler f w = .done p w') : tick.Advanced handler f w p w' := by
  rw [advance] at h
  cases hget : tick.tree.program.get? f.cursor with
  | none =>
    simp only [hget] at h
    cases h
    exact .atEnd hget
  | some i =>
    cases hex : tick.exhausted f with
    | some limit =>
      simp only [hget, hex] at h
      cases h
      exact .limited hget hex
    | none =>
      simp only [hget, hex] at h
      obtain ⟨answer, hdispatch, hfollow⟩ := Outcome.map_eq_done_iff.1 h
      exact .dispatched hget hex hdispatch hfollow

omit [DecidableEq K] in
/-- A walk that goes on has spent one more instruction. -/
theorem spent_follow {f g : Frame} {answer : Move × AgentState}
    (h : follow f answer = .underway g) : g.spent = f.spent + 1 := by
  obtain ⟨move, s⟩ := answer
  cases move with
  | goto index =>
    cases h
    rfl
  | suspend => cases h
  | stop e => cases h

/-! ## Joining walks -/

@[simp]
theorem walk_zero (f : Frame) (w : World K A) :
    tick.walk handler 0 f w = .done (.underway f) w := rfl

theorem walk_succ (n : Nat) (f : Frame) (w : World K A) :
    tick.walk handler (n + 1) f w =
      (tick.advance handler f w).bind fun
      | .underway f', w' => tick.walk handler n f' w'
      | .ended r s, w' => .done (.ended r s) w' := by
  rw [walk]
  cases tick.advance handler f w with
  | done p w' => cases p <;> rfl
  | cutOff w' => rfl

variable {tick handler}

theorem walk_one {f f' : Frame} {w w' : World K A}
    (h : tick.advance handler f w = .done (.underway f') w') :
    tick.walk handler 1 f w = .done (.underway f') w' := by
  simp [walk_succ, h]

theorem walk_one_ended {f : Frame} {r : Except RunError Status} {s : AgentState}
    {w w' : World K A} (h : tick.advance handler f w = .done (.ended r s) w') :
    tick.walk handler 1 f w = .done (.ended r s) w' := by
  simp [walk_succ, h]

/-- A walk under way goes on from where it stands. -/
theorem walk_add {m : Nat} (n : Nat) {f f' : Frame} {w w' : World K A}
    (h : tick.walk handler m f w = .done (.underway f') w') :
    tick.walk handler (m + n) f w = tick.walk handler n f' w' := by
  induction m generalizing f w with
  | zero =>
    simp only [walk_zero, Outcome.done.injEq, Progress.underway.injEq] at h
    obtain ⟨rfl, rfl⟩ := h
    rw [Nat.zero_add]
  | succ m ih =>
    rw [show m + 1 + n = m + n + 1 by omega, walk_succ]
    rw [walk_succ] at h
    cases hadv : tick.advance handler f w with
    | cutOff w₁ => simp [hadv] at h
    | done p w₁ =>
      cases p with
      | underway f₁ =>
        rw [hadv] at h
        exact ih h
      | ended r s => simp [hadv] at h

/-- A walk that has ended is the same under every larger bound. -/
theorem walk_mono {m n : Nat} {f : Frame} {r : Except RunError Status} {s : AgentState}
    {w w' : World K A} (h : tick.walk handler m f w = .done (.ended r s) w') (hmn : m ≤ n) :
    tick.walk handler n f w = .done (.ended r s) w' := by
  induction m generalizing n f w with
  | zero => simp at h
  | succ m ih =>
    obtain ⟨n, rfl⟩ : ∃ k, n = k + 1 := ⟨n - 1, by omega⟩
    rw [walk_succ] at h ⊢
    cases hadv : tick.advance handler f w with
    | cutOff w₁ => simp [hadv] at h
    | done p w₁ =>
      rw [hadv] at h
      cases p with
      | underway f₁ => exact ih h (by omega)
      | ended r₁ s₁ => exact h

/-- A walk that is under way has not ended before. -/
theorem walk_ne_ended {m n : Nat} {f f' : Frame} {w w' : World K A}
    (h : tick.walk handler n f w = .done (.underway f') w') (hmn : m ≤ n)
    (r : Except RunError Status) (s : AgentState) (v : World K A) :
    tick.walk handler m f w ≠ .done (.ended r s) v := by
  intro hended
  have hsame := walk_mono hended hmn
  rw [h] at hsame
  cases hsame

/-- Two walks from one frame that have both ended came to the same. -/
theorem walk_ended_unique {m n : Nat} {f : Frame} {r r' : Except RunError Status}
    {s s' : AgentState} {w v v' : World K A}
    (h : tick.walk handler m f w = .done (.ended r s) v)
    (h' : tick.walk handler n f w = .done (.ended r' s') v') : r = r' ∧ s = s' ∧ v = v' := by
  have h₁ := walk_mono h (Nat.le_max_left m n)
  have h₂ := walk_mono h' (Nat.le_max_right m n)
  rw [h₁] at h₂
  cases h₂
  exact ⟨rfl, rfl, rfl⟩

/-! ## Whole ticks -/

theorem perform_of_walk {bound : Nat} {s s' : AgentState} {r : Except RunError Status}
    {w w' : World K A} (hcursor : s.cursor < tick.tree.program.length)
    (h : tick.walk handler bound (.begin s) w = .done (.ended r s') w') :
    tick.perform handler bound s w = .done (r, s') w' := by
  rw [perform, if_neg (by omega), h]

theorem walk_of_perform {bound : Nat} {s s' : AgentState} {r : Except RunError Status}
    {w w' : World K A} (hcursor : s.cursor < tick.tree.program.length)
    (h : tick.perform handler bound s w = .done (r, s') w') :
    tick.walk handler bound (.begin s) w = .done (.ended r s') w' := by
  rw [perform, if_neg (by omega)] at h
  cases hwalk : tick.walk handler bound (.begin s) w with
  | cutOff w₁ => simp [hwalk] at h
  | done p w₁ =>
    cases p with
    | underway f => simp [hwalk] at h
    | ended r₁ s₁ => simpa [hwalk] using h

/-! ## Step limits -/

omit [DecidableEq K] in
/-- A limit has not been used up before so many instructions are spent. -/
theorem exhausted_of_lt {f : Frame} {bound : Nat}
    (hlimit : ∀ limit, tick.tree.config.effectiveLimit = some limit → bound ≤ limit)
    (h : f.spent < bound) : tick.exhausted f = none := by
  refine Option.filter_eq_none_iff.2 fun limit hmem => ?_
  have hle := hlimit limit hmem
  simp only [decide_eq_true_eq]
  omega

/-- A step of a walk without a limit dispatches the instruction it stands at. -/
theorem advance_of_get? (tick : Tick K A) (handler : Handler K A) (f : Frame)
    (hfree : tick.tree.config.effectiveLimit = none)
    {i : Instruction Nat K A} (hget : tick.tree.program.get? f.cursor = some i) (v : World K A) :
    tick.advance handler f v =
      (tick.dispatch handler f.cursor f.resumed i f.state
        (v.log (.dispatched tick.id tick.agent f.cursor))).map (follow f) := by
  rw [advance, hget]
  simp only [exhausted, hfree, Option.filter_none]

/-- The tick in the same tree without its step limit. -/
def unlimited (tick : Tick K A) : Tick K A :=
  { tick with tree := { tick.tree with config := { tick.tree.config with stepLimit := none } } }

omit [DecidableEq K] in
@[simp]
theorem program_unlimited (tick : Tick K A) :
    tick.unlimited.tree.program = tick.tree.program := rfl

theorem dispatch_unlimited (index : Nat) (resumed : Bool) (i : Instruction Nat K A)
    (s : AgentState) (w : World K A) :
    tick.unlimited.dispatch handler index resumed i s w =
      tick.dispatch handler index resumed i s w := by
  obtain ⟨op, yes, no⟩ := i
  cases op with
  | task task =>
    rw [dispatch_task _ _ rfl, dispatch_task _ _ rfl]
    rfl
  | randomBranch table =>
    cases table with
    | nil => rfl
    | cons first rest =>
      obtain ⟨⟨place, drawn⟩, hdraw⟩ : ∃ p,
          Random.draw tick.tree.words (rest.length + 1) (w.tree tick.id).drawn = p := ⟨_, rfl⟩
      rw [dispatch_randomBranch _ _ rfl _ _ _ _ hdraw,
        dispatch_randomBranch tick.unlimited _ rfl _ _ _ _ hdraw]
      rfl
  | subTree link =>
    rw [dispatch_subTree _ _ rfl, dispatch_subTree _ _ rfl]
    change ((handler (.run link.tree tick.agent) w).bind _) = _
    cases handler (.run link.tree tick.agent) w with
    | cutOff w₁ => rfl
    | done result w₁ => cases result <;> rfl
  | query | repeatStart | repeatCounter | hangingSucceed | hangingFail => rfl

variable (tick handler)

/-- A step without the limit is the same step, unless the limit is used up at an instruction. -/
theorem advance_unlimited_of {f : Frame}
    (h : tick.tree.program.get? f.cursor = none ∨ tick.exhausted f = none) (w : World K A) :
    tick.unlimited.advance handler f w = tick.advance handler f w := by
  have hfree : tick.unlimited.exhausted f = none := rfl
  rw [advance, advance, program_unlimited]
  cases hget : tick.tree.program.get? f.cursor with
  | none => rfl
  | some i =>
    have hex := h.resolve_left (by simp [hget])
    simp only [hfree, hex, dispatch_unlimited]
    rfl

/-- A step without the limit is the same step, unless the limit stops it. -/
theorem advance_unlimited (f : Frame) (w : World K A) :
    tick.advance handler f w = tick.unlimited.advance handler f w ∨
      ∃ limit s w', tick.tree.config.effectiveLimit = some limit ∧
        tick.advance handler f w = .done (.ended (.error (.stepLimit limit)) s) w' := by
  cases hget : tick.tree.program.get? f.cursor with
  | none => exact .inl (tick.advance_unlimited_of handler (.inl hget) w).symm
  | some i =>
    cases hex : tick.exhausted f with
    | none => exact .inl (tick.advance_unlimited_of handler (.inr hex) w).symm
    | some limit =>
      refine .inr ⟨limit, f.state.rewind, w.log (.limitReached tick.id tick.agent f.cursor limit),
        (Option.filter_eq_some_iff.1 hex).1, ?_⟩
      simp only [advance, hget, hex]

/-- A walk is the unlimited one, or the limit of its tree has ended it. -/
theorem walk_unlimited (n : Nat) (f : Frame) (w : World K A) :
    tick.walk handler n f w = tick.unlimited.walk handler n f w ∨
      ∃ limit s w', tick.tree.config.effectiveLimit = some limit ∧
        tick.walk handler n f w = .done (.ended (.error (.stepLimit limit)) s) w' := by
  induction n generalizing f w with
  | zero => exact .inl rfl
  | succ n ih =>
    rw [walk_succ, walk_succ]
    rcases advance_unlimited tick handler f w with
      hsame | ⟨limit, s, w', hlimit, hstopped⟩
    · rw [hsame]
      cases tick.unlimited.advance handler f w with
      | cutOff w₁ => exact .inl rfl
      | done p w₁ =>
        cases p with
        | underway f₁ => exact ih f₁ w₁
        | ended r s => exact .inl rfl
    · exact .inr ⟨limit, s, w', hlimit, by rw [hstopped]; rfl⟩

end Tick

end TickTree

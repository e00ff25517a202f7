import TickTree.Operation

/-!
# Operations taken apart

What each operation on an agent of a tree can do, one case a way: guards, the calls made
in its course, and the world it leaves.
-/

namespace TickTree

variable {K A : Type} [DecidableEq K]

namespace World

/-- The world when a tick of a tree begins. -/
def enter (t : TreeId) (a : K) (w : World K A) : World K A :=
  (w.modifyTree t fun s => { s with running := true }).log (.entered t a)

/-- The world when a tick of a tree has ended. -/
def leave (t : TreeId) (a : K) (result : Except RunError Status) (w : World K A) : World K A :=
  (w.modifyTree t fun s => { s with running := false }).log (.left t a result)

omit [DecidableEq K] in
@[simp]
theorem tree_enter (w : World K A) (t : TreeId) (a : K) :
    (w.enter t a).tree t = { w.tree t with running := true } := by
  simp [enter]

omit [DecidableEq K] in
theorem tree_enter_of_ne (w : World K A) {t u : TreeId} (a : K) (h : t ≠ u) :
    (w.enter t a).tree u = w.tree u := by
  simp [enter, tree_modifyTree_of_ne w _ h]

omit [DecidableEq K] in
@[simp]
theorem tree_leave (w : World K A) (t : TreeId) (a : K) (r : Except RunError Status) :
    (w.leave t a r).tree t = { w.tree t with running := false } := by
  simp [leave]

omit [DecidableEq K] in
theorem tree_leave_of_ne (w : World K A) {t u : TreeId} (a : K) (r : Except RunError Status)
    (h : t ≠ u) : (w.leave t a r).tree u = w.tree u := by
  simp [leave, tree_modifyTree_of_ne w _ h]

theorem tree_checkOut_of_ne (w : World K A) {t u : TreeId} (a : K) (h : t ≠ u) :
    (w.checkOut t a).tree u = w.tree u := tree_modifyTree_of_ne w _ h

theorem tree_checkIn_of_ne (w : World K A) {t u : TreeId} (a : K) (s : AgentState) (h : t ≠ u) :
    (w.checkIn t a s).tree u = w.tree u := tree_modifyTree_of_ne w _ h

@[simp]
theorem tree_checkOut (w : World K A) (t : TreeId) (a : K) :
    (w.checkOut t a).tree t = { w.tree t with agents := (w.tree t).agents.erase a } :=
  tree_modifyTree_self w t _

@[simp]
theorem tree_checkIn (w : World K A) (t : TreeId) (a : K) (s : AgentState) :
    (w.checkIn t a s).tree t = { w.tree t with agents := (w.tree t).agents.set a s } :=
  tree_modifyTree_self w t _

omit [DecidableEq K] in
/-- A change to a tree is none to what it keeps. -/
theorem project_modifyTree {β : Type} (w : World K A) (t : TreeId)
    {f : TreeState K → TreeState K} {p : TreeState K → β} (hp : ∀ s, p (f s) = p s) (u : TreeId) :
    p ((w.modifyTree t f).tree u) = p (w.tree u) := by
  rw [tree_modifyTree]
  split
  · rename_i htu
    rw [hp, htu]
  · rfl

theorem agent?_modifyTree (w : World K A) (t : TreeId) {f : TreeState K → TreeState K}
    (hf : ∀ s, (f s).agents = s.agents) (u : TreeId) (a : K) :
    (w.modifyTree t f).agent? u a = w.agent? u a :=
  project_modifyTree w t (p := fun s => s.agents.get? a) (fun s => by rw [hf]) u

theorem agent?_enter (w : World K A) (u t : TreeId) (b a : K) :
    (w.enter u b).agent? t a = w.agent? t a := by
  by_cases hut : u = t
  · subst hut
    simp [agent?]
  · simp [agent?, tree_enter_of_ne w b hut]

theorem agent?_leave (w : World K A) (u t : TreeId) (b a : K) (r : Except RunError Status) :
    (w.leave u b r).agent? t a = w.agent? t a := by
  by_cases hut : u = t
  · subst hut
    simp [agent?]
  · simp [agent?, tree_leave_of_ne w b r hut]

theorem agent?_checkIn_self (w : World K A) (t : TreeId) (a : K) (s : AgentState) :
    (w.checkIn t a s).agent? t a = some s := by
  rw [agent?_checkIn, if_pos ⟨rfl, rfl⟩]

theorem agent?_checkOut_self (w : World K A) (t : TreeId) (a : K) :
    (w.checkOut t a).agent? t a = none := by
  rw [agent?_checkOut, if_pos ⟨rfl, rfl⟩]

/-- A tree has the agent it has ticked. -/
theorem agent?_ticked (w : World K A) (t : TreeId) (a : K) (s : AgentState)
    (r : Except RunError Status) : ((w.checkIn t a s).leave t a r).agent? t a = some s := by
  rw [agent?_leave, agent?_checkIn_self]

/-- What a tree keeps of an agent, or what an agent it does not know begins with. -/
def state (w : World K A) (t : TreeId) (a : K) : AgentState := (w.agent? t a).getD {}

theorem state_of_agent? {w : World K A} {t : TreeId} {a : K} {s : AgentState}
    (h : w.agent? t a = some s) : w.state t a = s := by
  rw [state, h]
  rfl

end World

omit [DecidableEq K] in
theorem Tree.awaited_unpaused {T : Tree K A} {s : AgentState} (h : s.paused = false) :
    T.awaited s = none := by
  simp [awaited, h]

omit [DecidableEq K] in
theorem Tree.awaited_paused {T : Tree K A} {s : AgentState} {i : Instruction Nat K A}
    (h : s.paused = true) (hget : T.program.get? s.cursor = some i) :
    T.awaited s = some i.op := by
  simp [awaited, h, hget]

omit [DecidableEq K] in
theorem Tree.paused_of_awaited {T : Tree K A} {s : AgentState} {op : Op K A}
    (h : T.awaited s = some op) : s.paused = true := by
  rw [awaited] at h
  split at h
  · assumption
  · cases h

omit [DecidableEq K] in
theorem Tree.awaited_inv {T : Tree K A} {s : AgentState} {op : Op K A}
    (h : T.awaited s = some op) : ∃ i, T.program.get? s.cursor = some i ∧ i.op = op := by
  rw [awaited] at h
  split at h
  · obtain ⟨i, hget, hop⟩ := Option.map_eq_some_iff.1 h
    exact ⟨i, hget, hop⟩
  · cases h

namespace Forest

variable (F : Forest K A) (handler : Handler K A)

/-- The tick of an agent in the tree at a place. -/
abbrev tickOf (t : TreeId) (a : K) : Tick K A := ⟨F.tree t, t, a⟩

/-! ## Run -/

/-- The ways a run can end. -/
inductive Ran (bound : Nat) (t : TreeId) (a : K) (w : World K A) :
    Except RunError Status → World K A → Prop where
  /-- The tree was ticking already. -/
  | refused : (w.tree t).running = true → Ran bound t a w (.error .reentrant) (w.log (.refused t a))
  /-- The tree was poisoned before the tick. -/
  | poisoned : (w.tree t).running = false → (w.tree t).poisoned = true →
      Ran bound t a w (.error .poisoned) ((w.enter t a).leave t a (.error .poisoned))
  /-- The tree was poisoned while it ticked, and the agent's state is lost. -/
  | lost {answer : Except RunError Status × AgentState} {w₁ : World K A} :
      (w.tree t).running = false → (w.tree t).poisoned = false →
      (F.tickOf t a).perform handler bound (w.state t a) ((w.enter t a).checkOut t a) =
        .done answer w₁ →
      (w₁.tree t).poisoned = true →
      Ran bound t a w (.error .poisoned) (w₁.leave t a (.error .poisoned))
  /-- The tick came to a result. -/
  | ticked {result : Except RunError Status} {s : AgentState} {w₁ : World K A} :
      (w.tree t).running = false → (w.tree t).poisoned = false →
      (F.tickOf t a).perform handler bound (w.state t a) ((w.enter t a).checkOut t a) =
        .done (result, s) w₁ →
      (w₁.tree t).poisoned = false →
      Ran bound t a w result ((w₁.checkIn t a s).leave t a result)

variable {F handler}

theorem run_eq (bound : Nat) (t : TreeId) (a : K) (w : World K A) :
    F.run handler bound t a w =
      if (w.tree t).running = true then .done (.error .reentrant) (w.log (.refused t a))
      else if (w.tree t).poisoned = true then
        .done (.error .poisoned) ((w.enter t a).leave t a (.error .poisoned))
      else
        ((F.tickOf t a).perform handler bound (w.state t a) ((w.enter t a).checkOut t a)).bind
          fun answer w₁ =>
        if (w₁.tree t).poisoned = true then
          .done (.error .poisoned) (w₁.leave t a (.error .poisoned))
        else .done answer.1 ((w₁.checkIn t a answer.2).leave t a answer.1) := by
  have hstate : (w.enter t a).agent? t a = w.agent? t a := by simp [World.agent?]
  have htree : ((w.enter t a).tree t).poisoned = (w.tree t).poisoned := by simp
  rw [World.state, ← hstate, ← htree]
  rfl

theorem run_cases {bound : Nat} {t : TreeId} {a : K} {w w' : World K A}
    {r : Except RunError Status} (h : F.run handler bound t a w = .done r w') :
    F.Ran handler bound t a w r w' := by
  rw [run_eq] at h
  by_cases hrunning : (w.tree t).running = true
  · rw [if_pos hrunning] at h
    cases h
    exact .refused hrunning
  rw [if_neg hrunning] at h
  by_cases hpoisoned : (w.tree t).poisoned = true
  · rw [if_pos hpoisoned] at h
    cases h
    exact .poisoned (by simpa using hrunning) hpoisoned
  rw [if_neg hpoisoned, Outcome.bind_eq_done_iff] at h
  obtain ⟨⟨result, s⟩, w₁, hperform, hout⟩ := h
  by_cases hpoisoned₁ : (w₁.tree t).poisoned = true
  · rw [if_pos hpoisoned₁] at hout
    cases hout
    exact .lost (by simpa using hrunning) (by simpa using hpoisoned) hperform hpoisoned₁
  · rw [if_neg hpoisoned₁] at hout
    cases hout
    exact .ticked (by simpa using hrunning) (by simpa using hpoisoned) hperform
      (by simpa using hpoisoned₁)

theorem run_of_perform {bound : Nat} {t : TreeId} {a : K} {w w₁ : World K A}
    {result : Except RunError Status} {s : AgentState} (hrunning : (w.tree t).running = false)
    (hpoisoned : (w.tree t).poisoned = false)
    (hperform : (F.tickOf t a).perform handler bound (w.state t a) ((w.enter t a).checkOut t a) =
      .done (result, s) w₁)
    (hpoisoned₁ : (w₁.tree t).poisoned = false) :
    F.run handler bound t a w = .done result ((w₁.checkIn t a s).leave t a result) := by
  simp only [run_eq, hrunning, hpoisoned, hperform, Outcome.bind_done, hpoisoned₁,
    Bool.false_eq_true, if_false]

/-! ## Abort -/

variable (F handler) in
/-- The ways an abort can end. -/
inductive Aborted (t : TreeId) (a : K) (w : World K A) : World K A → Prop where
  /-- The tree was poisoned. -/
  | skipped : (w.tree t).poisoned = true → Aborted t a w (w.log (.abortSkipped t a))
  /-- The tree had nothing of the agent. -/
  | absent : (w.tree t).poisoned = false → w.agent? t a = none → Aborted t a w w
  /-- The tree was poisoned meanwhile, and the agent's state is lost. -/
  | lost {s : AgentState} {board : Blackboard} {w₁ : World K A} :
      (w.tree t).poisoned = false → w.agent? t a = some s →
      F.cancel handler t a s (w.checkOut t a) = .done board w₁ → (w₁.tree t).poisoned = true →
      Aborted t a w w₁
  /-- The agent is rewound. -/
  | rewound {s : AgentState} {board : Blackboard} {w₁ : World K A} :
      (w.tree t).poisoned = false → w.agent? t a = some s →
      F.cancel handler t a s (w.checkOut t a) = .done board w₁ → (w₁.tree t).poisoned = false →
      Aborted t a w (w₁.checkIn t a { s with board := board }.rewind)

theorem abort_cases {t : TreeId} {a : K} {w w' : World K A}
    (h : F.abort handler t a w = .done () w') : F.Aborted handler t a w w' := by
  rw [abort] at h
  by_cases hpoisoned : (w.tree t).poisoned = true
  · rw [if_pos hpoisoned] at h
    cases h
    exact .skipped hpoisoned
  rw [if_neg hpoisoned] at h
  have hpoisoned : (w.tree t).poisoned = false := by simpa using hpoisoned
  cases hagent : w.agent? t a with
  | none =>
    rw [hagent] at h
    cases h
    exact .absent hpoisoned hagent
  | some s =>
    rw [hagent] at h
    simp only [Outcome.bind_eq_done_iff] at h
    obtain ⟨board, w₁, hcancel, hout⟩ := h
    by_cases hpoisoned₁ : (w₁.tree t).poisoned = true
    · rw [if_pos hpoisoned₁] at hout
      cases hout
      exact .lost hpoisoned hagent hcancel hpoisoned₁
    · rw [if_neg hpoisoned₁] at hout
      cases hout
      exact .rewound hpoisoned hagent hcancel (by simpa using hpoisoned₁)

/-- Nothing is to be cancelled of an agent that is not suspended. -/
theorem cancel_unpaused (handler : Handler K A) {t : TreeId} {a : K} {s : AgentState}
    (h : s.paused = false) (w : World K A) : F.cancel handler t a s w = .done s.board w := by
  rw [cancel, Tree.awaited_unpaused h]

theorem abort_absent {t : TreeId} {a : K} {w : World K A} (hpoisoned : (w.tree t).poisoned = false)
    (hagent : w.agent? t a = none) : F.abort handler t a w = .done () w := by
  simp [abort, hpoisoned, hagent]

theorem abort_of_cancel {t : TreeId} {a : K} {w w₁ : World K A} {s : AgentState}
    {board : Blackboard} (hpoisoned : (w.tree t).poisoned = false) (hagent : w.agent? t a = some s)
    (hcancel : F.cancel handler t a s (w.checkOut t a) = .done board w₁)
    (hpoisoned₁ : (w₁.tree t).poisoned = false) :
    F.abort handler t a w = .done () (w₁.checkIn t a { s with board := board }.rewind) := by
  simp [abort, hpoisoned, hagent, hcancel, hpoisoned₁]

/-! ## Remove -/

theorem remove_absent {t : TreeId} {a : K} {w : World K A} (hpoisoned : (w.tree t).poisoned = false)
    (hagent : w.agent? t a = none) : F.remove handler t a w = .done false w := by
  simp [remove, hpoisoned, hagent]

theorem remove_unlinked {t : TreeId} {a : K} {w : World K A} {s : AgentState}
    (hpoisoned : (w.tree t).poisoned = false) (hagent : w.agent? t a = some s)
    (hlink : ∀ link, (F.tree t).awaited s ≠ some (.subTree link)) :
    F.remove handler t a w = .done true (w.checkOut t a) := by
  simp only [remove, hpoisoned, hagent, Bool.false_eq_true, if_false]

theorem remove_linked {t : TreeId} {a : K} {w w₁ : World K A} {s : AgentState} {link : Link}
    {found : Bool} (hpoisoned : (w.tree t).poisoned = false) (hagent : w.agent? t a = some s)
    (hlink : (F.tree t).awaited s = some (.subTree link))
    (hremove : handler (.remove link.tree a) (w.checkOut t a) = .done found w₁) :
    F.remove handler t a w = .done true w₁ := by
  simp [remove, hpoisoned, hagent, hlink, hremove, Outcome.map]

variable (F handler) in
/-- The ways a removal can end. -/
inductive Removed (t : TreeId) (a : K) (w : World K A) : Bool → World K A → Prop where
  /-- The tree was poisoned. -/
  | refused : (w.tree t).poisoned = true → Removed t a w false w
  /-- The tree had nothing of the agent. -/
  | absent : (w.tree t).poisoned = false → w.agent? t a = none → Removed t a w false w
  /-- The agent was suspended in a linked tree and is removed there too. -/
  | linked {s : AgentState} {link : Link} {answer : Bool} {w₁ : World K A} :
      (w.tree t).poisoned = false → w.agent? t a = some s →
      (F.tree t).awaited s = some (.subTree link) →
      handler (.remove link.tree a) (w.checkOut t a) = .done answer w₁ →
      Removed t a w true w₁
  /-- The agent was not in a linked tree. -/
  | unlinked {s : AgentState} :
      (w.tree t).poisoned = false → w.agent? t a = some s →
      (∀ link, (F.tree t).awaited s ≠ some (.subTree link)) →
      Removed t a w true (w.checkOut t a)

theorem remove_cases {t : TreeId} {a : K} {w w' : World K A} {r : Bool}
    (h : F.remove handler t a w = .done r w') : F.Removed handler t a w r w' := by
  rw [remove] at h
  by_cases hpoisoned : (w.tree t).poisoned = true
  · rw [if_pos hpoisoned] at h
    cases h
    exact .refused hpoisoned
  rw [if_neg hpoisoned] at h
  have hpoisoned : (w.tree t).poisoned = false := by simpa using hpoisoned
  cases hagent : w.agent? t a with
  | none =>
    rw [hagent] at h
    cases h
    exact .absent hpoisoned hagent
  | some s =>
    rw [hagent] at h
    simp only at h
    split at h
    · obtain ⟨answer, hremove, rfl⟩ := Outcome.map_eq_done_iff.1 h
      exact .linked hpoisoned hagent ‹_› hremove
    · cases h
      rename_i hother
      exact .unlinked hpoisoned hagent fun link hlink => hother link hlink

/-! ## Update -/

/-- The ways an update can end. -/
inductive Updated (t : TreeId) (a : K) (edit : Edit) (w : World K A) :
    Except RunError EditResult → World K A → Prop where
  /-- The tree was poisoned. -/
  | refused : (w.tree t).poisoned = true → Updated t a edit w (.error .poisoned) w
  /-- The edit died and has poisoned the tree. -/
  | died : (w.tree t).poisoned = false → edit (w.state t a).board = none →
      Updated t a edit w (.ok .died) (poison t (w.checkIn t a (w.state t a)))
  /-- The board is edited. -/
  | edited {board : Blackboard} : (w.tree t).poisoned = false →
      edit (w.state t a).board = some board →
      Updated t a edit w (.ok (.edited (w.state t a).board))
        (w.checkIn t a { w.state t a with board := board })

theorem update_cases {t : TreeId} {a : K} {edit : Edit} {w w' : World K A}
    {r : Except RunError EditResult} (h : update t a edit w = (r, w')) :
    Updated t a edit w r w' := by
  have hstate : (w.agent? t a).getD {} = w.state t a := rfl
  rw [update] at h
  by_cases hpoisoned : (w.tree t).poisoned = true
  · rw [if_pos hpoisoned] at h
    cases h
    exact .refused hpoisoned
  rw [if_neg hpoisoned] at h
  have hpoisoned : (w.tree t).poisoned = false := by simpa using hpoisoned
  simp only [hstate] at h
  split at h
  · cases h
    exact .died hpoisoned ‹_›
  · cases h
    exact .edited hpoisoned ‹_›

end Forest

end TickTree

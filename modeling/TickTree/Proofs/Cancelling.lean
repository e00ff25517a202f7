import TickTree.Proofs.Delegation

/-!
# Aborts and removals that reach through links

An abort of an agent in a tree that delegates reaches the task that the inlined tree would
be suspended on (`Forest.serve_abort`), and a removal discards what there is of the agent in
all trees on the way (`Forest.serve_remove`). Afterwards the agent would begin anew in each
of them.
-/

namespace TickTree

variable {K A : Type} [DecidableEq K]

/-! ## Agents that come and go -/

namespace World

variable {t : TreeId} {a : K} {w : World K A}

/-- An agent is settled up to a tree where it is in the tree and below. -/
theorem settled_upto (hown : w.Settled t a) (hlower : ∀ u < t, w.Settled u a) :
    ∀ u ≤ t, w.Settled u a := by
  intro u hu
  rcases Nat.lt_or_eq_of_le hu with hlt | rfl
  · exact hlower u hlt
  · exact hown

/-- A change of what a tree keeps of one agent. -/
theorem within_modifyTree {f : TreeState K → TreeState K}
    (hrunning : (f (w.tree t)).running = (w.tree t).running)
    (hpoisoned : (f (w.tree t)).poisoned = (w.tree t).poisoned)
    (hagents : ∀ b, a ≠ b → (f (w.tree t)).agents.get? b = (w.tree t).agents.get? b) :
    w.Within (t + 1) a (w.modifyTree t f) := by
  refine ⟨fun u => ?_, fun u => ?_, fun {u b} hne => ?_⟩
  · rw [tree_modifyTree]
    split
    · subst u
      exact hrunning
    · rfl
  · rw [tree_modifyTree]
    split
    · subst u
      exact hpoisoned
    · rfl
  · rw [agent?, agent?, tree_modifyTree]
    split
    · subst u
      exact hagents b fun hab => hne ⟨Nat.lt_succ_self t, hab.symm⟩
    · rfl

theorem within_checkOut (t : TreeId) (a : K) (w : World K A) :
    w.Within (t + 1) a (w.checkOut t a) :=
  within_modifyTree rfl rfl fun _ hab => Table.get?_erase_of_ne _ hab

theorem within_checkIn (t : TreeId) (a : K) (w : World K A) (s : AgentState) :
    w.Within (t + 1) a (w.checkIn t a s) :=
  within_modifyTree rfl rfl fun _ hab => Table.get?_set_of_ne _ _ hab

theorem settled_of_absent (h : w.agent? t a = none) : w.Settled t a := by
  rw [Settled, state, h]
  exact ⟨rfl, rfl⟩

theorem state_checkOut {u : TreeId} (htu : t ≠ u) : (w.checkOut t a).state u a = w.state u a := by
  rw [state, agent?_checkOut, if_neg fun heq => htu heq.1, state]

theorem state_checkIn (s : AgentState) : (w.checkIn t a s).state t a = s :=
  state_of_agent? (agent?_checkIn_self w t a s)

theorem state_checkIn_of_ne {u : TreeId} (htu : t ≠ u) (s : AgentState) :
    (w.checkIn t a s).state u a = w.state u a := by
  rw [state, agent?_checkIn, if_neg fun heq => htu heq.1, state]

theorem ready_checkOut {u : TreeId} (h : w.Ready u) : (w.checkOut t a).Ready u := by
  have hrunning : ∀ u, ((w.checkOut t a).tree u).running = (w.tree u).running :=
    project_modifyTree w t (p := (·.running)) fun _ => rfl
  have hpoisoned : ∀ u, ((w.checkOut t a).tree u).poisoned = (w.tree u).poisoned :=
    project_modifyTree w t (p := (·.poisoned)) fun _ => rfl
  exact ⟨(hrunning u).trans h.1, (hpoisoned u).trans h.2⟩

theorem settled_checkIn (s : AgentState) : (w.checkIn t a s.rewind).Settled t a := by
  rw [Settled, state_checkIn]
  exact ⟨rfl, rfl⟩

theorem settled_rewound (s : AgentState) (h : ∀ u < t, w.Settled u a) :
    ∀ u ≤ t, (w.checkIn t a s.rewind).Settled u a :=
  settled_upto (settled_checkIn s) fun u hu =>
    (h u hu).congr (state_checkIn_of_ne (Nat.ne_of_gt hu) _)

end World

namespace Forest

variable {F G : Forest K A} {extent : TreeId → Nat} {roots : List (Node K A)}
  {r : Option RegistryId} {t o : TreeId} {base : Nat} {exit : Verdict → Nat} {a : K}
  {w v : World K A} {s s' : AgentState}

/-! ## Aborts -/

/-- A tree that an agent stands in is left below, when the agent is taken out of it. -/
theorem Stands.checkOut {u : TreeId} (h : F.Stands extent a w u base exit (w.state u a) s')
    (hu : u < t) :
    F.Stands extent a (w.checkOut t a) u base exit ((w.checkOut t a).state u a) s' := by
  rw [World.state_checkOut (Nat.ne_of_gt hu)]
  exact h.congr fun x hx => World.state_checkOut (Nat.ne_of_gt (Nat.lt_trans hx hu))

theorem Stands.settled (h : F.Stands extent a w t base exit s s') (hpaused : s.paused = false) :
    ∀ u < t, w.Settled u a := by
  cases h with
  | here _ _ _ _ _ hsettled => exact hsettled
  | inside hs =>
    rw [hpaused] at hs
    cases hs

/-- A task is cancelled in a tree as in the inlined one. -/
theorem cancel_abreast (hF : F.Delegates roots r) (handler handler' : Handler K A)
    (hP : F.Unfolds extent (G.tree o).program t base exit) (hpaused : s'.paused = s.paused)
    (hcursor : s'.cursor = (F.tree t).program.moved extent base exit s.cursor)
    (htask : s.paused = true →
      ∃ i task, (F.tree t).program.get? s.cursor = some i ∧ i.op = .task task)
    (hbeside : w.Beside v) :
    w.Abreast v (fun _ _ => True) (F.cancel handler t a s w) (G.cancel handler' o a s' v) := by
  cases hs : s.paused with
  | false =>
    rw [cancel_unpaused handler hs, cancel_unpaused handler' (hpaused.trans hs)]
    exact .done trivial hbeside rfl rfl
  | true =>
    obtain ⟨⟨op, yes, no⟩, task, hget, hop⟩ := htask hs
    cases hop
    have hget' := hP.get? hget (by simp)
    rw [← hcursor] at hget'
    rw [cancel, Tree.awaited_paused hs hget, cancel, Tree.awaited_paused (hpaused.trans hs) hget']
    have hagent : (G.tickOf o a).agent = (F.tickOf t a).agent := rfl
    exact (Tick.endVisit_abreast (hF.outward t s.cursor task yes no hget) hagent .failure
      hbeside).imp fun _ _ _ => trivial

/-- What an abort comes to next to an inlined tree that cancels what the agent is suspended
on. -/
structure Cancelled (G : Forest K A) (handler : Handler K A) (o t : TreeId) (a : K)
    (s' : AgentState) (w v w' : World K A) : Prop where
  cancel : ∃ board v', G.cancel handler o a s' v = .done board v' ∧ w'.Beside v' ∧
    v'.trees = v.trees
  within : w.Within (t + 1) a w'
  settled : ∀ u ≤ t, w'.Settled u a
  known : (w'.agent? t a).isSome = (w.agent? t a).isSome

theorem Cancelled.rewound {handler' : Handler K A} {board board' : Blackboard}
    {w₁ v' : World K A} (hagent : w.agent? t a = some s) (hwithin : (w.checkOut t a).Within t a w₁)
    (hsettled : ∀ u < t, w₁.Settled u a)
    (hcancel : G.cancel handler' o a s' v = .done board' v') (hbeside : w₁.Beside v')
    (htrees : v'.trees = v.trees) :
    G.Cancelled handler' o t a s' w v (w₁.checkIn t a { s with board := board }.rewind) :=
  ⟨⟨board', v', hcancel, hbeside.modify_left t _, htrees⟩,
    ((World.within_checkOut t a w).trans (hwithin.mono (Nat.le_succ t))).trans
      (World.within_checkIn t a w₁ _),
    World.settled_rewound _ hsettled, by rw [World.agent?_checkIn_self, hagent]; rfl⟩

/-- An abort reaches the task that the inlined tree is suspended on. -/
theorem serve_abort (hF : F.Delegates roots r) (handler' : Handler K A)
    (hP : F.Unfolds (extentOf roots) (G.tree o).program t base exit)
    (hstands : F.Stands (extentOf roots) a w t base exit (w.state t a) s')
    (hready : ∀ u ≤ t, w.Ready u) (hbeside : w.Beside v) {n : Nat} (hn : t < n) :
    ∃ w', F.serve n (.abort t a) w = .done () w' ∧ G.Cancelled handler' o t a s' w v w' := by
  -- The chain of trees goes down, so a bound above the first tree is enough for all of them.
  induction n generalizing t base exit w with
  | zero => exact absurd hn (Nat.not_lt_zero t)
  | succ n ih =>
    have hpoisoned := (hready t (Nat.le_refl t)).2
    have hout : ((w.checkOut t a).tree t).poisoned = false := by simpa using hpoisoned
    cases hagent : w.agent? t a with
    | none =>
      have hown := World.settled_of_absent hagent
      exact ⟨w, abort_absent hpoisoned hagent,
        ⟨s'.board, v, cancel_unpaused handler' (hstands.paused.trans hown.2) v, hbeside, rfl⟩,
        .of_trees rfl, World.settled_upto hown (hstands.settled hown.2), rfl⟩
    | some s =>
      rw [World.state_of_agent? hagent] at hstands
      have hbeside₁ : (w.checkOut t a).Beside v := hbeside.modify_left t _
      cases hstands with
      | here hpaused hcursor _ _ htask hsettled =>
        have habreast := cancel_abreast hF (F.serve n) handler' hP hpaused hcursor htask hbeside₁
          (a := a)
        generalize hcancel : F.cancel (F.serve n) t a s (w.checkOut t a) = p at habreast
        generalize hcancel' : G.cancel handler' o a s' v = p' at habreast
        cases habreast with
        | @done board board' w₁ v' _ hbeside' htrees htrees' =>
          have hwithin : (w.checkOut t a).Within t a w₁ := .of_trees htrees
          refine ⟨_, abort_of_cancel hpoisoned hagent hcancel ((hwithin.poisoned t).trans hout),
            Cancelled.rewound hagent hwithin (fun u hu => ?_) hcancel' hbeside' htrees'⟩
          exact ((hsettled u hu).congr (World.state_checkOut (Nat.ne_of_gt hu))).congr
            (World.state_of_trees htrees u a)
      | @inside _ _ _ _ _ i l hs hget hop hbelow _ hbetween _ hinner =>
        obtain ⟨-, hP'⟩ := hP.link hget hop
        have hready₁ : ∀ u ≤ l.tree, (w.checkOut t a).Ready u := fun u hu =>
          have hlt := Nat.lt_of_le_of_lt hu hbelow
          World.ready_checkOut (hready u (Nat.le_of_lt hlt))
        obtain ⟨w₁, hserve, ⟨board', v', hcancel', hbeside', htrees'⟩, hinside, hsettled, -⟩ :=
          ih hP' (hinner.checkOut hbelow) hready₁ hbeside₁
            (Nat.lt_of_lt_of_le hbelow (Nat.le_of_lt_succ hn))
        have hwithin : (w.checkOut t a).Within t a w₁ := hinside.mono hbelow
        have hcancel : F.cancel (F.serve n) t a s (w.checkOut t a) = .done s.board w₁ := by
          rw [cancel, Tree.awaited_paused hs hget, hop]
          simp only [hserve, Outcome.map, Outcome.bind_done]
        refine ⟨_, abort_of_cancel hpoisoned hagent hcancel ((hwithin.poisoned t).trans hout),
          Cancelled.rewound hagent hwithin ?_ hcancel' hbeside' htrees'⟩
        exact World.settled_below (hsettled l.tree (Nat.le_refl _))
          (fun u hu => hsettled u (Nat.le_of_lt hu)) fun u hlo hhi =>
            ((hbetween u hlo hhi).congr (World.state_checkOut (Nat.ne_of_gt hhi))).congr
              (hinside.state fun hin => Nat.not_lt.2 (Nat.le_of_lt_succ hin.1) hlo)

/-! ## Removals -/

/-- A removal discards whatever there is of an agent, where it stands in a tree and in those
below. -/
theorem serve_remove (hstands : F.Stands extent a w t base exit (w.state t a) s')
    (hready : ∀ u ≤ t, w.Ready u) (hbeside : w.Beside v) {n : Nat} (hn : t < n) :
    ∃ w', F.serve n (.remove t a) w = .done (w.agent? t a).isSome w' ∧ w'.Beside v ∧
      w.Within (t + 1) a w' ∧ w'.agent? t a = none ∧ ∀ u < t, w'.Settled u a := by
  induction n generalizing t base exit w with
  | zero => exact absurd hn (Nat.not_lt_zero t)
  | succ n ih =>
    have hpoisoned := (hready t (Nat.le_refl t)).2
    have habsent := World.agent?_checkOut_self w t a
    cases hagent : w.agent? t a with
    | none =>
      exact ⟨w, remove_absent hpoisoned hagent, hbeside, .of_trees rfl, hagent,
        hstands.settled (World.settled_of_absent hagent).2⟩
    | some s =>
      rw [World.state_of_agent? hagent] at hstands
      have hbeside₁ : (w.checkOut t a).Beside v := hbeside.modify_left t _
      cases hstands with
      | here _ _ _ _ htask hsettled =>
        have hlink : ∀ link, (F.tree t).awaited s ≠ some (.subTree link) := by
          intro link hawaited
          cases hs : s.paused with
          | false => simp [Tree.awaited_unpaused hs] at hawaited
          | true =>
            obtain ⟨i, task, hget, hop⟩ := htask hs
            simp [Tree.awaited_paused hs hget, hop] at hawaited
        exact ⟨_, remove_unlinked hpoisoned hagent hlink, hbeside₁, World.within_checkOut t a w,
          habsent, fun u hu => (hsettled u hu).congr (World.state_checkOut (Nat.ne_of_gt hu))⟩
      | @inside _ _ _ _ _ i l hs hget hop hbelow _ hbetween _ hinner =>
        have hready₁ : ∀ u ≤ l.tree, (w.checkOut t a).Ready u := fun u hu =>
          have hlt := Nat.lt_of_le_of_lt hu hbelow
          World.ready_checkOut (hready u (Nat.le_of_lt hlt))
        obtain ⟨w₁, hserve, hbeside', hinside, hgone, hsettled⟩ :=
          ih (hinner.checkOut hbelow) hready₁ hbeside₁
            (Nat.lt_of_lt_of_le hbelow (Nat.le_of_lt_succ hn))
        have hwithin : (w.checkOut t a).Within t a w₁ := hinside.mono hbelow
        have hawaited : (F.tree t).awaited s = some (.subTree l) := by
          rw [Tree.awaited_paused hs hget, hop]
        refine ⟨w₁, remove_linked hpoisoned hagent hawaited hserve, hbeside',
          (World.within_checkOut t a w).trans (hwithin.mono (Nat.le_succ t)), ?_, ?_⟩
        · rw [hwithin.agent? fun hin => Nat.lt_irrefl t hin.1, habsent]
        · exact World.settled_below (World.settled_of_absent hgone) hsettled fun u hlo hhi =>
            ((hbetween u hlo hhi).congr (World.state_checkOut (Nat.ne_of_gt hhi))).congr
              (hinside.state fun hin => Nat.not_lt.2 (Nat.le_of_lt_succ hin.1) hlo)

end Forest

end TickTree

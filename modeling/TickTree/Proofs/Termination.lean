import TickTree.Proofs.Bounds
import TickTree.Proofs.Dispatches
import TickTree.Proofs.Trails

/-!
# Trees with bounded loops come to an end

The walk of a tick leaves a trail (`Tick.walk_trail`), and where loops are bounded trails are
(`Node.atMost_of_compile`). So if the hooks of a forest operate on no tree, a tick of a tree whose
loops are bounded, in the tree and in all trees that it links to, comes to an end, whatever the
state it begins in, and it dispatches no more than `Node.longest` instructions of the tree
(`Forest.run_terminates`).
-/

namespace TickTree

variable {K A : Type}

/-- Every instruction can be stepped from. -/
theorem Program.exists_step {p : Program K A} {j : Nat} {i : Instruction Nat K A}
    (hget : p.get? j = some i) (c : Rounds) : ∃ k d, p.Step j c k d := by
  by_cases hloop : i.op.IsLoop
  · cases hop : i.op with
    | repeatStart counter => exact ⟨_, _, .start hget hop⟩
    | repeatCounter goal body => exact ⟨_, _, .count hget hop⟩
    | _ => simp [hop, Op.IsLoop] at hloop
  · exact ⟨_, _, .next hget hloop (.head _)⟩

theorem AgentState.rounds_update (s : AgentState) (counter : Nat) (n : UInt32) :
    (s.setRounds counter n).rounds = Function.update s.rounds counter n := by
  funext k
  by_cases hk : k = counter
  · subst hk
    simp [rounds, setRounds]
  · rw [Function.update_of_ne hk, rounds, rounds, setRounds, Table.get?_set_of_ne _ _ (Ne.symm hk)]

variable [DecidableEq K] {handler : Handler K A}

/-! ## Ticks -/

namespace Tick

variable {tick : Tick K A} {w w' : World K A}

omit [DecidableEq K] in
theorem step_ofStatus {j k : Nat} {i : Instruction Nat K A} {s s' : AgentState} {status : Status}
    (hget : tick.tree.program.get? j = some i) (hop : ¬ i.op.IsLoop) (hs : s'.rounds = s.rounds)
    (h : Move.ofStatus i status = .goto k) :
    tick.tree.program.Step j s.rounds k s'.rounds := by
  rw [Move.ofStatus] at h
  split at h
  · cases h
    rw [hs]
    refine .next hget hop ?_
    cases status with
    | success => exact .head _
    | failure | running => exact .tail _ (.head _)
  · cases h

/-- An instruction after which a walk goes on is a step of its trail. -/
theorem dispatch_step {j k : Nat} {i : Instruction Nat K A}
    (hget : tick.tree.program.get? j = some i) {resumed : Bool} {s s' : AgentState}
    (h : tick.dispatch handler j resumed i s w = .done (.goto k, s') w') :
    tick.tree.program.Step j s.rounds k s'.rounds := by
  obtain ⟨op, yes, no⟩ := i
  cases op with
  | task task =>
    rw [dispatch_task _ _ rfl, Outcome.bind_eq_done_iff] at h
    obtain ⟨reply, w₁, -, hdone⟩ := h
    simp only [Outcome.done.injEq, Prod.mk.injEq] at hdone
    obtain ⟨⟨hmove, rfl⟩, -⟩ := hdone
    exact step_ofStatus hget not_false rfl hmove
  | query q =>
    simp only [dispatch] at h
    split at h <;> cases h
    · exact .next hget not_false (.head _)
    · exact .next hget not_false (.tail _ (.head _))
    · exact .next hget not_false (.tail _ (.head _))
  | subTree link =>
    rw [dispatch_subTree _ _ rfl, Outcome.bind_eq_done_iff] at h
    obtain ⟨result, w₁, -, hdone⟩ := h
    cases result with
    | ok status =>
      simp only [Outcome.done.injEq, Prod.mk.injEq] at hdone
      obtain ⟨⟨hmove, rfl⟩, -⟩ := hdone
      exact step_ofStatus hget not_false rfl hmove
    | error e => cases hdone
  | randomBranch table =>
    cases table with
    | nil => cases h
    | cons first rest =>
      obtain ⟨⟨place, drawn⟩, hdraw⟩ : ∃ p,
          Random.draw tick.tree.words (rest.length + 1) (w.tree tick.id).drawn = p := ⟨_, rfl⟩
      rw [dispatch_randomBranch _ _ rfl _ _ _ _ hdraw] at h
      cases h
      exact .next hget not_false (.tail _ (.tail _ (getD_mem_table first rest place)))
  | repeatStart counter =>
    cases h
    rw [AgentState.rounds_update]
    exact .start hget rfl
  | repeatCounter goal body =>
    cases h
    rw [AgentState.rounds_update]
    exact .count hget rfl
  | hangingSucceed =>
    cases h
    exact .next hget not_false (.head _)
  | hangingFail =>
    cases h
    exact .next hget not_false (.tail _ (.head _))

/-- A walk leaves a trail of the instructions that it dispatches. -/
theorem walk_trail (hq : tick.Quiet) (hh : handler.Spares) {n : Nat} {f : Frame} {p : Progress}
    (hrunning : (w.tree tick.id).running) (h : tick.walk handler n f w = .done p w') :
    ∃ m k d, tick.tree.program.Trail 0 tick.tree.program.length m f.cursor f.state.rounds k d ∧
      w'.dispatches tick.id = w.dispatches tick.id + m ∧ ∀ f', p = .underway f' → m = n := by
  induction n generalizing f w with
  | zero =>
    cases h
    exact ⟨0, _, _, .stop _ _, rfl, fun _ _ => rfl⟩
  | succ n ih =>
    rw [walk_succ, Outcome.bind_eq_done_iff] at h
    obtain ⟨p₁, w₁, hstep, hrest⟩ := h
    have hrunning₁ : (w₁.tree tick.id).running := by
      rw [(advance_confined hq hh hrunning hstep).running, hrunning]
    rcases advance_dispatches hq hh hrunning hstep with
      ⟨hsame, r, s, rfl⟩ | ⟨i, ⟨move, s⟩, hget, hmore, hdispatch, rfl⟩
    · cases hrest
      exact ⟨0, _, _, .stop _ _, hsame, nofun⟩
    · have hlt := Program.lt_length_of_get? hget
      cases move with
      | goto k =>
        obtain ⟨m, l, d, htrail, hcount, hunderway⟩ := ih hrunning₁ hrest
        refine ⟨m + 1, l, d, .step (Nat.zero_le _) hlt (dispatch_step hget hdispatch) htrail,
          ?_, ?_⟩
        · rw [hcount, hmore]
          omega
        · intro f' hp
          rw [hunderway f' hp]
      | suspend | stop e =>
        cases hrest
        obtain ⟨k, d, hnext⟩ := Program.exists_step hget f.state.rounds
        exact ⟨1, k, d, .step (Nat.zero_le _) hlt hnext (.stop _ _), hmore, nofun⟩

/-- The ticks that a program links to come to an end. -/
def LinksAnswer (tick : Tick K A) (handler : Handler K A) : Prop :=
  ∀ {index : Nat} {i : Instruction Nat K A} {link : Link},
    tick.tree.program.get? index = some i → i.op = .subTree link →
    ∀ w, ∃ reply w', handler (.run link.tree tick.agent) w = .done reply w'

theorem walk_answers (hq : tick.Quiet) (hlinks : tick.LinksAnswer handler) (n : Nat) (f : Frame)
    (w : World K A) : ∃ p w', tick.walk handler n f w = .done p w' := by
  induction n generalizing f w with
  | zero => exact ⟨_, _, rfl⟩
  | succ n ih =>
    obtain ⟨p, w₁, hstep⟩ :=
      advance_answers (f := f) (w := w) hq fun hget _ hop => hlinks hget hop _
    rw [walk_succ, hstep, Outcome.bind_done]
    cases p with
    | underway f' => exact ih f' w₁
    | ended r s => exact ⟨_, _, rfl⟩

/-- A tick whose trails are bounded comes to an end. -/
theorem perform_ends {most : Nat} (hmost : tick.tree.program.AtMost 0 tick.tree.program.length most)
    (hq : tick.Quiet) (hh : handler.Spares) (hlinks : tick.LinksAnswer handler) {bound : Nat}
    (hbound : most < bound) (s : AgentState) (hrunning : (w.tree tick.id).running) :
    ∃ answer w', tick.perform handler bound s w = .done answer w' ∧
      w'.dispatches tick.id ≤ w.dispatches tick.id + most := by
  by_cases hcursor : s.cursor < tick.tree.program.length
  · obtain ⟨p, w', hwalk⟩ := walk_answers hq hlinks bound (.begin s) w
    obtain ⟨m, k, d, htrail, hcount, hunderway⟩ := walk_trail hq hh hrunning hwalk
    have hm := hmost htrail
    cases p with
    | underway f =>
      have hall := hunderway f rfl
      omega
    | ended r s' => exact ⟨_, w', perform_of_walk hcursor hwalk, by omega⟩
  · rw [perform, if_pos (Nat.le_of_not_lt hcursor)]
    exact ⟨_, w, rfl, by omega⟩

end Tick

/-! ## Forests -/

/-- The loops of a tree are bounded, and those of all trees that it links to. That this is an
inductive statement says that the links come to an end. -/
inductive Forest.Bounded (F : Forest K A) : TreeId → Prop where
  | mk {t : TreeId} {root : Node K A} : compile root = .ok (F.tree t).program →
      root.Every NodeKind.Bounded →
      (∀ {index : Nat} {i : Instruction Nat K A} {link : Link},
        (F.tree t).program.get? index = some i → i.op = .subTree link → Bounded F link.tree) →
      Bounded F t

namespace Forest

variable {F : Forest K A} {t : TreeId}

/-- What ends within a bound for each of some things ends within one bound for all. -/
theorem exists_bound {α : Type} {P : α → Nat → Prop} (hmono : ∀ x m n, m ≤ n → P x m → P x n)
    {xs : List α} (h : ∀ x ∈ xs, ∃ n, P x n) : ∃ n, ∀ x ∈ xs, P x n := by
  induction xs with
  | nil => exact ⟨0, nofun⟩
  | cons x xs ih =>
    obtain ⟨m, hm⟩ := h x (.head _)
    obtain ⟨n, hn⟩ := ih fun y hy => h y (.tail _ hy)
    refine ⟨max m n, fun y hy => ?_⟩
    rcases List.mem_cons.1 hy with rfl | hy
    · exact hmono y m _ (Nat.le_max_left m n) hm
    · exact hmono y n _ (Nat.le_max_right m n) (hn y hy)

/-- If the linked ticks come to an end, and loops are bounded, a tick does. -/
theorem run_ends {root : Node K A} (hF : F.Asks Request.Quiet)
    (hroot : compile root = .ok (F.tree t).program) (hloops : root.Every NodeKind.Bounded)
    (hlinks : ∀ {index : Nat} {i : Instruction Nat K A} {link : Link},
      (F.tree t).program.get? index = some i → i.op = .subTree link →
        ∃ bound, ∀ a w, ∃ reply w', F.serve bound (.run link.tree a) w = .done reply w') :
    ∃ bound, ∀ a w, ∃ reply w', F.serve bound (.run t a) w = .done reply w' ∧
      w'.dispatches t ≤ w.dispatches t + root.longest := by
  obtain ⟨bound, hbound⟩ : ∃ bound, ∀ i ∈ (F.tree t).program.instructions, ∀ link,
      i.op = .subTree link →
        ∀ a w, ∃ reply w', F.serve bound (.run link.tree a) w = .done reply w' := by
    refine exists_bound (fun i m n hmn h link hop a w => ?_) fun i hi => ?_
    · obtain ⟨reply, w', hrun⟩ := h link hop a w
      exact ⟨reply, w', F.serve_mono hmn _ _ _ _ hrun⟩
    · obtain ⟨index, hget⟩ := List.getElem?_of_mem hi
      by_cases hop : ∃ link, i.op = .subTree link
      · obtain ⟨link, hop⟩ := hop
        obtain ⟨bound, hbound⟩ := hlinks hget hop
        refine ⟨bound, fun link' hop' => ?_⟩
        rw [hop] at hop'
        cases hop'
        exact hbound
      · exact ⟨0, fun link hlink => absurd ⟨link, hlink⟩ hop⟩
  refine ⟨max bound (root.longest + 1) + 1, fun a w => ?_⟩
  have hlinks : (F.tickOf t a).LinksAnswer (F.serve (max bound (root.longest + 1))) := by
    intro index i link hget hop v
    obtain ⟨reply, v', hrun⟩ := hbound i (List.mem_of_getElem? hget) link hop a v
    exact ⟨reply, v', F.serve_mono (Nat.le_max_left _ _) _ _ _ _ hrun⟩
  change ∃ reply w', F.run (F.serve (max bound (root.longest + 1)))
    (max bound (root.longest + 1)) t a w = .done reply w' ∧ _
  rw [run_eq]
  split
  · exact ⟨_, _, rfl, by rw [World.dispatches_log_of_not rfl]; omega⟩
  split
  · exact ⟨_, _, rfl, by rw [World.dispatches_leave, World.dispatches_enter]; omega⟩
  obtain ⟨answer, w₁, hperform, hcount⟩ := Tick.perform_ends (Node.atMost_of_compile hroot hloops)
    (hF.quiet t a) (F.serve_spares hF _) hlinks
    (Nat.le_max_right bound (root.longest + 1)) (w.state t a)
    (show (((w.enter t a).checkOut t a).tree t).running by simp)
  rw [hperform, Outcome.bind_done]
  rw [World.dispatches_checkOut, World.dispatches_enter] at hcount
  split
  · exact ⟨_, _, rfl, by rwa [World.dispatches_leave]⟩
  · exact ⟨_, _, rfl, by rwa [World.dispatches_leave, World.dispatches_checkIn]⟩

theorem Bounded.run_ends (hF : F.Asks Request.Quiet) (h : F.Bounded t) :
    ∃ bound, ∀ a w, ∃ reply w', F.serve bound (.run t a) w = .done reply w' := by
  induction h with
  | mk hroot hloops _ ih =>
    obtain ⟨bound, hbound⟩ := Forest.run_ends hF hroot hloops ih
    refine ⟨bound, fun a w => ?_⟩
    obtain ⟨reply, w', hrun, -⟩ := hbound a w
    exact ⟨reply, w', hrun⟩

/-- If the hooks of a forest operate on no tree, and the loops of a tree and of all trees that it
links to are bounded, then a tick of the tree comes to an end, from every state and whatever the
hooks, the queries and the random draws come to, and dispatches no more than so many instructions
of the tree. -/
theorem run_terminates {root : Node K A} (hF : F.Asks Request.Quiet)
    (hroot : compile root = .ok (F.tree t).program) (hloops : root.Every NodeKind.Bounded)
    (hlinks : ∀ {index : Nat} {i : Instruction Nat K A} {link : Link},
      (F.tree t).program.get? index = some i → i.op = .subTree link → F.Bounded link.tree) :
    ∃ bound, ∀ a w, ∃ reply w', F.serve bound (.run t a) w = .done reply w' ∧
      w'.dispatches t ≤ w.dispatches t + root.longest :=
  run_ends hF hroot hloops fun hget hop => (hlinks hget hop).run_ends hF

/-- A counted loop in another one, with a link in it to a tree with a loop of its own. -/
theorem run_terminates_nested :
    let wait : RunnableTask Unit Unit := ⟨"wait", none, fun _ => pure (.ok .running), none⟩
    let inner : Node Unit Unit := .times 2 (.action "wait" wait.run)
    let root : Node Unit Unit := .untilFailure (some 3)
      (.whileLoop (some 2) (.query "self" "k" "set") (.subTree ⟨0, 3⟩))
    let F : Forest Unit Unit := ⟨[{ program := (compile inner).toOption.getD {} },
      { program := (compile root).toOption.getD {} }]⟩
    F.Asks Request.Quiet ∧ compile root = .ok (F.tree 1).program ∧
      root.Every NodeKind.Bounded ∧ F.Bounded 0 ∧ root.longest = 65 ∧
      ∃ bound, ∀ a w, ∃ reply w', F.serve bound (.run 1 a) w = .done reply w' ∧
        w'.dispatches 1 ≤ w.dispatches 1 + root.longest := by
  intro wait inner root F
  have hwait : wait.Asks Request.Quiet := ⟨nofun, fun _ => .done _, nofun⟩
  have hops : ∀ {t j i}, (F.tree t).program.get? j = some i →
      (∀ task, i.op = .task task → task = wait) ∧
        ∀ link, i.op = .subTree link → t = 1 ∧ link.tree = 0 := by
    intro t j i hget
    match t, j, hget with
    | 0, 0, hget | 0, 1, hget => cases hget; exact ⟨nofun, nofun⟩
    | 0, 2, hget => cases hget; exact ⟨fun _ hop => by cases hop; rfl, nofun⟩
    | 0, j + 3, hget => cases hget
    | 1, 0, hget | 1, 1, hget | 1, 2, hget | 1, 3, hget | 1, 4, hget =>
      cases hget; exact ⟨nofun, nofun⟩
    | 1, 5, hget => cases hget; exact ⟨nofun, fun _ hop => by cases hop; exact ⟨rfl, rfl⟩⟩
    | 1, j + 6, hget => cases hget
    | t + 2, j, hget => cases hget
  have hquiet : F.Asks Request.Quiet := by
    intro t j task yes no hget
    obtain rfl := (hops hget).1 task rfl
    exact hwait
  have hleaf : ∀ {kind : NodeKind Unit Unit}, kind.loop? = none → kind.Bounded := by
    intro kind hkind count hcount
    rw [hkind] at hcount
    cases hcount
  have hinner : inner.Every NodeKind.Bounded :=
    .mk (fun _ hcount => by cases hcount; exact ⟨2, rfl, by decide, by decide⟩)
      fun child hmem => by
        obtain rfl := List.mem_singleton.1 hmem
        exact .mk (hleaf rfl) nofun
  have hwhile : (Node.whileLoop (some 2) (.query "self" "k" "set") (.subTree ⟨0, 3⟩)).Every
      (NodeKind.Bounded (K := Unit) (A := Unit)) :=
    .mk (fun _ hcount => by cases hcount; exact ⟨2, rfl, by decide, by decide⟩)
      fun child hmem => by
        obtain rfl | rfl : child = .query "self" "k" "set" ∨ child = .subTree ⟨0, 3⟩ := by
          simpa using hmem
        · exact .mk (hleaf rfl) nofun
        · exact .mk (hleaf rfl) nofun
  have hroot : root.Every NodeKind.Bounded :=
    .mk (fun _ hcount => by cases hcount; exact ⟨3, rfl, by decide, by decide⟩)
      fun child hmem => by
        obtain rfl := List.mem_singleton.1 hmem
        exact hwhile
  have hcompiled : compile inner = .ok (F.tree 0).program := rfl
  have hbelow : F.Bounded 0 :=
    .mk hcompiled hinner fun hget hop => absurd ((hops hget).2 _ hop).1 (by decide)
  refine ⟨hquiet, rfl, hroot, hbelow, rfl, ?_⟩
  refine run_terminates hquiet rfl hroot fun hget hop => ?_
  rw [((hops hget).2 _ hop).2]
  exact hbelow

end Forest

end TickTree
